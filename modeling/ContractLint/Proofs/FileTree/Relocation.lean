import ContractLint.Proofs.FileTree.Visit

/-!
# One directory in two places

A directory with all that is in it can stand in two places, in one tree or in two, with other files
around it. What is looked up, found and written below it is the same in both places, but for the
names that lead to the directory.

## The architecture

* **`Relocated`** — the two places. A write to the same file in both keeps them alike.
* **`Path.isInner`** — a path that is seen from a directory and does not lead out of it. In both
  places it leads to the same names (`Relocated.follow`).
* **`StandsAlone`** — a directory that ignore files above it have nothing to say about, so that the
  same files are ignored in both places (`Relocated.ignores_eq`).
* **`Checkout`** — a directory of a tree together with the path that it is known by. The files that
  are found below it are the same in both places (`Checkout.found_iff`). Every project can be placed
  in every directory (`Checkout.ofProject`).
* **`Relocated.visit`** — two runs that treat the files in the same way, file by file, leave the
  same behind and return the same.
-/

namespace ContractLint

/-! ## Paths that stay inside -/

namespace Path

/-- Whether the pieces of a path do not lead out of a directory, if they start the given number of
names below it. -/
def staysInside : (depth : Nat) → List Text → Bool
  | _, [] => true
  | depth, piece :: rest =>
    if isFiller piece then staysInside depth rest
    else if piece = ['.', '.'] then depth != 0 && staysInside (depth - 1) rest
    else staysInside (depth + 1) rest

/-- Whether a path is relative and does not lead out of the directory that it is seen from. -/
def isInner (p : Path) : Bool := !p.isAbsolute && staysInside 0 (Text.splitAt '/' p.text)

theorem isInner_iff {p : Path} :
    p.isInner = true ↔ p.isAbsolute = false ∧ staysInside 0 (Text.splitAt '/' p.text) = true := by
  rw [isInner, Bool.and_eq_true, Bool.not_eq_true']

end Path

namespace FileTree

/-! ## Two places -/

/-- What is below one directory of a tree is also below another one, of the same tree or of another
one, and nothing else is there. -/
structure Relocated (t : FileTree) (dir : Key) (u : FileTree) (dir' : Key) : Prop where
  file : ∀ names, u.file? (dir' ++ names) = t.file? (dir ++ names)
  isDir : ∀ names, u.isDir (dir' ++ names) = t.isDir (dir ++ names)

namespace Relocated

variable {t u : FileTree} {dir dir' : Key} (h : Relocated t dir u dir')
include h

theorem symm : Relocated u dir' t dir := ⟨fun n => (h.file n).symm, fun n => (h.isDir n).symm⟩

theorem has (names : Key) : u.has (dir' ++ names) = t.has (dir ++ names) := by
  rw [FileTree.has, FileTree.has, h.file, h.isDir]

/-- **A path that stays inside** leads to the same names in both places. -/
theorem follow {pieces : List Text} {names key : Key}
    (hkey : t.follow pieces (dir ++ names) = .ok key)
    (hinside : Path.staysInside names.length pieces = true) :
    ∃ inner, key = dir ++ inner ∧ u.follow pieces (dir' ++ names) = .ok (dir' ++ inner) := by
  induction pieces generalizing names with
  | nil =>
    rw [FileTree.follow] at hkey ⊢
    split at hkey
    · next hhas => exact ⟨names, (Except.ok.inj hkey).symm, by rw [h.has, if_pos hhas]⟩
    · cases hkey
  | cons piece rest ih =>
    rw [FileTree.follow] at hkey ⊢
    rw [Path.staysInside] at hinside
    rw [h.isDir]
    split at hkey
    · cases hkey
    · next hdir =>
      rw [if_neg hdir]
      split at hkey
      · next hfiller =>
        rw [if_pos hfiller] at hinside ⊢
        exact ih hkey hinside
      · next hfiller =>
        rw [if_neg hfiller] at hinside ⊢
        split at hkey
        · next hup =>
          rw [if_pos hup] at hinside ⊢
          rw [Bool.and_eq_true, bne_iff_ne] at hinside
          -- there is a name to go back from, so the directory itself stays
          have hne : names ≠ [] := fun hnil => hinside.1 (by rw [hnil]; rfl)
          rw [List.dropLast_append_of_ne_nil hne] at hkey ⊢
          exact ih hkey (by rw [List.length_dropLast]; exact hinside.2)
        · next hup =>
          rw [if_neg hup] at hinside ⊢
          rw [List.append_assoc] at hkey ⊢
          exact ih hkey (by rw [List.length_append]; exact hinside)

/-- The same write in both places. -/
theorem write {names : Key} (hfile : (t.file? (dir ++ names)).isSome = true) (bytes : ByteArray) :
    Relocated (t.write (dir ++ names) bytes) dir (u.write (dir' ++ names) bytes) dir' := by
  have hfile' : (u.file? (dir' ++ names)).isSome = true := by rw [h.file, hfile]
  constructor
  · intro others
    rw [file?_write hfile, file?_write hfile', h.file]
    simp only [List.append_cancel_left_eq]
  · intro others
    rw [(sameShape_write hfile bytes).samePaths.isDir, (sameShape_write hfile' bytes).samePaths.isDir,
      h.isDir]

/-- The same is written over a file, or not, in both places. -/
theorem overwrite {p p' : Path} {names : Key} (hp : t.resolve p = .ok (dir ++ names))
    (hp' : u.resolve p' = .ok (dir' ++ names)) (hfile : (t.file? (dir ++ names)).isSome = true)
    (written : Option Text) :
    Relocated (t.overwrite p written) dir (u.overwrite p' written) dir' ∧
      SameShape t (t.overwrite p written) ∧ SameShape u (u.overwrite p' written) := by
  have hfile' : (u.file? (dir' ++ names)).isSome = true := by rw [h.file, hfile]
  cases written with
  | none => exact ⟨h, .refl t, .refl u⟩
  | some text =>
    show Relocated (t.write (keyOf p) (encode text)) dir (u.write (keyOf p') (encode text)) dir' ∧
      SameShape t (t.write (keyOf p) (encode text)) ∧ SameShape u (u.write (keyOf p') (encode text))
    rw [keyOf_eq_of_resolve hp, keyOf_eq_of_resolve hp']
    exact ⟨h.write hfile _, sameShape_write hfile _, sameShape_write hfile' _⟩

end Relocated

/-! ## Ignore files -/

/-- A directory that is the top of a repository or in none. -/
def StandsAlone (t : FileTree) (dir : Key) : Prop :=
  Gitignore.isTop t dir = true ∨ Gitignore.inRepository t dir.reverse = false

instance (t : FileTree) (dir : Key) : Decidable (t.StandsAlone dir) :=
  inferInstanceAs (Decidable (_ ∨ _))

end FileTree

namespace Gitignore

variable {t : FileTree} {dir : Key}

theorem inRepository_of_isTop (h : isTop t dir = true) : inRepository t dir.reverse = true := by
  cases hreverse : dir.reverse with
  | nil =>
    obtain rfl : dir = [] := List.reverse_eq_nil_iff.1 hreverse
    exact h
  | cons name up => rw [inRepository, ← hreverse, List.reverse_reverse, h, Bool.true_or]

/-- Ignore files above the top of a repository are not asked. -/
theorem decisionAbove?_of_isTop (h : isTop t dir = true) (isDir : Bool) (below : Key) :
    decisionAbove? t isDir dir.reverse below = decision? (entriesIn t dir) isDir below := by
  cases hreverse : dir.reverse with
  | nil =>
    obtain rfl : dir = [] := List.reverse_eq_nil_iff.1 hreverse
    rfl
  | cons name up =>
    simp only [decisionAbove?, ← hreverse, List.reverse_reverse, h, if_true]
    cases decision? (entriesIn t dir) isDir below <;> rfl

end Gitignore

namespace FileTree.Relocated

open Gitignore

variable {t u : FileTree} {dir dir' : Key} (h : Relocated t dir u dir')
include h

theorem isTop_eq (names : Key) : isTop u (dir' ++ names) = isTop t (dir ++ names) := by
  rw [isTop, isTop, List.append_assoc, List.append_assoc, h.has]

theorem entriesIn_eq (names : Key) : entriesIn u (dir' ++ names) = entriesIn t (dir ++ names) := by
  rw [entriesIn, entriesIn, List.append_assoc, List.append_assoc, h.file]

variable (halone : t.StandsAlone dir) (halone' : u.StandsAlone dir')
include halone halone'

theorem inRepository_eq (up : Key) :
    inRepository u (up ++ dir'.reverse) = inRepository t (up ++ dir.reverse) := by
  induction up with
  | nil =>
    have htop : isTop u dir' = isTop t dir := by simpa using h.isTop_eq []
    rw [List.nil_append, List.nil_append]
    rcases halone with hin | hout
    · rw [inRepository_of_isTop hin, inRepository_of_isTop (htop.trans hin)]
    · rcases halone' with hin' | hout'
      · rw [htop] at hin'
        rw [inRepository_of_isTop hin'] at hout
        cases hout
      · rw [hout, hout']
  | cons name up ih =>
    have htop := h.isTop_eq (name :: up).reverse
    simp only [List.cons_append, inRepository, List.reverse_cons, List.reverse_append,
      List.reverse_reverse, List.append_assoc] at htop ⊢
    rw [htop, ih]

omit halone' in
/-- A decision in a repository is made inside of the directory. -/
theorem decisionAbove?_eq {up : Key} (hin : inRepository t (up ++ dir.reverse) = true)
    (isDir : Bool) (below : Key) :
    decisionAbove? u isDir (up ++ dir'.reverse) below =
      decisionAbove? t isDir (up ++ dir.reverse) below := by
  induction up generalizing below with
  | nil =>
    rw [List.nil_append] at hin
    have htop : isTop t dir = true := halone.resolve_right (by rw [hin]; exact Bool.noConfusion)
    have htop' : isTop u dir' = true := by simpa [htop] using h.isTop_eq []
    have hentries : entriesIn u dir' = entriesIn t dir := by simpa using h.entriesIn_eq []
    rw [List.nil_append, List.nil_append, decisionAbove?_of_isTop htop,
      decisionAbove?_of_isTop htop', hentries]
  | cons name up ih =>
    have htop := h.isTop_eq (name :: up).reverse
    have hentries := h.entriesIn_eq (name :: up).reverse
    simp only [List.cons_append, inRepository, decisionAbove?, List.reverse_cons,
      List.reverse_append, List.reverse_reverse, List.append_assoc] at htop hentries hin ⊢
    rw [htop, hentries]
    cases hstop : isTop t (dir ++ (up.reverse ++ [name])) with
    | true => rfl
    | false =>
      rw [hstop, Bool.false_or] at hin
      simp only [Bool.false_eq_true, if_false, ih hin]

theorem ignoresEntry_eq (isDir : Bool) (names : Key) (name : Text) :
    ignoresEntry u isDir (dir' ++ names) name = ignoresEntry t isDir (dir ++ names) name := by
  rw [ignoresEntry, ignoresEntry, List.reverse_append, List.reverse_append,
    h.inRepository_eq halone halone']
  cases hin : inRepository t (names.reverse ++ dir.reverse) with
  | false => rfl
  | true => rw [h.decisionAbove?_eq halone hin]

/-- **The same files are ignored** in both places. -/
theorem ignores_eq (names below : Key) :
    ignores u (dir' ++ names) below = ignores t (dir ++ names) below := by
  induction below generalizing names with
  | nil => rfl
  | cons name rest ih =>
    cases rest with
    | nil => exact h.ignoresEntry_eq halone halone' false names name
    | cons next rest =>
      simp only [ignores, h.ignoresEntry_eq halone halone', List.append_assoc, ih]

end FileTree.Relocated

/-! ## Files that are found -/

open FileTree

/-- A project in a directory of a tree. -/
structure Checkout where
  tree : FileTree
  /-- The absolute path that the directory is known by. -/
  base : Path
  /-- The names that lead to the directory. -/
  dir : Key
  wellFormed : tree.WellFormed
  absolute : base.isAbsolute = true
  resolve : tree.resolve base = .ok dir
  isDir : tree.isDir dir = true

namespace Checkout

/-- Two places of one project. -/
def SameProject (c c' : Checkout) : Prop := Relocated c.tree c.dir c'.tree c'.dir

variable {c c' : Checkout} {rel : Path}

theorem base_text_ne_nil (c : Checkout) : c.base.text ≠ [] := by
  intro hnil
  have habsolute := c.absolute
  rw [Path.isAbsolute, hnil] at habsolute
  cases habsolute

/-- An inner path leads to the same names in both places. -/
theorem resolve_join (h : c.SameProject c') (hrel : rel.isInner = true) {key : Key}
    (hkey : c.tree.resolve (c.base.join rel) = .ok key) :
    ∃ inner, key = c.dir ++ inner ∧ c'.tree.resolve (c'.base.join rel) = .ok (c'.dir ++ inner) := by
  obtain ⟨hrelative, hinside⟩ := Path.isInner_iff.1 hrel
  rw [FileTree.resolve_join hrelative c.resolve, ← List.append_nil c.dir] at hkey
  obtain ⟨inner, rfl, hinner⟩ := h.follow hkey hinside
  rw [List.append_nil] at hinner
  exact ⟨inner, rfl, (FileTree.resolve_join hrelative c'.resolve).trans hinner⟩

/-- A file has the same name in both places. -/
theorem fileName_join (c' : Checkout) (hrel : rel.isInner = true) {key : Key}
    (hkey : c.tree.resolve (c.base.join rel) = .ok key) (hfile : (c.tree.file? key).isSome = true) :
    (c'.base.join rel).fileName = (c.base.join rel).fileName := by
  obtain ⟨hrelative, -⟩ := Path.isInner_iff.1 hrel
  cases hnamed : (Text.splitAt '/' rel.text).filter (!Path.isFiller ·) with
  | nil =>
    -- then the path leads to the directory of the project, which is not a file
    have hfillers : ∀ piece ∈ Text.splitAt '/' rel.text, Path.isFiller piece = true := by
      simpa using hnamed
    rw [FileTree.resolve_join hrelative c.resolve] at hkey
    obtain rfl := eq_of_follow_fillers hfillers hkey
    have hdir := c.isDir
    rw [c.wellFormed.isDir_eq_false hfile] at hdir
    cases hdir
  | cons piece rest =>
    rw [Path.fileName, Path.fileName, Path.components_join hrelative c.base_text_ne_nil,
      Path.components_join hrelative c'.base_text_ne_nil, hnamed,
      List.getLast?_append_of_ne_nil _ (by simp), List.getLast?_append_of_ne_nil _ (by simp)]

section Found

variable {pattern : Text} {respectGitignore : Bool} {names : Key}

theorem fileName_below (c' : Checkout) (hrel : rel.isInner = true)
    (hfound : c.tree.Found (c.base.join rel) pattern respectGitignore names) :
    ((c'.base.join rel).below names).fileName = ((c.base.join rel).below names).fileName := by
  obtain ⟨pieces, key, -, hkey, hfile, -⟩ := hfound
  by_cases hne : names = []
  · subst hne
    rw [List.append_nil] at hfile
    exact fileName_join c' hrel hkey hfile
  · have hnames : ∀ name ∈ names, Path.isName name = true :=
      fun name hname => c.wellFormed.isName hfile name (by simp [hname])
    rw [Path.fileName_below hnames hne, Path.fileName_below hnames hne]

variable (h : c.SameProject c') (hrel : rel.isInner = true)
include h hrel

theorem found_of_sameProject
    (halone : respectGitignore = true → c.tree.StandsAlone c.dir ∧ c'.tree.StandsAlone c'.dir)
    (hfound : c.tree.Found (c.base.join rel) pattern respectGitignore names) :
    c'.tree.Found (c'.base.join rel) pattern respectGitignore names := by
  have hname := fileName_below c' hrel hfound
  obtain ⟨pieces, key, hpattern, hkey, hfile, hfits, hignored⟩ := hfound
  obtain ⟨inner, rfl, hkey'⟩ := resolve_join h hrel hkey
  refine ⟨pieces, c'.dir ++ inner, hpattern, hkey', ?_, by rw [hname, hfits], fun hrespect => ?_⟩
  · rw [List.append_assoc, h.file, ← List.append_assoc, hfile]
  · obtain ⟨halone, halone'⟩ := halone hrespect
    rw [h.ignores_eq halone halone', hignored hrespect]

/-- **The same files are found** in both places. -/
theorem found_iff
    (halone : respectGitignore = true → c.tree.StandsAlone c.dir ∧ c'.tree.StandsAlone c'.dir) :
    c'.tree.Found (c'.base.join rel) pattern respectGitignore names ↔
      c.tree.Found (c.base.join rel) pattern respectGitignore names :=
  ⟨found_of_sameProject h.symm hrel fun hrespect => (halone hrespect).symm,
    found_of_sameProject h hrel halone⟩

/-- Where a file that is found is, in both places. -/
theorem exists_place_of_found
    (hfound : c.tree.Found (c.base.join rel) pattern respectGitignore names) :
    ∃ place, c.tree.resolve ((c.base.join rel).below names) = .ok (c.dir ++ place) ∧
      c'.tree.resolve ((c'.base.join rel).below names) = .ok (c'.dir ++ place) ∧
        (c.tree.file? (c.dir ++ place)).isSome = true := by
  obtain ⟨-, key, -, hkey, hfile, -⟩ := hfound
  obtain ⟨inner, rfl, hkey'⟩ := resolve_join h hrel hkey
  have hfile' : (c'.tree.file? (c'.dir ++ inner ++ names)).isSome = true := by
    rw [List.append_assoc, h.file, ← List.append_assoc, hfile]
  refine ⟨inner ++ names, ?_, ?_, ?_⟩
  · rw [(c.wellFormed.keyOf_below hkey hfile).1, List.append_assoc]
  · rw [(c'.wellFormed.keyOf_below hkey' hfile').1, List.append_assoc]
  · rw [← List.append_assoc, hfile]

end Found

end Checkout

/-! ## Placing a project -/

namespace FileTree

/-- A tree with a project in a directory and nothing else. -/
def placed (project : FileTree) (dir : Key) : FileTree where
  files := project.files.map fun (key, bytes) => (dir ++ key, bytes)
  dirs := dir :: project.dirs.map (dir ++ ·)

variable {project : FileTree} {dir : Key}

theorem file?_placed (names : Key) :
    (project.placed dir).file? (dir ++ names) = project.file? names := by
  rw [file?, file?, placed]
  induction project.files with
  | nil => rfl
  | cons file files ih =>
    obtain ⟨key, bytes⟩ := file
    have hkey : (dir ++ names == dir ++ key) = (names == key) := by
      rw [Bool.eq_iff_iff, beq_iff_eq, beq_iff_eq, List.append_cancel_left_eq]
    rw [List.map_cons, List.lookup_cons, List.lookup_cons, hkey, ih]

theorem isDir_placed (names : Key) :
    (project.placed dir).isDir (dir ++ names) = project.isDir names := by
  have hstarts (key : Key) : (dir ++ names).isPrefixOf (dir ++ key) = names.isPrefixOf key := by
    rw [Bool.eq_iff_iff, List.isPrefixOf_iff_prefix, List.isPrefixOf_iff_prefix,
      List.prefix_append_right_inj]
  have hlength (key : Key) :
      ((dir ++ names).length < (dir ++ key).length) = (names.length < key.length) := by
    simp
  -- the directory of the project is there, so it counts as one also if nothing is in it
  have hself : ((dir ++ names).isEmpty || (dir ++ names).isPrefixOf dir) = names.isEmpty := by
    have hnil : (dir ++ names).isPrefixOf dir = names.isEmpty := by
      have hdir := hstarts []
      rw [List.append_nil] at hdir
      rw [hdir]
      cases names <;> rfl
    rw [hnil]
    cases dir <;> cases names <;> rfl
  simp only [isDir, placed, List.any_cons, List.any_map, Function.comp_def, hstarts, hlength]
  rw [← Bool.or_assoc, hself]

theorem isDir_placed_self : (project.placed dir).isDir dir = true := by
  have hdir : (project.placed dir).isDir (dir ++ []) = true := isDir_placed []
  rwa [List.append_nil] at hdir

/-- **A project can be placed in any two directories.** -/
theorem relocated_placed (project : FileTree) (dir dir' : Key) :
    Relocated (project.placed dir) dir (project.placed dir') dir' where
  file names := by rw [file?_placed, file?_placed]
  isDir names := by rw [isDir_placed, isDir_placed]

theorem WellFormed.placed (hproject : project.WellFormed)
    (hdir : ∀ name ∈ dir, Path.isName name = true) : (project.placed dir).WellFormed where
  distinct := by
    have hkeys : (project.placed dir).files.map (·.1) =
        (project.files.map (·.1)).map (dir ++ ·) := by
      simp [FileTree.placed, Function.comp_def]
    rw [hkeys]
    exact hproject.distinct.map (List.append_right_injective dir)
  named := by
    intro file hfile name hname
    obtain ⟨⟨key, bytes⟩, hmem, rfl⟩ := List.mem_map.1 hfile
    rcases List.mem_append.1 hname with hname | hname
    · exact hdir name hname
    · exact hproject.named _ hmem name hname
  separate := by
    intro file hfile
    obtain ⟨⟨key, bytes⟩, hmem, rfl⟩ := List.mem_map.1 hfile
    rw [isDir_placed]
    exact hproject.separate _ hmem

end FileTree

/-- A project in a directory, with nothing around it. -/
def Checkout.ofProject (project : FileTree) (hproject : project.WellFormed) (dir : Key)
    (hdir : ∀ name ∈ dir, Path.isName name = true) : Checkout where
  tree := project.placed dir
  base := Path.below "/" dir
  dir
  wellFormed := hproject.placed hdir
  absolute := by
    cases dir with
    | nil => rfl
    | cons name rest =>
      rw [Path.below_of_ne_nil (by simp), Path.join, Path.isAbsolute_joinPieces hdir]
      rfl
  resolve := by
    have hroot : (project.placed dir).resolve "/" = .ok [] := by
      simp [FileTree.resolve, Text.splitAt, Text.pieces, follow, has, FileTree.isDir, Path.isFiller]
    exact resolve_below hdir hroot (by rw [List.nil_append, has, isDir_placed_self, Bool.or_true])
  isDir := isDir_placed_self

/-! ## Runs -/

namespace FileTree.Relocated

variable {t u : FileTree} {dir dir' : Key}

/-- **Two runs that treat files alike**, each in its own place, leave the same behind there. They
return the same, or both fail. -/
theorem visit {ι σ : Type} {p p' : ι → Path} {treat treat' : Treatment σ} {files : List ι}
    (h : Relocated t dir u dir')
    (hplaces : ∀ i ∈ files, ∃ place, t.resolve (p i) = .ok (dir ++ place) ∧
      u.resolve (p' i) = .ok (dir' ++ place) ∧ (t.file? (dir ++ place)).isSome = true)
    (htreat : ∀ i ∈ files, treat' (p' i) = treat (p i)) (s : σ) :
    Relocated (FileTree.visit treat (files.map p) t s).1 dir
        (FileTree.visit treat' (files.map p') u s).1 dir' ∧
      (FileTree.visit treat' (files.map p') u s).2.toOption =
        (FileTree.visit treat (files.map p) t s).2.toOption := by
  induction files generalizing t u s with
  | nil => exact ⟨h, rfl⟩
  | cons i rest ih =>
    obtain ⟨place, hp, hp', hfile⟩ := hplaces i (by simp)
    have hread : u.readText (p' i) = t.readText (p i) := by
      rw [readText_of_resolve hp, readText_of_resolve hp', h.file]
    rw [List.map_cons, List.map_cons, FileTree.visit, FileTree.visit, hread, htreat i (by simp)]
    cases t.readText (p i) with
    | error cause => exact ⟨h, rfl⟩
    | ok text =>
      dsimp only
      cases treat (p i) text s with
      | error e => exact ⟨h, rfl⟩
      | ok result =>
        obtain ⟨written, s'⟩ := result
        dsimp only
        obtain ⟨hsame, hshape, hshape'⟩ := h.overwrite hp hp' hfile written
        refine ih hsame (fun j hj => ?_) (fun j hj => htreat j (by simp [hj])) s'
        obtain ⟨other, hq, hq', hother⟩ := hplaces j (by simp [hj])
        exact ⟨other, (hshape.resolve _).trans hq, (hshape'.resolve _).trans hq',
          by rw [hshape.samePaths.file?_isSome, hother]⟩

end FileTree.Relocated

end ContractLint
