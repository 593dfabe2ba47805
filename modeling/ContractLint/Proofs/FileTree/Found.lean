import ContractLint.Proofs.FileTree.Writes
import ContractLint.Proofs.Path.Below
import Mathlib.Data.List.Nodup

/-!
# The files that are found

A search below a directory finds files by the names that lead to them from there. In a tree that a
file system can hold, each of them is found once, under a path that leads to it, and the paths are
in order.

## The architecture

* **`WellFormed`** — a tree whose files have names, each one its own, and are no directories.
* **`resolve_below`** — the path of a file below a directory leads to it.
* **`Found`** — what a search finds, said of the names of one file. The files that are found are
  exactly these, in the order of their names (`exists_found`), and there is only one such list
  (`eq_of_pairwise_namesLt`).
* **`FileAt`** — a path that leads to a file, with the bytes there. All files that are found have
  such paths, each to a file of its own (`nodup_keyOf_of_discover`).
-/

namespace ContractLint

/-! ## Names in order -/

/-- Whether a list of names stands before another one in the order of paths. -/
def namesLt (m n : List Text) : Prop :=
  Component.listLe (m.map .normal) (n.map .normal) = true ∧ m ≠ n

theorem namesLt_asymm {m n : List Text} (h : namesLt m n) :
    Component.listLe (n.map .normal) (m.map .normal) = false := by
  cases hback : Component.listLe (n.map .normal) (m.map .normal) with
  | false => rfl
  | true =>
    have hmap := Component.listLe_antisymm h.1 hback
    exact absurd (List.map_injective_iff.2 (fun _ _ => Component.normal.inj) hmap) h.2

/-- **Lists in order are determined by their members.** -/
theorem eq_of_pairwise_namesLt {l l' : List (List Text)} (hl : l.Pairwise namesLt)
    (hl' : l'.Pairwise namesLt) (h : ∀ names, names ∈ l ↔ names ∈ l') : l = l' := by
  have hperm : l.Perm l' :=
    (List.perm_ext_iff_of_nodup (hl.imp fun h => h.2) (hl'.imp fun h => h.2)).2 h
  refine hperm.eq_of_pairwise (fun m n _ _ hmn hnm => ?_) hl hl'
  have hfalse := namesLt_asymm hmn
  rw [hnm.1] at hfalse
  cases hfalse

/-- Sorting paths below a directory sorts their names. -/
theorem pairwise_sortBy_below {l : List (List Text)}
    (hnames : ∀ names ∈ l, ∀ name ∈ names, Path.isName name = true) (hl : l.Nodup) (dir : Path) :
    (sortBy (fun m n => (dir.below m).le (dir.below n)) l).Pairwise namesLt := by
  set le : List Text → List Text → Bool := fun m n => (dir.below m).le (dir.below n)
  have htotal (m n : List Text) : le m n = true ∨ le n m = true := Component.listLe_total _ _
  have htrans (k m n : List Text) : le k m = true → le m n = true → le k n = true :=
    Component.listLe_trans
  have hsorted := pairwise_sortBy htotal htrans l
  have hperm := sortBy_perm le l
  refine (hsorted.and (hperm.nodup_iff.2 hl)).imp_of_mem fun hm hn hle => ⟨?_, hle.2⟩
  rw [← Path.le_below (hnames _ (hperm.mem_iff.1 hm)) (hnames _ (hperm.mem_iff.1 hn)) dir]
  exact hle.1

/-- Paths below a directory are in order if their names are. -/
theorem pairwise_below {l : List (List Text)}
    (hnames : ∀ names ∈ l, ∀ name ∈ names, Path.isName name = true) (hl : l.Pairwise namesLt)
    (dir : Path) :
    (l.map dir.below).Pairwise fun p q => p.le q = true ∧ q.le p = false := by
  rw [List.pairwise_map]
  refine hl.imp_of_mem fun {m n} hm hn hlt => ?_
  rw [Path.le_below (hnames m hm) (hnames n hn), Path.le_below (hnames n hn) (hnames m hm)]
  exact ⟨hlt.1, namesLt_asymm hlt⟩

namespace FileTree

/-! ## Trees -/

/-- A tree that a file system can hold: no two files in one place, each under names, and no file
that is a directory. -/
structure WellFormed (t : FileTree) : Prop where
  distinct : (t.files.map (·.1)).Nodup
  named : ∀ file ∈ t.files, ∀ name ∈ file.1, Path.isName name = true
  separate : ∀ file ∈ t.files, t.isDir file.1 = false

instance (t : FileTree) : Decidable t.WellFormed :=
  decidable_of_iff
    ((t.files.map (·.1)).Nodup ∧ (∀ file ∈ t.files, ∀ name ∈ file.1, Path.isName name = true) ∧
      ∀ file ∈ t.files, t.isDir file.1 = false)
    ⟨fun h => ⟨h.1, h.2.1, h.2.2⟩, fun h => ⟨h.distinct, h.named, h.separate⟩⟩

theorem exists_mem_files {t : FileTree} {key : Key} (h : (t.file? key).isSome = true) :
    ∃ file ∈ t.files, file.1 = key := by
  rw [file?_isSome_eq, List.contains_iff_mem] at h
  exact List.mem_map.1 h

/-- Whatever lies below a place makes it a directory. -/
theorem isDir_of_has {t : FileTree} {key : Key} {name : Text} {rest : List Text}
    (h : t.has (key ++ name :: rest) = true) : t.isDir key = true := by
  rw [has, Bool.or_eq_true] at h
  simp only [isDir, Bool.or_eq_true, List.any_eq_true, Bool.and_eq_true, List.isPrefixOf_iff_prefix,
    decide_eq_true_eq] at h ⊢
  have hkey : key <+: key ++ name :: rest := List.prefix_append key _
  rcases h with hfile | (hempty | ⟨dir, hmem, hstarts⟩) | ⟨file, hmem, hstarts, hlength⟩
  · obtain ⟨file, hmem, hfile⟩ := exists_mem_files hfile
    exact .inr ⟨file, hmem, by rw [hfile]; exact hkey, by simp [hfile]⟩
  · simp at hempty
  · exact .inl (.inr ⟨dir, hmem, hkey.trans hstarts⟩)
  · refine .inr ⟨file, hmem, hkey.trans hstarts, ?_⟩
    rw [List.length_append] at hlength
    omega

theorem has_of_file? {t : FileTree} {key : Key} (h : (t.file? key).isSome = true) :
    t.has key = true := by
  rw [has, h, Bool.true_or]

namespace WellFormed

variable {t : FileTree} (ht : t.WellFormed)
include ht

theorem isName {key : Key} (h : (t.file? key).isSome = true) :
    ∀ name ∈ key, Path.isName name = true := by
  obtain ⟨file, hmem, rfl⟩ := exists_mem_files h
  exact ht.named file hmem

theorem isDir_eq_false {key : Key} (h : (t.file? key).isSome = true) : t.isDir key = false := by
  obtain ⟨file, hmem, rfl⟩ := exists_mem_files h
  exact ht.separate file hmem

end WellFormed

/-! ## The way to a file -/

variable {t : FileTree}

theorem follow_append {pieces : List Text} {start key : Key}
    (h : t.follow pieces start = .ok key) (more : List Text) :
    t.follow (pieces ++ more) start = t.follow more key := by
  induction pieces generalizing start with
  | nil =>
    rw [follow] at h
    split at h
    · cases h
      rfl
    · cases h
  | cons piece pieces ih =>
    rw [List.cons_append, follow]
    rw [follow] at h
    split at h
    · cases h
    · next hdir =>
      rw [if_neg hdir]
      split at h
      · next hfiller => rw [if_pos hfiller]; exact ih h
      · next hfiller =>
        rw [if_neg hfiller]
        split at h
        · next hup => rw [if_pos hup]; exact ih h
        · next hup => rw [if_neg hup]; exact ih h

/-- An empty piece makes no difference to what follows. -/
theorem follow_append_empty {names : List Text} (hne : names ≠ []) (init : List Text)
    (start : Key) : t.follow (init ++ [] :: names) start = t.follow (init ++ names) start := by
  induction init generalizing start with
  | nil =>
    obtain ⟨name, rest, rfl⟩ := List.exists_cons_of_ne_nil hne
    simp only [List.nil_append]
    -- both pieces ask for a directory, and the empty one asks for nothing else
    rw [follow, follow]
    split
    · rfl
    · rw [if_pos (by rfl)]
  | cons piece init ih => simp only [List.cons_append, follow, ih]

/-- Pieces that count for nothing lead nowhere else. -/
theorem eq_of_follow_fillers {pieces : List Text} {start key : Key}
    (hfillers : ∀ piece ∈ pieces, Path.isFiller piece = true)
    (h : t.follow pieces start = .ok key) : key = start := by
  induction pieces with
  | nil =>
    rw [follow] at h
    split at h
    · exact (Except.ok.inj h).symm
    · cases h
  | cons piece rest ih =>
    rw [follow, if_pos (hfillers piece (by simp))] at h
    split at h
    · cases h
    · exact ih (fun p hp => hfillers p (by simp [hp])) h

/-- Names lead to what is there. -/
theorem follow_names {key : Key} {names : List Text}
    (hnames : ∀ name ∈ names, Path.isName name = true)
    (hhas : t.has (key ++ names) = true) : t.follow names key = .ok (key ++ names) := by
  induction names generalizing key with
  | nil =>
    rw [List.append_nil] at hhas ⊢
    rw [follow, if_pos hhas]
  | cons name rest ih =>
    have hname := hnames name (by simp)
    have hdir := isDir_of_has hhas
    rw [List.append_cons] at hhas ⊢
    rw [follow, hdir, if_neg (by simp), if_neg (by simp [Path.isFiller_of_isName hname]),
      if_neg (Path.ne_dots_of_isName hname)]
    exact ih (fun n hn => hnames n (by simp [hn])) hhas

/-- **A path seen from a directory** goes on from there. -/
theorem resolve_join {dir rel : Path} {key : Key} (hrel : rel.isAbsolute = false)
    (hdir : t.resolve dir = .ok key) :
    t.resolve (dir.join rel) = t.follow (Text.splitAt '/' rel.text) key := by
  obtain ⟨hne, hdir⟩ := resolve_eq_ok_iff.1 hdir
  rw [resolve_eq_follow (Path.join_text_ne_nil hrel hne)]
  obtain ⟨init, hpieces, ⟨hinit, -⟩ | hinit⟩ := Path.splitAt_join hrel dir
  · rw [hpieces, ← hinit]
    exact follow_append hdir _
  · rw [hpieces, ← follow_append_empty (Text.splitAt_ne_nil '/' rel.text)]
    rw [hinit] at hdir
    simpa using follow_append hdir (Text.splitAt '/' rel.text)

/-- **The path of what lies below a directory leads to it.** -/
theorem resolve_below {dir : Path} {key : Key} {names : List Text}
    (hnames : ∀ name ∈ names, Path.isName name = true) (hdir : t.resolve dir = .ok key)
    (hhas : t.has (key ++ names) = true) : t.resolve (dir.below names) = .ok (key ++ names) := by
  by_cases hne : names = []
  · subst hne
    rwa [Path.below_nil, List.append_nil]
  · rw [Path.below_of_ne_nil hne, resolve_join (Path.isAbsolute_joinPieces hnames) hdir,
      Path.splitAt_joinPieces hnames hne, follow_names hnames hhas]

/-! ## Files below a directory -/

theorem mem_filesBelow {dir names : Key} :
    names ∈ t.filesBelow dir ↔ names ≠ [] ∧ (t.file? (dir ++ names)).isSome = true := by
  rw [filesBelow, List.mem_filterMap]
  constructor
  · rintro ⟨file, hmem, hdrop⟩
    obtain ⟨hbelow, hdrop⟩ := Option.ite_none_right_eq_some.1 hdrop
    simp only [Bool.and_eq_true, List.isPrefixOf_iff_prefix, decide_eq_true_eq] at hbelow
    obtain ⟨⟨rest, rfl⟩, hlength⟩ := hbelow
    obtain rfl : rest = names := by simpa using hdrop
    refine ⟨?_, ?_⟩
    · rintro rfl
      simp at hlength
    · rw [file?_isSome_eq]
      exact List.contains_iff_mem.2 hmem
  · rintro ⟨hne, hfile⟩
    rw [file?_isSome_eq] at hfile
    exact ⟨dir ++ names, List.contains_iff_mem.1 hfile, by simp [hne]⟩

theorem WellFormed.nodup_filesBelow (ht : t.WellFormed) (dir : Key) : (t.filesBelow dir).Nodup := by
  refine List.Nodup.filterMap (fun file other names hfile hother => ?_) ht.distinct
  obtain ⟨hbelow, hdrop⟩ := Option.ite_none_right_eq_some.1 hfile
  obtain ⟨hbelow', hdrop'⟩ := Option.ite_none_right_eq_some.1 hother
  simp only [Bool.and_eq_true, List.isPrefixOf_iff_prefix] at hbelow hbelow'
  obtain ⟨⟨rest, rfl⟩, -⟩ := hbelow
  obtain ⟨⟨rest', rfl⟩, -⟩ := hbelow'
  simp only [List.drop_left, Option.some.injEq] at hdrop hdrop'
  rw [hdrop, hdrop']

/-- A file that a search below a directory finds, by the names that lead to it from there: it fits
the pattern and, if they count, no ignore file of a repository leaves it out. -/
def Found (t : FileTree) (dir : Path) (pattern : Text) (respectGitignore : Bool) (names : Key) :
    Prop :=
  ∃ pieces key, Glob.ofText pattern = .ok pieces ∧ t.resolve dir = .ok key ∧
    (t.file? (key ++ names)).isSome = true ∧
      Glob.fits pieces (dir.below names).fileName = true ∧
        (respectGitignore = true → Gitignore.ignores t key names = false)

theorem Found.isName {t : FileTree} {dir : Path} {pattern : Text} {respectGitignore : Bool}
    {names : Key} (ht : t.WellFormed) (h : t.Found dir pattern respectGitignore names) :
    ∀ name ∈ names, Path.isName name = true := by
  obtain ⟨-, key, -, -, hfile, -⟩ := h
  exact fun name hname => ht.isName hfile name (by simp [hname])

/-- The names of the files that a search looks at. -/
def candidates (t : FileTree) (key : Key) (respectGitignore : Bool) : List Key :=
  if (t.file? key).isSome then [[]]
  else if respectGitignore then (t.filesBelow key).filter (!Gitignore.ignores t key ·)
  else t.filesBelow key

theorem WellFormed.mem_candidates (ht : t.WellFormed) {key names : Key} {respectGitignore : Bool} :
    names ∈ t.candidates key respectGitignore ↔ (t.file? (key ++ names)).isSome = true ∧
      (respectGitignore = true → Gitignore.ignores t key names = false) := by
  rw [candidates]
  split
  · next hfile =>
    -- nothing lies below a file
    rw [List.mem_singleton]
    constructor
    · rintro rfl
      exact ⟨by rwa [List.append_nil], fun _ => rfl⟩
    · rintro ⟨hbelow, -⟩
      cases names with
      | nil => rfl
      | cons name rest =>
        have hdir := isDir_of_has (has_of_file? hbelow)
        rw [ht.isDir_eq_false hfile] at hdir
        cases hdir
  · next hfile =>
    have hne (hbelow : (t.file? (key ++ names)).isSome = true) : names ≠ [] := by
      rintro rfl
      rw [List.append_nil] at hbelow
      exact hfile hbelow
    cases respectGitignore with
    | false =>
      rw [if_neg (by simp), mem_filesBelow]
      exact ⟨fun h => ⟨h.2, nofun⟩, fun h => ⟨hne h.1, h.1⟩⟩
    | true =>
      rw [if_pos rfl, List.mem_filter, mem_filesBelow]
      exact ⟨fun h => ⟨h.1.2, fun _ => by simpa using h.2⟩,
        fun h => ⟨⟨hne h.1, h.1⟩, by simpa using h.2 rfl⟩⟩

theorem WellFormed.nodup_candidates (ht : t.WellFormed) (key : Key) (respectGitignore : Bool) :
    (t.candidates key respectGitignore).Nodup := by
  rw [candidates]
  split
  · exact List.nodup_singleton _
  · split
    · exact (ht.nodup_filesBelow key).filter _
    · exact ht.nodup_filesBelow key

/-- Unfolding equation for a search. -/
theorem discover_of_resolve {dir : Path} {pattern : Text} {pieces : List Glob.Piece} {key : Key}
    (hpattern : Glob.ofText pattern = .ok pieces) (hdir : t.resolve dir = .ok key)
    (respectGitignore : Bool) :
    discover t dir pattern respectGitignore =
      .ok (sortBy Path.le (((t.candidates key respectGitignore).map dir.below).filter
        fun p => Glob.fits pieces p.fileName)) := by
  rw [discover, hpattern]
  simp only [bind, Except.bind, hdir]
  rw [candidates]
  split
  · rfl
  · have hjoin (names : Key) (h : names ∈ t.filesBelow key) :
        dir.join ⟨Path.joinPieces names⟩ = dir.below names :=
      (Path.below_of_ne_nil (mem_filesBelow.1 h).1 dir).symm
    split
    · rw [List.map_congr_left fun names h => hjoin names (List.mem_filter.1 h).1]
    · rw [List.map_congr_left hjoin]

/-- **What a search finds**: the files that the pattern and the ignore files leave, in order. -/
theorem WellFormed.exists_found (ht : t.WellFormed) {dir : Path} {pattern : Text}
    {respectGitignore : Bool} {files : List Path}
    (h : discover t dir pattern respectGitignore = .ok files) :
    ∃ found : List Key, files = found.map dir.below ∧ found.Pairwise namesLt ∧
      ∀ names, names ∈ found ↔ t.Found dir pattern respectGitignore names := by
  cases hpattern : Glob.ofText pattern with
  | error e =>
    rw [discover, hpattern] at h
    cases h
  | ok pieces =>
    cases hdir : t.resolve dir with
    | error e =>
      rw [discover, hpattern] at h
      simp only [bind, Except.bind, hdir] at h
      cases h
      refine ⟨[], rfl, .nil, fun names => ?_⟩
      constructor
      · intro hmem
        cases hmem
      · rintro ⟨-, key, -, hkey, -⟩
        rw [hdir] at hkey
        cases hkey
    | ok key =>
      rw [discover_of_resolve hpattern hdir] at h
      cases h
      set fits : Key → Bool := fun names => Glob.fits pieces (dir.below names).fileName
      set kept := (t.candidates key respectGitignore).filter fits with hkept
      have hmem (names : Key) : names ∈ kept ↔ t.Found dir pattern respectGitignore names := by
        rw [hkept, List.mem_filter, ht.mem_candidates]
        constructor
        · rintro ⟨⟨hfile, hignore⟩, hfits⟩
          exact ⟨pieces, key, hpattern, hdir, hfile, hfits, hignore⟩
        · rintro ⟨pieces', key', hpattern', hdir', hfile, hfits, hignore⟩
          obtain rfl := Except.ok.inj (hpattern.symm.trans hpattern')
          obtain rfl := Except.ok.inj (hdir.symm.trans hdir')
          exact ⟨⟨hfile, hignore⟩, hfits⟩
      have hnames (names : Key) (h : names ∈ kept) : ∀ name ∈ names, Path.isName name = true :=
        ((hmem names).1 h).isName ht
      have hnodup : kept.Nodup := (ht.nodup_candidates key respectGitignore).filter fits
      refine ⟨sortBy (fun m n => (dir.below m).le (dir.below n)) kept, ?_,
        pairwise_sortBy_below hnames hnodup dir, fun names => ?_⟩
      · rw [List.filter_map, sortBy_map]
        rfl
      · rw [(sortBy_perm _ kept).mem_iff, hmem]

/-! ## Paths to files -/

/-- A path leads to a file that holds these bytes. -/
structure FileAt (t : FileTree) (p : Path) (bytes : ByteArray) : Prop where
  resolve : t.resolve p = .ok (keyOf p)
  file : t.file? (keyOf p) = some bytes

theorem FileAt.readText_of_decode {p : Path} {bytes : ByteArray} (h : t.FileAt p bytes) {text : Text}
    (hdecode : decode? bytes = some text) : t.readText p = .ok text :=
  readText_eq_ok_iff.2 ⟨bytes, h.resolve, h.file, hdecode⟩

theorem FileAt.readText_of_not_decode {p : Path} {bytes : ByteArray} (h : t.FileAt p bytes)
    (hdecode : decode? bytes = none) : t.readText p = .error .notText := by
  rw [readText_of_resolve h.resolve, h.file]
  simp only [hdecode]

/-- The path of a file that was found, and the place that it leads to. -/
theorem WellFormed.keyOf_below (ht : t.WellFormed) {dir : Path} {key names : Key}
    (hdir : t.resolve dir = .ok key) (hfile : (t.file? (key ++ names)).isSome = true) :
    t.resolve (dir.below names) = .ok (key ++ names) ∧ keyOf (dir.below names) = key ++ names := by
  have hresolve := resolve_below (fun name hname => ht.isName hfile name (by simp [hname])) hdir
    (has_of_file? hfile)
  exact ⟨hresolve, keyOf_eq_of_resolve hresolve⟩

theorem WellFormed.fileAt_of_found (ht : t.WellFormed) {dir : Path} {pattern : Text}
    {respectGitignore : Bool} {names : Key} (h : t.Found dir pattern respectGitignore names) :
    ∃ bytes, t.FileAt (dir.below names) bytes := by
  obtain ⟨pieces, key, -, hdir, hfile, -⟩ := h
  obtain ⟨hresolve, hkey⟩ := ht.keyOf_below hdir hfile
  obtain ⟨bytes, hbytes⟩ := Option.isSome_iff_exists.1 hfile
  exact ⟨bytes, by rw [hresolve, hkey], by rw [hkey, hbytes]⟩

variable {dir : Path} {pattern : Text} {respectGitignore : Bool} {files : List Path}

/-- **Every path that is found leads to a file.** -/
theorem WellFormed.fileAt_of_discover (ht : t.WellFormed)
    (h : discover t dir pattern respectGitignore = .ok files) :
    ∀ p ∈ files, ∃ bytes, t.FileAt p bytes := by
  obtain ⟨found, rfl, -, hfound⟩ := ht.exists_found h
  intro p hp
  obtain ⟨names, hnames, rfl⟩ := List.mem_map.1 hp
  exact ht.fileAt_of_found ((hfound names).1 hnames)

/-- **Every file is found once.** -/
theorem WellFormed.nodup_keyOf_of_discover (ht : t.WellFormed)
    (h : discover t dir pattern respectGitignore = .ok files) : (files.map keyOf).Nodup := by
  obtain ⟨found, rfl, hsorted, hfound⟩ := ht.exists_found h
  rw [List.map_map, List.Nodup, List.pairwise_map]
  refine hsorted.imp_of_mem fun {m n} hm hn hlt hkeys => hlt.2 ?_
  obtain ⟨-, key, -, hdir, hfile, -⟩ := (hfound m).1 hm
  obtain ⟨-, key', -, hdir', hfile', -⟩ := (hfound n).1 hn
  obtain rfl := Except.ok.inj (hdir.symm.trans hdir')
  have hsame : key ++ m = key ++ n := by
    rw [← (ht.keyOf_below hdir hfile).2, ← (ht.keyOf_below hdir hfile').2]
    exact hkeys
  exact List.append_cancel_left hsame

/-- **Files are found in the order of their paths.** -/
theorem WellFormed.pairwise_of_discover (ht : t.WellFormed)
    (h : discover t dir pattern respectGitignore = .ok files) :
    files.Pairwise fun p q => p.le q = true ∧ q.le p = false := by
  obtain ⟨found, rfl, hsorted, hfound⟩ := ht.exists_found h
  exact pairwise_below (fun names hnames => ((hfound names).1 hnames).isName ht) hsorted dir

end FileTree

end ContractLint
