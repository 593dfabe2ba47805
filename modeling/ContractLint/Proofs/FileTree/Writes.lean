import ContractLint.Discovery
import Mathlib.Tactic.Common

/-!
# Writing over files

A run only writes files that it has read, so the tree keeps its names and only contents change. What
goes by names alone (which paths exist and where they lead, which files a directory holds) is then
the same before and after.

## The architecture

* **`SamePaths`, `SameShape`** — two trees with the same files and directories, and two that list
  them alike. Everything that does not look into files is equal on them, up to finding files
  (`discover_eq`); ignore files are the one place where finding files looks into some.
* **`keyOf_eq_of_resolve`** — a path that leads somewhere leads where its text says, so the file
  that is written is the one that was read.
* **`readText_writeText_self`, `readText_writeText_of_ne`** — reading after writing, at the same
  place and elsewhere.
-/

namespace ContractLint

namespace FileTree

/-! ## Trees with the same paths -/

/-- Two trees in which the same files and directories exist, whatever the files hold. -/
structure SamePaths (t u : FileTree) : Prop where
  file?_isSome : ∀ key, (u.file? key).isSome = (t.file? key).isSome
  isDir : ∀ key, u.isDir key = t.isDir key

namespace SamePaths

variable {t u : FileTree} (h : SamePaths t u)
include h

theorem has (key : Key) : u.has key = t.has key := by
  rw [FileTree.has, FileTree.has, h.file?_isSome, h.isDir]

theorem follow (pieces : List Text) (key : Key) : u.follow pieces key = t.follow pieces key := by
  induction pieces generalizing key with
  | nil => rw [FileTree.follow, FileTree.follow, h.has]
  | cons piece pieces ih =>
    simp only [FileTree.follow, h.isDir, h.file?_isSome, ih]

theorem resolve (p : Path) : u.resolve p = t.resolve p := by
  rw [FileTree.resolve, FileTree.resolve, h.follow]

end SamePaths

/-! ## Trees with the same names -/

/-- Two trees with the same directories and the same files, whatever these hold. -/
structure SameShape (t u : FileTree) : Prop where
  dirs : u.dirs = t.dirs
  names : u.files.map (·.1) = t.files.map (·.1)

theorem SameShape.refl (t : FileTree) : SameShape t t := ⟨rfl, rfl⟩

theorem SameShape.trans {t u v : FileTree} (h : SameShape t u) (h' : SameShape u v) :
    SameShape t v :=
  ⟨h'.dirs.trans h.dirs, h'.names.trans h.names⟩

theorem file?_isSome_eq (t : FileTree) (key : Key) :
    (t.file? key).isSome = (t.files.map (·.1)).contains key := by
  unfold file?
  induction t.files with
  | nil => rfl
  | cons file files ih =>
    obtain ⟨k, bytes⟩ := file
    rw [List.lookup_cons, List.map_cons, List.contains_cons, ← ih]
    cases key == k <;> rfl

theorem isDir_eq_any_names (t : FileTree) (key : Key) :
    t.isDir key = (key.isEmpty || t.dirs.any key.isPrefixOf ||
      (t.files.map (·.1)).any fun file => key.isPrefixOf file && key.length < file.length) := by
  rw [isDir, List.any_map]
  rfl

namespace SameShape

variable {t u : FileTree} (h : SameShape t u)
include h

theorem samePaths : SamePaths t u where
  file?_isSome key := by rw [file?_isSome_eq, file?_isSome_eq, h.names]
  isDir key := by rw [isDir_eq_any_names, isDir_eq_any_names, h.dirs, h.names]

theorem resolve (p : Path) : u.resolve p = t.resolve p := h.samePaths.resolve p

theorem filesBelow (dir : Key) : u.filesBelow dir = t.filesBelow dir := by
  rw [FileTree.filesBelow, FileTree.filesBelow, h.names]

end SameShape

/-! ## Where a path leads -/

theorem resolve_eq_follow {t : FileTree} {p : Path} (h : p.text ≠ []) :
    t.resolve p = t.follow (Text.splitAt '/' p.text) [] := by
  rw [resolve, if_neg (by simpa using h)]

theorem resolve_eq_ok_iff {t : FileTree} {p : Path} {key : Key} :
    t.resolve p = .ok key ↔ p.text ≠ [] ∧ t.follow (Text.splitAt '/' p.text) [] = .ok key := by
  by_cases h : p.text = []
  · simp [resolve, h]
  · simp [resolve_eq_follow h, h]

/-- **A path that leads somewhere leads where its text says.** -/
theorem keyOf_eq_of_resolve {t : FileTree} {p : Path} {key : Key} (h : t.resolve p = .ok key) :
    keyOf p = key := by
  -- following a path takes the steps that reading it takes, as long as it does not fail
  have hfollow (pieces : List Text) (start : Key) (h : t.follow pieces start = .ok key) :
      pieces.foldl (fun key piece =>
        if Path.isFiller piece then key
        else if piece = ['.', '.'] then key.dropLast
        else key ++ [piece]) start = key := by
    induction pieces generalizing start with
    | nil =>
      rw [follow] at h
      split at h
      · cases h
        rfl
      · cases h
    | cons piece pieces ih =>
      rw [follow] at h
      split at h
      · cases h
      · rw [List.foldl_cons]
        split at h
        · next hfiller => rw [if_pos hfiller]; exact ih start h
        · next hfiller =>
          rw [if_neg hfiller]
          split at h
          · next hup => rw [if_pos hup]; exact ih _ h
          · next hup => rw [if_neg hup]; exact ih _ h
  exact hfollow _ _ (resolve_eq_ok_iff.1 h).2

/-- Unfolding equation for a path that leads somewhere. -/
theorem readText_of_resolve {t : FileTree} {p : Path} {key : Key} (h : t.resolve p = .ok key) :
    t.readText p =
      match t.file? key with
      | none => .error .isDirectory
      | some bytes =>
        match decode? bytes with
        | some text => .ok text
        | none => .error .notText := by
  rw [readText, h]
  rfl

/-- What it takes to read a text. -/
theorem readText_eq_ok_iff {t : FileTree} {p : Path} {text : Text} :
    t.readText p = .ok text ↔
      ∃ bytes, t.resolve p = .ok (keyOf p) ∧ t.file? (keyOf p) = some bytes ∧
        decode? bytes = some text := by
  constructor
  · intro h
    cases hkey : t.resolve p with
    | error e =>
      rw [readText, hkey] at h
      cases h
    | ok key =>
      obtain rfl := keyOf_eq_of_resolve hkey
      rw [readText_of_resolve hkey] at h
      split at h
      · cases h
      · next bytes hfile =>
        split at h
        · next hdecode =>
          cases h
          exact ⟨bytes, rfl, hfile, hdecode⟩
        · cases h
  · rintro ⟨bytes, hkey, hfile, hdecode⟩
    rw [readText_of_resolve hkey, hfile]
    simp only [hdecode]

theorem file?_isSome_of_readText {t : FileTree} {p : Path} {text : Text}
    (h : t.readText p = .ok text) : (t.file? (keyOf p)).isSome = true := by
  obtain ⟨bytes, -, hfile, -⟩ := readText_eq_ok_iff.1 h
  rw [hfile]
  rfl

/-- Two paths to one file read the same text. -/
theorem readText_unique {t : FileTree} {p q : Path} {text other : Text}
    (hp : t.readText p = .ok text) (hq : t.readText q = .ok other) (hkey : keyOf q = keyOf p) :
    other = text := by
  obtain ⟨bytes, -, hfile, hdecode⟩ := readText_eq_ok_iff.1 hp
  obtain ⟨bytes', -, hfile', hdecode'⟩ := readText_eq_ok_iff.1 hq
  rw [hkey, hfile] at hfile'
  cases hfile'
  rw [hdecode] at hdecode'
  exact (Option.some.inj hdecode').symm

/-! ## Writing -/

variable {t : FileTree} {key : Key}

/-- Writing over a file changes no name. -/
theorem sameShape_write (h : (t.file? key).isSome = true) (bytes : ByteArray) :
    SameShape t (t.write key bytes) := by
  refine ⟨rfl, ?_⟩
  rw [write, if_pos h, List.map_map]
  refine List.map_congr_left fun file _ => ?_
  simp only [Function.comp_apply]
  split <;> rfl

theorem lookup_map_write (files : List (Key × ByteArray)) (key k : Key) (bytes : ByteArray) :
    (files.map fun (k, old) => if k = key then (k, bytes) else (k, old)).lookup k =
      if k = key then (files.lookup k).map fun _ => bytes else files.lookup k := by
  induction files with
  | nil => simp
  | cons file files ih =>
    obtain ⟨j, old⟩ := file
    have hname : (if j = key then (j, bytes) else (j, old)) =
        (j, if j = key then bytes else old) := by
      split <;> rfl
    rw [List.map_cons]
    dsimp only
    rw [hname, List.lookup_cons, List.lookup_cons]
    cases hk : k == j with
    | true =>
      obtain rfl : k = j := eq_of_beq hk
      by_cases hkey : k = key <;> simp [hkey]
    | false => exact ih

/-- What a file holds after a file was written over. -/
theorem file?_write (h : (t.file? key).isSome = true) (bytes : ByteArray) (k : Key) :
    (t.write key bytes).file? k = if k = key then some bytes else t.file? k := by
  rw [write, if_pos h, file?, lookup_map_write]
  by_cases hk : k = key
  · subst hk
    obtain ⟨old, hold⟩ := Option.isSome_iff_exists.1 h
    have hlookup : t.files.lookup k = some old := hold
    simp [hlookup]
  · rw [if_neg hk, if_neg hk]
    rfl

/-- Reading at the place that was written. -/
theorem readText_writeText_self {p q : Path} {old other : Text} (hp : t.readText p = .ok old)
    (hq : t.readText q = .ok other) (hkey : keyOf q = keyOf p) (text : Text) :
    (t.writeText p text).readText q = .ok text := by
  have hsome := file?_isSome_of_readText hp
  obtain ⟨-, hresolve, -, -⟩ := readText_eq_ok_iff.1 hq
  refine readText_eq_ok_iff.2 ⟨encode text, ?_, ?_, decode_encode text⟩
  · rw [writeText, (sameShape_write hsome _).resolve, hresolve]
  · rw [writeText, file?_write hsome, if_pos hkey]

/-- Reading at another place than the one that was written. -/
theorem readText_writeText_of_ne {p q : Path} {old : Text} (hp : t.readText p = .ok old)
    (hkey : keyOf q ≠ keyOf p) (text : Text) :
    (t.writeText p text).readText q = t.readText q := by
  have hsome := file?_isSome_of_readText hp
  have hshape := sameShape_write hsome (encode text)
  cases hresolve : t.resolve q with
  | error e =>
    rw [readText, readText, writeText, hshape.resolve, hresolve]
    rfl
  | ok key =>
    -- the path leads to the key that its text says, which is not the one written to
    obtain rfl := keyOf_eq_of_resolve hresolve
    rw [readText_of_resolve hresolve, writeText,
      readText_of_resolve ((hshape.resolve q).trans hresolve), file?_write hsome, if_neg hkey]

/-- A text that is read after a write is the one that was written, or was there before. -/
theorem readText_writeText_cases {p q : Path} {old text other : Text} (hp : t.readText p = .ok old)
    (h : (t.writeText p text).readText q = .ok other) :
    other = text ∨ t.readText q = .ok other := by
  by_cases hkey : keyOf q = keyOf p
  · obtain ⟨bytes, -, hfile, hdecode⟩ := readText_eq_ok_iff.1 h
    rw [writeText, file?_write (file?_isSome_of_readText hp), if_pos hkey] at hfile
    cases hfile
    rw [decode_encode] at hdecode
    exact .inl (Option.some.inj hdecode).symm
  · rw [readText_writeText_of_ne hp hkey] at h
    exact .inr h

theorem sameShape_writeText {p : Path} {old : Text} (hp : t.readText p = .ok old) (text : Text) :
    SameShape t (t.writeText p text) :=
  sameShape_write (file?_isSome_of_readText hp) _

theorem file?_writeText_of_ne {p : Path} {old : Text} (hp : t.readText p = .ok old) {k : Key}
    (hk : k ≠ keyOf p) (text : Text) : (t.writeText p text).file? k = t.file? k := by
  rw [writeText, file?_write (file?_isSome_of_readText hp), if_neg hk]

/-- The tree after a file was written over, or not. -/
def overwrite (t : FileTree) (p : Path) (written : Option Text) : FileTree :=
  (written.map (t.writeText p)).getD t

end FileTree

/-! ## Finding files -/

namespace Gitignore

/-- Two trees whose ignore files hold the same. -/
def SameEntries (t u : FileTree) : Prop :=
  ∀ dir : Key, u.file? (dir ++ [".gitignore".toList]) = t.file? (dir ++ [".gitignore".toList])

variable {t u : FileTree} (h : t.SameShape u) (hsame : SameEntries t u)
include h hsame

theorem decisionAbove?_eq (isDir : Bool) (dirReversed below : Key) :
    decisionAbove? u isDir dirReversed below = decisionAbove? t isDir dirReversed below := by
  -- the only files that are opened on the way up are ignore files
  have hentries (dir : Key) : entriesIn u dir = entriesIn t dir := by
    rw [entriesIn, entriesIn, hsame]
  induction dirReversed generalizing below with
  | nil => rw [decisionAbove?, decisionAbove?, hentries]
  | cons name up ih => rw [decisionAbove?, decisionAbove?, hentries, isTop, isTop, h.samePaths.has, ih]

theorem ignoresEntry_eq (isDir : Bool) (dir : Key) (name : Text) :
    ignoresEntry u isDir dir name = ignoresEntry t isDir dir name := by
  have hinside (dirReversed : Key) : inRepository u dirReversed = inRepository t dirReversed := by
    induction dirReversed with
    | nil => simp only [inRepository, isTop, h.samePaths.has]
    | cons name up ih => simp only [inRepository, isTop, h.samePaths.has, ih]
  rw [ignoresEntry, ignoresEntry, hinside, decisionAbove?_eq h hsame]

theorem ignores_eq (dir below : Key) : ignores u dir below = ignores t dir below := by
  induction below generalizing dir with
  | nil => rfl
  | cons name rest ih =>
    cases rest with
    | nil => exact ignoresEntry_eq h hsame false dir name
    | cons next rest => simp only [ignores, ignoresEntry_eq h hsame, ih]

end Gitignore

/-- **The same files are found** in trees of one shape, if the ignore files agree where they are
asked. -/
theorem discover_eq {t u : FileTree} (h : t.SameShape u) {respectGitignore : Bool}
    (hsame : respectGitignore = true → Gitignore.SameEntries t u) (dir : Path) (pattern : Text) :
    discover u dir pattern respectGitignore = discover t dir pattern respectGitignore := by
  have hfilter (key : Key) :
      (if respectGitignore then (t.filesBelow key).filter (!Gitignore.ignores u key ·)
        else t.filesBelow key) =
      if respectGitignore then (t.filesBelow key).filter (!Gitignore.ignores t key ·)
        else t.filesBelow key := by
    cases respectGitignore with
    | false => rfl
    | true =>
      have hignores (below : Key) : Gitignore.ignores u key below = Gitignore.ignores t key below :=
        Gitignore.ignores_eq h (hsame rfl) key below
      simp only [hignores]
  simp only [discover, h.resolve, h.samePaths.file?_isSome, h.filesBelow, hfilter]

end ContractLint
