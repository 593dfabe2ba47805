import ContractLint.Proofs.FileTree.Found
import ContractLint.Proofs.Path.Order

/-!
# Which files a search finds

A search below a directory lists the files whose names fit a pattern. Which files these are is a
matter of the tree: of what lies below the place that the path of the directory leads to, however
that path is written, and of the names that the files have there.

## The architecture

* **`exists_last_piece`** — a way that ends at a file ends with the file's name. Pieces that count
  for nothing and steps up end at directories.
* **`getLast?_of_resolve`** — so the file name of a path to a file is the name of that file.
* **`FileBelow`** — a file at any depth below a directory, with the path that it is listed under.
* **`search_exact`** — a search finds exactly these, once each and in order.
-/

namespace ContractLint

namespace Path

theorem fileName_of_last_piece {p : Path} (hp : p.text ≠ []) {init : List Text} {name : Text}
    (h : Text.splitAt '/' p.text = init ++ [name]) (hfiller : isFiller name = false)
    (hdots : name ≠ ['.', '.']) : p.fileName = name := by
  have hpiece : Component.ofPiece name = .normal name := if_neg hdots
  suffices hlast : p.components.getLast? = some (.normal name) by rw [fileName, hlast]
  cases init with
  | nil =>
    rw [isFiller, Bool.or_eq_false_iff, beq_eq_false_iff_ne] at hfiller
    rw [components_eq hp h, firstComponent, hfiller.1, if_neg Bool.false_ne_true,
      if_neg hfiller.2, hpiece]
    rfl
  | cons first rest =>
    rw [List.cons_append] at h
    rw [components_eq hp h, List.filter_append, List.map_append]
    simp [hfiller, hpiece, List.getLast?_cons]

end Path

namespace FileTree

variable {t : FileTree}

theorem isDir_dropLast {key : Key} (h : t.isDir key = true) : t.isDir key.dropLast = true := by
  rcases List.eq_nil_or_concat' key with rfl | ⟨init, name, rfl⟩
  · exact h
  · rw [List.dropLast_concat]
    have hhas : t.has (init ++ [name]) = true := by rw [has, h, Bool.or_true]
    exact isDir_of_has hhas

/-- **A way to what is no directory ends with a name**, unless it is no way at all. -/
theorem exists_last_piece {pieces : List Text} {start key : Key}
    (h : t.follow pieces start = .ok key) (hkey : t.isDir key = false) :
    pieces = [] ∧ key = start ∨
      ∃ init name, pieces = init ++ [name] ∧ Path.isFiller name = false ∧ name ≠ ['.', '.'] ∧
        key.getLast? = some name := by
  induction pieces generalizing start with
  | nil =>
    rw [follow] at h
    split at h
    · exact .inl ⟨rfl, (Except.ok.inj h).symm⟩
    · cases h
  | cons piece rest ih =>
    right
    rw [follow] at h
    split at h
    · cases h
    · next hdir =>
      have hdir : t.isDir start = true := by simpa using hdir
      -- what remains of the way is empty only if this piece led to the end
      have hnext {next : Key} (hfollow : t.follow rest next = .ok key)
          (hend : key = next → Path.isFiller piece = false ∧ piece ≠ ['.', '.'] ∧
            key.getLast? = some piece) :
          ∃ init name, piece :: rest = init ++ [name] ∧ Path.isFiller name = false ∧
            name ≠ ['.', '.'] ∧ key.getLast? = some name := by
        rcases ih hfollow with ⟨rfl, hsame⟩ | ⟨init, name, rfl, hname⟩
        · exact ⟨[], piece, rfl, hend hsame⟩
        · exact ⟨piece :: init, name, rfl, hname⟩
      split at h
      · refine hnext h fun hsame => ?_
        rw [hsame, hdir] at hkey
        cases hkey
      · next hfiller =>
        split at h
        · refine hnext h fun hsame => ?_
          rw [hsame, isDir_dropLast hdir] at hkey
          cases hkey
        · next hup =>
          refine hnext h fun hsame => ⟨by simpa using hfiller, hup, ?_⟩
          rw [hsame, List.getLast?_concat]

/-- The file name of a path to a file is the name of the file. -/
theorem WellFormed.getLast?_of_resolve (ht : t.WellFormed) {p : Path} {key : Key}
    (h : t.resolve p = .ok key) (hfile : (t.file? key).isSome = true) :
    key.getLast? = some p.fileName := by
  obtain ⟨hne, hfollow⟩ := resolve_eq_ok_iff.1 h
  rcases exists_last_piece hfollow (ht.isDir_eq_false hfile) with
    ⟨hnil, -⟩ | ⟨init, name, hlast, hname⟩
  · exact absurd hnil (Text.splitAt_ne_nil '/' p.text)
  · rw [Path.fileName_of_last_piece hne hlast hname.1 hname.2.1]
    exact hname.2.2

/-- A file called `name` that a directory holds, at any depth, or that the path of the directory leads
to itself. It is listed under `p`. -/
def FileBelow (t : FileTree) (dir p : Path) (name : Text) : Prop :=
  ∃ key names, t.resolve dir = .ok key ∧ (t.file? (key ++ names)).isSome = true ∧
    (key ++ names).getLast? = some name ∧ p = dir.below names

theorem exists_discover {pattern : Text} {pieces : List Glob.Piece}
    (h : Glob.ofText pattern = .ok pieces) (t : FileTree) (dir : Path) (respectGitignore : Bool) :
    ∃ files, discover t dir pattern respectGitignore = .ok files := by
  rw [discover, h]
  cases hdir : t.resolve dir with
  | error e => exact ⟨_, rfl⟩
  | ok key => exact ⟨_, rfl⟩

/-- What a search finds, by the names that the files have in the tree. -/
theorem WellFormed.found_iff_fits (ht : t.WellFormed) {dir : Path} {pattern : Text}
    {pieces : List Glob.Piece} (hpattern : Glob.ofText pattern = .ok pieces) (names : Key) :
    t.Found dir pattern false names ↔
      ∃ key name, t.resolve dir = .ok key ∧ (t.file? (key ++ names)).isSome = true ∧
        (key ++ names).getLast? = some name ∧ Glob.fits pieces name = true := by
  have hlast {key : Key} (hdir : t.resolve dir = .ok key)
      (hfile : (t.file? (key ++ names)).isSome = true) :
      (key ++ names).getLast? = some (dir.below names).fileName :=
    ht.getLast?_of_resolve (ht.keyOf_below hdir hfile).1 hfile
  constructor
  · rintro ⟨pieces', key, hpieces, hdir, hfile, hfits, -⟩
    obtain rfl := Except.ok.inj (hpattern.symm.trans hpieces)
    exact ⟨key, _, hdir, hfile, hlast hdir hfile, hfits⟩
  · rintro ⟨key, name, hdir, hfile, hname, hfits⟩
    obtain rfl : (dir.below names).fileName = name :=
      Option.some.inj ((hlast hdir hfile).symm.trans hname)
    exact ⟨pieces, key, hpattern, hdir, hfile, hfits, nofun⟩

/-- **A search finds the files that fit, once each and in order**, if it goes by no ignore files of a
repository. Let the tree be one that a file system can hold, and let the pattern be well-formed. Then
there is an answer, and:

* it lists exactly the files at any depth below the directory whose names fit, hidden or not, and the
  path itself if that leads to a file;
* each path that it lists leads to a file, and no two of them lead to the same;
* every path in it stands before all that follow, by the bytes of the components;
* it is empty if the path leads nowhere. -/
theorem search_exact (ht : t.WellFormed) {pattern : Text} {pieces : List Glob.Piece}
    (hpattern : Glob.ofText pattern = .ok pieces) (dir : Path) :
    ∃ files, discover t dir pattern false = .ok files ∧
      (∀ p, p ∈ files ↔ ∃ name, t.FileBelow dir p name ∧ Glob.fits pieces name = true) ∧
      ((∀ p ∈ files, ∃ bytes, t.FileAt p bytes) ∧ (files.map keyOf).Nodup) ∧
      files.Pairwise Path.Before ∧
      (t.pathExists dir = false → files = []) := by
  obtain ⟨files, hfiles⟩ := exists_discover hpattern t dir false
  obtain ⟨found, hpaths, -, hfound⟩ := ht.exists_found hfiles
  have hmem (p : Path) :
      p ∈ files ↔ ∃ name, t.FileBelow dir p name ∧ Glob.fits pieces name = true := by
    rw [hpaths, List.mem_map]
    constructor
    · rintro ⟨names, hnames, rfl⟩
      obtain ⟨key, name, hdir, hfile, hname, hfits⟩ :=
        (ht.found_iff_fits hpattern names).1 ((hfound names).1 hnames)
      exact ⟨name, ⟨key, names, hdir, hfile, hname, rfl⟩, hfits⟩
    · rintro ⟨name, ⟨key, names, hdir, hfile, hname, rfl⟩, hfits⟩
      refine ⟨names, (hfound names).2 ?_, rfl⟩
      exact (ht.found_iff_fits hpattern names).2 ⟨key, name, hdir, hfile, hname, hfits⟩
  refine ⟨files, hfiles, hmem, ⟨ht.fileAt_of_discover hfiles, ht.nodup_keyOf_of_discover hfiles⟩,
    (ht.pairwise_of_discover hfiles).imp Path.before_iff.2, fun hmissing => ?_⟩
  refine List.eq_nil_iff_forall_not_mem.2 fun p hp => ?_
  obtain ⟨name, ⟨key, names, hdir, -⟩, -⟩ := (hmem p).1 hp
  rw [pathExists, hdir] at hmissing
  cases hmissing

/-- Contracts in a directory, in one beside it whose name goes on, and in a hidden one. -/
def siblings : FileTree where
  files := [
    (["p".toList, "a-b.sol".toList], encode ""),
    (["p".toList, "notes.md".toList], encode ""),
    (["p".toList, "a".toList, "b.sol".toList], encode ""),
    (["p".toList, ".old".toList, ".c.sol".toList], encode "")]

/-- All three contracts are found. The one in the directory comes before its sibling, although its
text comes behind it. -/
theorem search_exact_siblings :
    ∃ files, discover siblings "/p" "*.sol" false = .ok files ∧
      files = ["/p/.old/.c.sol", "/p/a/b.sol", "/p/a-b.sol"] ∧ files.Pairwise Path.Before ∧
        ("/p/a-b.sol".toList < "/p/a/b.sol".toList) := by
  have hpattern : Glob.ofText "*.sol" = .ok (.anyRun :: ".sol".toList.map .char) := by
    decide +kernel
  have hwellFormed : siblings.WellFormed := by decide +kernel
  obtain ⟨files, hfiles, -, -, horder, -⟩ := search_exact hwellFormed hpattern "/p"
  have hlist : discover siblings "/p" "*.sol" false =
      .ok ["/p/.old/.c.sol", "/p/a/b.sol", "/p/a-b.sol"] := by decide +kernel
  exact ⟨files, hfiles, Except.ok.inj (hfiles.symm.trans hlist), horder, by decide⟩

end FileTree

end ContractLint
