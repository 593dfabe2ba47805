import ContractLint.Proofs.FileTree.Found
import ContractLint.Proofs.Text.Words

/-!
# Paths without line feeds

A path that leads somewhere is made of names of the tree, of dots and of slashes. So if no name in a
tree holds a line feed, then no path to something in it does, and neither does what is shown of such
a path: its file name, and the path as it is seen from a directory.

## The architecture

* **`mem_text_of_mem_fileName`, `mem_text_of_mem_relativeTo`, `mem_text_of_mem_below`** — which
  characters the parts of a path can hold.
* **`FeedFree`** — trees without line feeds in their names. Following a path keeps to what is there
  (`newline_notMem_of_follow`).
* **`newline_notMem_of_discover`** — what is found in such a tree.
-/

namespace ContractLint

/-! ## What paths are made of -/

namespace Path

variable {c : Char} {p : Path}

theorem mem_of_mem_joinPieces {pieces : List Text} (h : c ∈ joinPieces pieces) :
    c = '/' ∨ ∃ piece ∈ pieces, c ∈ piece := by
  induction pieces with
  | nil => cases h
  | cons piece rest ih =>
    cases rest with
    | nil => exact .inr ⟨piece, by simp, by simpa [joinPieces, List.intercalate] using h⟩
    | cons next rest =>
      have hjoin : joinPieces (piece :: next :: rest) = piece ++ '/' :: joinPieces (next :: rest) := by
        simp [joinPieces, List.intercalate]
      rw [hjoin, List.mem_append, List.mem_cons] at h
      rcases h with hpiece | hslash | hrest
      · exact .inr ⟨piece, by simp, hpiece⟩
      · exact .inl hslash
      · rcases ih hrest with hslash | ⟨other, hother, hc⟩
        · exact .inl hslash
        · exact .inr ⟨other, List.mem_cons_of_mem _ hother, hc⟩

theorem mem_text_of_mem_splitAt {piece : Text} (h : piece ∈ Text.splitAt '/' p.text)
    (hc : c ∈ piece) : c ∈ p.text := (Text.mem_of_mem_pieces h hc).1

theorem exists_piece_of_mem_text (hslash : c ≠ '/') (h : c ∈ p.text) :
    ∃ piece ∈ Text.splitAt '/' p.text, c ∈ piece := by
  have htext : joinPieces (Text.splitAt '/' p.text) = p.text := by
    rw [joinPieces, Text.splitAt_eq_splitOn]
    exact List.intercalate_splitOn '/'
  rw [← htext] at h
  exact (mem_of_mem_joinPieces h).resolve_left hslash

theorem eq_of_ofPiece_eq_normal {piece name : Text} (h : Component.ofPiece piece = .normal name) :
    piece = name := by
  rw [Component.ofPiece] at h
  split at h
  · cases h
  · exact Component.normal.inj h

/-- The names in a path are pieces of it. -/
theorem mem_splitAt_of_mem_components {name : Text} (h : .normal name ∈ p.components) :
    name ∈ Text.splitAt '/' p.text := by
  have htext : p.text ≠ [] := by
    intro hnil
    obtain rfl : p = ⟨[]⟩ := congrArg Path.mk hnil
    rw [components_nil] at h
    cases h
  obtain ⟨first, rest, hpieces⟩ := List.exists_cons_of_ne_nil (Text.splitAt_ne_nil '/' p.text)
  rw [components_eq htext hpieces] at h
  rw [hpieces]
  rcases List.mem_cons.1 h with hfirst | hrest
  · -- a first component that is a name is neither empty nor a dot
    rw [firstComponent] at hfirst
    split at hfirst
    · cases hfirst
    · split at hfirst
      · cases hfirst
      · rw [← eq_of_ofPiece_eq_normal hfirst.symm]
        exact List.mem_cons_self ..
  · obtain ⟨piece, hpiece, heq⟩ := List.mem_map.1 hrest
    rw [← eq_of_ofPiece_eq_normal heq]
    exact List.mem_cons_of_mem _ (List.mem_filter.1 hpiece).1

theorem mem_text_of_mem_fileName (h : c ∈ p.fileName) : c ∈ p.text := by
  rw [fileName] at h
  split at h
  · next name hlast =>
    have hpiece := mem_splitAt_of_mem_components (List.mem_of_getLast? hlast)
    exact mem_text_of_mem_splitAt hpiece h
  · cases h

theorem dropNamed_suffix (n : Nat) (pieces : List Text) : dropNamed n pieces <:+ pieces := by
  induction pieces generalizing n with
  | nil => cases n <;> exact List.suffix_refl []
  | cons piece rest ih =>
    cases n with
    | zero => exact List.suffix_refl _
    | succ n =>
      rw [dropNamed]
      split
      · exact (ih (n + 1)).trans (List.suffix_cons piece rest)
      · exact (ih n).trans (List.suffix_cons piece rest)

theorem dropEndFillers_subset (pieces : List Text) : dropEndFillers pieces ⊆ pieces := by
  intro piece hpiece
  rw [dropEndFillers, List.mem_reverse] at hpiece
  exact List.mem_reverse.1 ((List.dropWhile_suffix isFiller).subset hpiece)

/-- A path seen from a directory is made of pieces of the path. -/
theorem mem_text_of_mem_relativeTo {base : Path} (hslash : c ≠ '/')
    (h : c ∈ (p.relativeTo base).text) : c ∈ p.text := by
  have hjoined {pieces : List Text} (hpieces : pieces ⊆ Text.splitAt '/' p.text)
      (hc : c ∈ joinPieces pieces) : c ∈ p.text := by
    obtain ⟨piece, hpiece, hc⟩ := (mem_of_mem_joinPieces hc).resolve_left hslash
    exact mem_text_of_mem_splitAt (hpieces hpiece) hc
  rw [relativeTo, stripBase?] at h
  split at h
  · rw [Option.getD_some, withoutEndFillers] at h
    split at h
    · exact h
    · next first rest hpieces =>
      split at h
      · split at h
        · exact absurd (by simpa using h) hslash
        · exact mem_text_of_mem_splitAt (by simp [hpieces]) h
      · refine hjoined ?_ h
        rw [hpieces]
        exact List.cons_subset_cons first (dropEndFillers_subset rest)
  · split at h
    · rw [Option.getD_some] at h
      refine hjoined (fun piece hpiece => ?_) h
      have hdropped := (List.dropWhile_suffix isFiller).subset (dropEndFillers_subset _ hpiece)
      exact List.mem_of_mem_tail ((dropNamed_suffix _ _).subset hdropped)
    · exact h

theorem mem_text_of_mem_below {dir : Path} {names : List Text} (hslash : c ≠ '/')
    (h : c ∈ (dir.below names).text) : c ∈ dir.text ∨ ∃ name ∈ names, c ∈ name := by
  have hnames (hc : c ∈ joinPieces names) : c ∈ dir.text ∨ ∃ name ∈ names, c ∈ name :=
    .inr ((mem_of_mem_joinPieces hc).resolve_left hslash)
  rw [below] at h
  split at h
  · exact .inl h
  · rw [join] at h
    split at h
    · exact hnames h
    · split at h
      · exact (List.mem_append.1 h).elim .inl hnames
      · rcases List.mem_append.1 h with hdir | hbehind
        · exact .inl hdir
        · exact hnames ((List.mem_cons.1 hbehind).resolve_left hslash)

end Path

/-! ## Names in a tree -/

namespace FileTree

/-- Trees in which no name of a file or a directory holds a line feed. -/
structure FeedFree (t : FileTree) : Prop where
  files : ∀ file ∈ t.files, ∀ name ∈ file.1, '\n' ∉ name
  dirs : ∀ dir ∈ t.dirs, ∀ name ∈ dir, '\n' ∉ name

instance (t : FileTree) : Decidable t.FeedFree :=
  decidable_of_iff
    ((∀ file ∈ t.files, ∀ name ∈ file.1, '\n' ∉ name) ∧ ∀ dir ∈ t.dirs, ∀ name ∈ dir, '\n' ∉ name)
    ⟨fun h => ⟨h.1, h.2⟩, fun h => ⟨h.files, h.dirs⟩⟩

variable {t : FileTree}

theorem has_of_follow {pieces : List Text} {start key : Key}
    (h : t.follow pieces start = .ok key) : t.has start = true := by
  cases pieces with
  | nil =>
    rw [follow] at h
    split at h
    · assumption
    · cases h
  | cons piece rest =>
    rw [follow] at h
    split at h
    · cases h
    · next hdir =>
      rw [has, Bool.or_eq_true]
      exact .inr (by simpa using hdir)

namespace FeedFree

variable (ht : t.FeedFree)
include ht

theorem newline_notMem_of_has {key : Key} (h : t.has key = true) : ∀ name ∈ key, '\n' ∉ name := by
  intro name hname
  simp only [has, isDir, Bool.or_eq_true, List.any_eq_true, Bool.and_eq_true,
    List.isPrefixOf_iff_prefix, List.isEmpty_iff] at h
  rcases h with hfile | (rfl | ⟨dir, hdir, hstarts⟩) | ⟨file, hfile, hstarts, -⟩
  · obtain ⟨file, hmem, rfl⟩ := exists_mem_files hfile
    exact ht.files file hmem name hname
  · cases hname
  · exact ht.dirs dir hdir name (hstarts.subset hname)
  · exact ht.files file hfile name (hstarts.subset hname)

/-- A path is followed by names of the tree, and by pieces that are dots. -/
theorem newline_notMem_of_follow {pieces : List Text} {start key : Key}
    (h : t.follow pieces start = .ok key) : ∀ piece ∈ pieces, '\n' ∉ piece := by
  induction pieces generalizing start with
  | nil => simp
  | cons piece rest ih =>
    rw [List.forall_mem_cons]
    rw [follow] at h
    split at h
    · cases h
    · split at h
      · next hfiller =>
        refine ⟨?_, ih h⟩
        rw [Path.isFiller, Bool.or_eq_true, List.isEmpty_iff, beq_iff_eq] at hfiller
        rcases hfiller with rfl | rfl <;> decide
      · split at h
        · next hup =>
          subst hup
          exact ⟨by decide, ih h⟩
        · exact ⟨ht.newline_notMem_of_has (has_of_follow h) piece (by simp), ih h⟩

theorem newline_notMem_of_resolve {p : Path} {key : Key} (h : t.resolve p = .ok key) :
    '\n' ∉ p.text := by
  intro hfeed
  obtain ⟨piece, hpiece, hmem⟩ := Path.exists_piece_of_mem_text (by decide) hfeed
  exact ht.newline_notMem_of_follow (resolve_eq_ok_iff.1 h).2 piece hpiece hmem

theorem newline_notMem_of_candidates {key names : Key} {respectGitignore : Bool}
    (h : names ∈ t.candidates key respectGitignore) : ∀ name ∈ names, '\n' ∉ name := by
  have hbelow (hmem : names ∈ t.filesBelow key) : ∀ name ∈ names, '\n' ∉ name := by
    have hhas := has_of_file? (mem_filesBelow.1 hmem).2
    exact fun name hname => ht.newline_notMem_of_has hhas name (by simp [hname])
  rw [candidates] at h
  split at h
  · obtain rfl := List.mem_singleton.1 h
    simp
  · split at h
    · exact hbelow (List.mem_filter.1 h).1
    · exact hbelow h

/-- **No path that is found holds a line feed.** -/
theorem newline_notMem_of_discover {dir : Path} {pattern : Text} {respectGitignore : Bool}
    {files : List Path} (h : discover t dir pattern respectGitignore = .ok files) :
    ∀ p ∈ files, '\n' ∉ p.text := by
  intro p hp
  cases hpattern : Glob.ofText pattern with
  | error e =>
    rw [discover, hpattern] at h
    cases h
  | ok pieces =>
    cases hdir : t.resolve dir with
    | error e =>
      rw [discover, hpattern] at h
      simp only [bind, Except.bind, hdir] at h
      cases h
      cases hp
    | ok key =>
      rw [discover_of_resolve hpattern hdir] at h
      cases h
      rw [(sortBy_perm Path.le _).mem_iff, List.mem_filter] at hp
      obtain ⟨names, hnames, rfl⟩ := List.mem_map.1 hp.1
      intro hfeed
      rcases Path.mem_text_of_mem_below (by decide) hfeed with hfeed | ⟨name, hname, hfeed⟩
      · exact ht.newline_notMem_of_resolve hdir hfeed
      · exact ht.newline_notMem_of_candidates hnames name hname hfeed

end FeedFree

end FileTree

end ContractLint
