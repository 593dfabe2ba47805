import ContractLint.Proofs.Analysis.Effects
import ContractLint.Proofs.FileTree.Relocation

/-!
# Checking a project in another place

The result of checking the contracts of a project goes by what is in the project. The place of the
project shows in the result only by way of the ignore list, whose entries are looked for in the whole
path of a file.

## The architecture

* **`SourceView.Alike`** — two views of a file that no rule can tell apart.
* **`treatFile_movedTo`** — a run does the same with a file in another place, where it has the same
  name and is the same seen from the root.
* **`checks_iff`** — the same files are checked in both places exactly if the ignore list decides
  alike on those that are found.
* **`run_independent_of_place`** — then the result is the same, and so is the project afterwards.
* **`entry_found_above_project`** — an entry that occurs in the path of the project leaves out every
  contract of it.
-/

namespace ContractLint

/-! ## What rules see of a file -/

/-- Two views that no rule can tell apart. -/
structure SourceView.Alike (v w : SourceView) : Prop where
  lines : w.source.lines = v.source.lines
  ending : w.source.ending = v.source.ending
  fileName : w.fileName = v.fileName
  relativePath : w.relativePath = v.relativePath

namespace SourceView.Alike

variable {v w : SourceView} (h : v.Alike w)
include h

theorem findings_eq (check : Check) : check.findings w = check.findings v := by
  have hname : w.source.path.fileName = v.source.path.fileName := h.fileName
  cases check with
  | importOrder => simp only [Check.findings, ImportBlock.findings, h.lines, h.relativePath]
  | fileHeader header =>
    simp only [Check.findings, Header.findings, Header.requirements, Source.containsLine,
      Source.fileStem, Path.fileStem, Source.fileName, hname, h.lines]
  | functionComments => simp only [Check.findings, DocBlock.findings, h.lines, h.fileName]
  | exclusiveTests marker => simp only [Check.findings, Marker.findings, h.lines, h.fileName]

theorem location_eq (line column : Nat) : w.location line column = v.location line column := by
  simp only [location, offsetOf, lengthOf, h.lines, h.ending, h.relativePath]

theorem violations_eq (r : Rule) : r.violations w = r.violations v := by
  simp only [Rule.violations, h.findings_eq, h.location_eq]

end SourceView.Alike

namespace Analysis

/-! ## One file in another place -/

variable {a : Analysis} {root p p' : Path}

/-- The same analysis of another directory. -/
def movedTo (a : Analysis) (root : Path) : Analysis := { a with root }

theorem check_movedTo {s : Source} (hname : p'.fileName = s.path.fileName)
    (hrelative : p'.relativeTo root = s.path.relativeTo a.root) :
    (a.movedTo root).check { s with path := p' } = a.check s := by
  have halike : (SourceView.ofRoot a.root s).Alike (.ofRoot root { s with path := p' }) :=
    ⟨rfl, rfl, hname, hrelative⟩
  have hrule (r : Rule) : (a.movedTo root).ruleViolations (.ofRoot root { s with path := p' }) r =
      a.ruleViolations (.ofRoot a.root s) r := by
    simp only [ruleViolations, halike.violations_eq]
    rfl
  exact congrArg a.enabledRules.flatMap (funext hrule)

/-- Rules put a file right by its lines alone. -/
theorem applyFix_movedTo (state : Source × Bool) (r : Rule) :
    (a.movedTo root).applyFix ({ state.1 with path := p' }, state.2) r =
      ({ (a.applyFix state r).1 with path := p' }, (a.applyFix state r).2) := by
  have hfix : r.fix (.ofRoot root { state.1 with path := p' }) = r.fix (.ofRoot a.root state.1) := by
    rw [Rule.fix, Rule.fix]
    cases r.check <;> rfl
  simp only [applyFix, movedTo, hfix]
  cases r.fix (.ofRoot a.root state.1) <;> rfl

theorem foldl_applyFix_movedTo (rules : List Rule) (state : Source × Bool) :
    rules.foldl (a.movedTo root).applyFix ({ state.1 with path := p' }, state.2) =
      ({ (rules.foldl a.applyFix state).1 with path := p' }, (rules.foldl a.applyFix state).2) := by
  induction rules generalizing state with
  | nil => rfl
  | cons r rest ih => rw [List.foldl_cons, List.foldl_cons, applyFix_movedTo, ih]

theorem settled_movedTo (a : Analysis) (root p p' : Path) (text : Text) :
    (a.movedTo root).settled p' text =
      ({ (a.settled p text).1 with path := p' }, (a.settled p text).2) := by
  have hfix : (a.movedTo root).fix = a.fix := rfl
  rw [settled, settled, hfix]
  split
  · exact foldl_applyFix_movedTo a.enabledRules (Source.ofText p text, false)
  · rfl

theorem path_settled (p : Path) (text : Text) : (a.settled p text).1.path = p :=
  congrArg (·.1.path) (settled_movedTo a a.root p p text)

/-- **A run does the same with a file in another place.** -/
theorem treatFile_movedTo (hname : p'.fileName = p.fileName)
    (hrelative : p'.relativeTo root = p.relativeTo a.root) :
    (a.movedTo root).treatFile p' = a.treatFile p := by
  funext text r
  have hsettled := settled_movedTo a root p p' text
  have hcheck : (a.movedTo root).check ((a.movedTo root).settled p' text).1 =
      a.check (a.settled p text).1 := by
    rw [hsettled]
    exact check_movedTo (by rw [path_settled, hname]) (by rw [path_settled, hrelative])
  have hchanged : ((a.movedTo root).settled p' text).2 = (a.settled p text).2 := by rw [hsettled]
  have htext : ((a.movedTo root).settled p' text).1.toText = (a.settled p text).1.toText := by
    rw [hsettled]
    rfl
  have hroot : (a.movedTo root).root = root := rfl
  simp only [treatFile, fixedText?, reportFile, hcheck, hchanged, htext, hroot, hrelative]

end Analysis

/-! ## A project in another place -/

open FileTree

namespace Checkout

/-- Checks the contracts of a project. -/
def analysis (c : Checkout) (s : Settings) (l : IgnoreList) (fix : Bool) : Analysis :=
  { Analysis.ofSettings c.base s .contracts with ignoreList := l, fix }

/-- A file that is found among the contracts of a project. -/
def IsContract (c : Checkout) (s : Settings) (names : Key) : Prop :=
  c.tree.Found (c.base.join s.contractsRoot) s.layout.contractPattern s.layout.respectGitignore names

/-- Whether the ignore list decides alike on the contracts of a project in two places. -/
def DecidesAlike (c c' : Checkout) (s : Settings) (l : IgnoreList) : Prop :=
  ∀ names, c.IsContract s names →
    l.ignores ((c'.base.join s.contractsRoot).below names) =
      l.ignores ((c.base.join s.contractsRoot).below names)

/-- Contracts are treated alike in both places. -/
theorem treatFile_eq {c : Checkout} (c' : Checkout) {s : Settings}
    (hinner : s.contractsRoot.isInner = true) (l : IgnoreList) (fix : Bool) {names : Key}
    (hnames : c.IsContract s names) :
    (c'.analysis s l fix).treatFile ((c'.analysis s l fix).root.below names) =
      (c.analysis s l fix).treatFile ((c.analysis s l fix).root.below names) := by
  have hisName : ∀ name ∈ names, Path.isName name = true := hnames.isName c.wellFormed
  have hmoved : c'.analysis s l fix =
      (c.analysis s l fix).movedTo (c'.base.join s.contractsRoot) := rfl
  rw [hmoved]
  refine Analysis.treatFile_movedTo (fileName_below c' hinner hnames) ?_
  rw [Path.relativeTo_below hisName]
  exact Path.relativeTo_below hisName _

section Alike

variable {c c' : Checkout} (h : c.SameProject c') {s : Settings}
  (hinner : s.contractsRoot.isInner = true)
  (halone : s.layout.respectGitignore = true →
    c.tree.StandsAlone c.dir ∧ c'.tree.StandsAlone c'.dir)
  (l : IgnoreList) (fix : Bool)
include h hinner halone

/-- **The same files are checked** in both places exactly if the ignore list decides alike. -/
theorem checks_iff :
    (∀ names, (c'.analysis s l fix).Checks c'.tree names ↔
      (c.analysis s l fix).Checks c.tree names) ↔ c.DecidesAlike c' s l := by
  have hfound (names : Key) : c'.IsContract s names ↔ c.IsContract s names :=
    found_iff h hinner halone
  have hchecks (d : Checkout) (names : Key) : (d.analysis s l fix).Checks d.tree names ↔
      d.IsContract s names ∧ l.ignores ((d.base.join s.contractsRoot).below names) = false := .rfl
  simp only [hchecks, hfound, DecidesAlike, and_congr_right_iff]
  refine forall_congr' fun names => imp_congr_right fun _ => ?_
  cases l.ignores ((c'.base.join s.contractsRoot).below names) <;>
    cases l.ignores ((c.base.join s.contractsRoot).below names) <;> decide

theorem run_eq_of_decidesAlike (hlist : c.DecidesAlike c' s l) :
    ((c'.analysis s l fix).run c'.tree).2.toOption =
        ((c.analysis s l fix).run c.tree).2.toOption ∧
      Relocated ((c.analysis s l fix).run c.tree).1 c.dir
        ((c'.analysis s l fix).run c'.tree).1 c'.dir := by
  have hchecks := (checks_iff h hinner halone l fix).2 hlist
  cases hpattern : Glob.ofText s.layout.contractPattern with
  | error e =>
    rw [Analysis.run, Analysis.run, Analysis.files_of_pattern_error hpattern,
      Analysis.files_of_pattern_error hpattern]
    exact ⟨rfl, h⟩
  | ok pieces =>
    obtain ⟨files, hfiles⟩ := Analysis.exists_files (a := c.analysis s l fix) hpattern c.tree
    obtain ⟨files', hfiles'⟩ := Analysis.exists_files (a := c'.analysis s l fix) hpattern c'.tree
    rw [Analysis.run_eq hfiles, Analysis.run_eq hfiles']
    obtain ⟨checked, rfl, hsorted, hchecked⟩ := Analysis.exists_checked c.wellFormed hfiles
    obtain ⟨checked', rfl, hsorted', hchecked'⟩ := Analysis.exists_checked c'.wellFormed hfiles'
    obtain rfl : checked' = checked := eq_of_pairwise_namesLt hsorted' hsorted fun names => by
      rw [hchecked', hchecked, hchecks]
    have hplaces : ∀ names ∈ checked', ∃ place,
        c.tree.resolve ((c.analysis s l fix).root.below names) = .ok (c.dir ++ place) ∧
          c'.tree.resolve ((c'.analysis s l fix).root.below names) = .ok (c'.dir ++ place) ∧
            (c.tree.file? (c.dir ++ place)).isSome = true :=
      fun names hnames => exists_place_of_found h hinner ((hchecked names).1 hnames).1
    obtain ⟨hproject, hresult⟩ := Relocated.visit h hplaces
      (fun names hnames => treatFile_eq c' hinner l fix ((hchecked names).1 hnames).1) {}
    have hmap (r : Except Failure Report) :
        (r.map Analysis.inOrder).toOption = r.toOption.map Analysis.inOrder := by
      cases r <;> rfl
    rw [hmap, hmap, hresult]
    exact ⟨rfl, hproject⟩

end Alike

/-- **Checking contracts goes by the project and not by its place**, except for the ignore list. Let
the directory of the contracts be inside of the project, and let the project be a repository of its
own or in none, if ignore files count.

* The same files are checked in both places exactly if the ignore list decides alike on the contracts.
* If it does, then both runs give the same report, or both fail, and the project is the same in both
  places afterwards. -/
theorem run_independent_of_place {c c' : Checkout} (h : c.SameProject c') {s : Settings}
    (hinner : s.contractsRoot.isInner = true)
    (halone : s.layout.respectGitignore = true →
      c.tree.StandsAlone c.dir ∧ c'.tree.StandsAlone c'.dir) (l : IgnoreList) (fix : Bool) :
    ((∀ names, (c'.analysis s l fix).Checks c'.tree names ↔
      (c.analysis s l fix).Checks c.tree names) ↔ c.DecidesAlike c' s l) ∧
    (c.DecidesAlike c' s l →
      ((c'.analysis s l fix).run c'.tree).2.toOption =
          ((c.analysis s l fix).run c.tree).2.toOption ∧
        Relocated ((c.analysis s l fix).run c.tree).1 c.dir
          ((c'.analysis s l fix).run c'.tree).1 c'.dir) :=
  ⟨checks_iff h hinner halone l fix, run_eq_of_decidesAlike h hinner halone l fix⟩

/-- A repository with a contract, a mock of it and an ignore file for generated contracts. -/
def repository : FileTree where
  files := [
    ([".git".toList, "HEAD".toList], encode "ref\n"),
    ([".gitignore".toList], encode "generated\n"),
    (["contracts".toList, "A.sol".toList], encode "import \"z/Z.sol\";\nimport \"a/A.sol\";\n"),
    (["contracts".toList, "generated".toList, "G.sol".toList], encode ""),
    (["contracts".toList, "mock".toList, "A.sol".toList], encode "")]

/-- The repository in a directory of the root. -/
def repositoryIn (name : Text) (hname : Path.isName name = true) : Checkout :=
  .ofProject repository (by decide +kernel) [name] (by simpa using hname)

/-- Settings by which ignore files count and headers do not. -/
def repositorySettings : Settings where
  layout := { respectGitignore := true }
  rules := [("file-header", { enabled := some false })]

/-- In both places one contract is checked and fixed: the mock is on the ignore list, and the
generated contract is ignored by the repository. -/
theorem run_independent_of_place_repository :
    let c := repositoryIn "build" (by decide)
    let c' := repositoryIn "other" (by decide)
    let l : IgnoreList := ⟨["/mock/"]⟩
    ((c.analysis repositorySettings l true).run c.tree).2 = .ok ⟨[], 1, ["A.sol"]⟩ ∧
      ((c'.analysis repositorySettings l true).run c'.tree).2.toOption =
        ((c.analysis repositorySettings l true).run c.tree).2.toOption := by
  intro c c' l
  have hproject : c.SameProject c' := relocated_placed repository _ _
  have halone : c.tree.StandsAlone c.dir ∧ c'.tree.StandsAlone c'.dir := by decide +kernel
  refine ⟨by decide +kernel, ((run_independent_of_place hproject (s := repositorySettings)
    (by decide +kernel) (fun _ => halone) l true).2 ?_).1⟩
  rintro names ⟨-, key, -, hkey, hfile, -⟩
  have hroot : c.tree.resolve (c.base.join repositorySettings.contractsRoot) =
    .ok ["build".toList, "contracts".toList] := by decide +kernel
  obtain rfl := Except.ok.inj (hroot.symm.trans hkey)
  have hne : names ≠ [] := by
    rintro rfl
    exact absurd hfile (by decide +kernel)
  -- the list is asked about the three contracts
  have halike : ∀ names ∈ c.tree.filesBelow ["build".toList, "contracts".toList],
      l.ignores ((c'.base.join repositorySettings.contractsRoot).below names) =
        l.ignores ((c.base.join repositorySettings.contractsRoot).below names) := by
    decide +kernel
  exact halike names (mem_filesBelow.2 ⟨hne, hfile⟩)

/-- An entry of the ignore list that occurs in the path of the project, and not in the project, leaves
out the contract that is checked in another place. -/
theorem entry_found_above_project :
    let c := repositoryIn "build" (by decide)
    let c' := repositoryIn "other" (by decide)
    let l : IgnoreList := ⟨["build"]⟩
    c.SameProject c' ∧
      ((c.analysis {} l false).run c.tree).2.map (·.filesChecked) = .ok 0 ∧
      ((c'.analysis {} l false).run c'.tree).2.map (·.filesChecked) = .ok 3 :=
  ⟨relocated_placed repository _ _, by decide +kernel, by decide +kernel⟩

end Checkout

end ContractLint
