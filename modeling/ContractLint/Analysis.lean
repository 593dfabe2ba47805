import ContractLint.Discovery
import ContractLint.Failure
import ContractLint.RuleSet

/-!
# Checking a directory

An analysis finds the files below its root, leaves out those on its ignore list, and runs the
enabled rules on each of the others. In fix mode each file is first put right, rule by rule, and
written back once if a rule changed it; what is reported is what remains. The run stops at the first
file that cannot be read, and files written before stay as they are.
-/

namespace ContractLint

/-- What is to be checked, and how. -/
structure Analysis where
  /-- The directory, as an absolute path. -/
  root : Path
  pattern : Text
  rules : List Rule
  ignoreList : IgnoreList := {}
  settings : Settings := {}
  fix : Bool := false

/-- Reads an ignore list. The path is taken from a base directory, and a failure names it as
given. -/
def IgnoreList.load (t : FileTree) (base p : Path) : Except Failure IgnoreList :=
  match t.readText (base.join p) with
  | .ok text => .ok (IgnoreList.ofText text)
  | .error cause => .error (.ignoreList p cause)

namespace Analysis

/-- The analysis that the settings describe for a target. A relative directory is taken from
`base`. -/
def ofSettings (base : Path) (s : Settings) (target : Target) : Analysis where
  root := base.join (target.directory s)
  pattern := target.pattern s
  rules := target.rules s
  settings := s

/-- The rules that run. -/
def enabledRules (a : Analysis) : List Rule := a.rules.filter (a.settings.isEnabled ·.name)

/-- The files that are checked, in the order of paths. -/
def files (a : Analysis) (t : FileTree) : Except Failure (List Path) :=
  match discover t a.root a.pattern a.settings.layout.respectGitignore with
  | .ok files => .ok (files.filter (!a.ignoreList.ignores ·))
  | .error e => .error (.pattern e)

/-- The violations of a rule, with the severity that the settings give it. -/
def ruleViolations (a : Analysis) (v : SourceView) (r : Rule) : List Violation :=
  match a.settings.severity? r.name with
  | some severity => (r.violations v).map fun violation => { violation with severity }
  | none => r.violations v

/-- The violations of all enabled rules in a file, rule by rule. -/
def check (a : Analysis) (s : Source) : List Violation :=
  a.enabledRules.flatMap (a.ruleViolations (SourceView.ofRoot a.root s))

/-- Lets one rule put a file right. The flag tells whether any rule changed it. -/
def applyFix (a : Analysis) (state : Source × Bool) (r : Rule) : Source × Bool :=
  match r.fix (SourceView.ofRoot a.root state.1) with
  | some lines => (state.1.withLines lines, true)
  | none => state

/-- Lets the enabled rules put a file right, one after the other. -/
def applyFixes (a : Analysis) (s : Source) : Source × Bool :=
  a.enabledRules.foldl a.applyFix (s, false)

/-- Checks one file, putting it right first in fix mode. -/
def runFile (a : Analysis) (t : FileTree) (p : Path) (text : Text) (r : Report) :
    FileTree × Report :=
  let source := Source.ofText p text
  let (fixed, changed) := if a.fix then a.applyFixes source else (source, false)
  let report := { r with
    violations := r.violations ++ a.check fixed
    filesChecked := r.filesChecked + 1
    filesFixed := if changed then r.filesFixed ++ [p.relativeTo a.root] else r.filesFixed }
  (if changed then t.writeText p fixed.toText else t, report)

/-- Checks files in order, adding to a report. -/
def runFiles (a : Analysis) : List Path → FileTree → Report → FileTree × Except Failure Report
  | [], t, report => (t, .ok report)
  | p :: rest, t, report =>
    match t.readText p with
    | .error cause => (t, .error (.read p cause))
    | .ok text =>
      let (t, report) := a.runFile t p text report
      a.runFiles rest t report

/-- Runs the analysis: the tree afterwards, and the report with its violations in order. -/
def run (a : Analysis) (t : FileTree) : FileTree × Except Failure Report :=
  match a.files t with
  | .error e => (t, .error e)
  | .ok files =>
    let (t, result) := a.runFiles files t {}
    (t, result.map fun r => { r with violations := sortBy Violation.le r.violations })

end Analysis

end ContractLint
