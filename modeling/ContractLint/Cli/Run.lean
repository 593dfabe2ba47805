import ContractLint.Analysis
import ContractLint.Cli.Arguments
import ContractLint.Cli.Problem
import ContractLint.Coverage.Run
import ContractLint.Settings.Lookup
import ContractLint.Settings.Template

/-!
# Running a request

A run of the program is a function of its surroundings, the files it sees and its arguments: it
gives the exit code, the printed text, the report of a problem if there was one, and the files as
they are afterwards. A check ends with exit code 1 if a violation of the highest severity remains or
a problem came up; arguments that are not understood end with 2.
-/

namespace ContractLint.Cli

/-- What a run leaves behind. -/
structure Outcome where
  exit : Nat
  output : Text
  problem : Option Text := none
  tree : FileTree

/-- The name and the version of the program. -/
def versionLine : Text := "sollint 0.1.0"

/-- The text of the help. -/
def helpLines : List Text := [
  "Style checks and coverage preparation for Solidity projects",
  "",
  "Usage: sollint [OPTIONS] <COMMAND>",
  "",
  "Commands:",
  "  contracts [fix] [-p DIR] [-f FORMAT]   check contracts, or put their imports in order",
  "  tests [-p DIR] [-f FORMAT]             check test files",
  "  coverage [-p DIR] [--asserts-only] [--style STYLE]",
  "                                         prepare contracts for a coverage run",
  "  list-rules                             list the rules",
  "  init [--force]                         write a settings file",
  "",
  "Formats: text, json, compact, rich. Styles: guard, inline.",
  "",
  "Options:",
  "  -v, --verbose        log more",
  "  -c, --config PATH    settings file",
  "  -h, --help           print help",
  "  -V, --version        print version"]

/-! ## Checks -/

/-- The message of a check that found nothing. -/
def cleanMessage : Target → Text
  | .contracts => "No contract linting issues found."
  | .tests => "No test linting issues found."

/-- The problem of settings that could not be had. -/
def Problem.ofSettings (e : SettingsError) : Problem :=
  ⟨"Failed to load config: " ++ e.path.text, e.causes⟩

/-- A failure under a heading. -/
def Problem.ofFailure (heading : Text) (f : Failure) : Problem := ⟨heading, [f.message, f.cause]⟩

/-- The ignore list for a target. Only contracts have one. -/
def ignoreListOf (s : Surroundings) (t : FileTree) (settings : Settings) :
    Target → Except Problem IgnoreList
  | .tests => .ok {}
  | .contracts =>
    let path := settings.ignorePath
    (IgnoreList.load t s.directory path).mapError
      (Problem.ofFailure ("Failed to load ignore list: " ++ path.text))

/-- The analysis that a check asks for. -/
def analysisOf (s : Surroundings) (t : FileTree) (target : Target) (project : Path) (fix : Bool)
    (named : Option Path) : Except Problem Analysis := do
  let settings ← (Settings.load s t project named).mapError Problem.ofSettings
  let ignoreList ← ignoreListOf s t settings target
  .ok { Analysis.ofSettings s.directory settings target with fix, ignoreList }

/-- The listing of a report and the exit code. -/
def showReport (a : Analysis) (t : FileTree) (target : Target) (format : Format) (r : Report) :
    Except Problem (Nat × Text) :=
  match r.listing format t a.root (cleanMessage target) with
  | .ok text => .ok (if r.hasErrors then 1 else 0, text)
  | .error e => .error ⟨"Failed to read " ++ e.path.text, [e.cause.message]⟩

/-- Runs a check. -/
def runCheck (s : Surroundings) (t : FileTree) (target : Target) (project : Path) (format : Format)
    (fix : Bool) (named : Option Path) : FileTree × Except Problem (Nat × Text) :=
  match analysisOf s t target project fix named with
  | .error p => (t, .error p)
  | .ok a =>
    let (after, result) := a.run t
    match result with
    | .error f => (after, .error (Problem.ofFailure "Analysis failed" f))
    | .ok r => (after, showReport a after target format r)

/-! ## The other requests -/

/-- Runs the preparation for coverage. A style that was asked for goes before the one in the
settings. -/
def runCoverage (s : Surroundings) (t : FileTree) (project : Path) (assertsOnly : Bool)
    (style : Option PreconditionStyle) (named : Option Path) :
    FileTree × Except Problem (Nat × Text) :=
  match Settings.load s t project named with
  | .error e => (t, .error (Problem.ofSettings e))
  | .ok settings =>
    let run := Coverage.Run.ofSettings s.directory settings
    let (after, result) :=
      { run with style := if assertsOnly then none else style.or run.style }.run t
    match result with
    | .error f => (after, .error (Problem.ofFailure "Coverage rewrite failed" f))
    | .ok summary =>
      let lines :=
        if assertsOnly then [summary.assertsLine] else [summary.assertsLine, summary.preconditionsLine]
      (after, .ok (0, unlines lines))

/-- The word for the targets of a rule in the list of rules. -/
def targetLabel (rule : Text) : Text :=
  let isIn := fun (target : Target) => (target.rules {}).any (·.name == rule)
  if isIn .contracts then "contracts" else if isIn .tests then "tests" else "-"

/-- A row of the list of rules. -/
def ruleRow (code name target description : Text) : Text :=
  code.rightpad 8 ' ' ++ " " ++ name.rightpad 22 ' ' ++ " " ++ target.rightpad 11 ' ' ++ " " ++
    description

/-- What stands above the rows. -/
def ruleListHead : List Text :=
  ["Available rules:", [], ruleRow "Code" "Name" "Target" "Description", List.replicate 80 '-']

/-- What stands below the rows. -/
def ruleListFoot : List Text := [
  "",
  "Run a target:",
  "  sollint contracts        # report only",
  "  sollint contracts fix    # rewrite import blocks in place",
  "  sollint tests",
  "",
  "Disable a rule in sollint.toml:",
  "  [rules.function-comments]",
  "  enabled = false"]

/-- The list of rules. -/
def ruleList : List Text :=
  let rows := allRules.map fun r =>
    ruleRow r.check.code r.name (targetLabel r.name) r.check.description
  ruleListHead ++ rows ++ ruleListFoot

/-- What is printed after a settings file was written. -/
def createdLines : List Text := [
  "Created sollint.toml",
  "",
  "Next steps:",
  "  1. Edit sollint.toml to match your project layout",
  "  2. Run: sollint contracts",
  "  3. Run: sollint tests"]

/-- Writes the settings file that a project starts from. An existing one is replaced only by
force. -/
def runInit (s : Surroundings) (t : FileTree) (force : Bool) :
    FileTree × Except Problem (Nat × Text) :=
  let path := Path.join "." Settings.fileName
  let place := s.directory.join path
  if t.pathExists place && !force then
    let message := "Configuration file already exists at " ++ path.text ++
      ". Use --force to overwrite."
    (t, .error { message })
  else if t.isDir (FileTree.keyOf place) then
    (t, .error ⟨"Failed to write " ++ path.text, [AccessError.isDirectory.message]⟩)
  else (t.writeText place Settings.template, .ok (0, unlines createdLines))

/-! ## Runs -/

/-- Runs a request. -/
def runRequest (s : Surroundings) (t : FileTree) (named : Option Path) :
    Request → FileTree × Except Problem (Nat × Text)
  | .check target project format fix => runCheck s t target project format fix named
  | .coverage project assertsOnly style => runCoverage s t project assertsOnly style named
  | .listRules => (t, .ok (0, unlines ruleList))
  | .init force => runInit s t force

/-- Runs the program. -/
def run (s : Surroundings) (t : FileTree) (args : List Text) : Outcome :=
  match Invocation.ofArguments s.settingsVariable args with
  | .error .usage => { exit := 2, output := [], tree := t }
  | .error .help => { exit := 0, output := unlines helpLines, tree := t }
  | .error .version => { exit := 0, output := unlines [versionLine], tree := t }
  | .ok invocation =>
    match runRequest s t invocation.settingsFile invocation.request with
    | (tree, .ok (exit, output)) => { exit, output, tree }
    | (tree, .error problem) => { exit := 1, output := [], problem := some problem.report, tree }

end ContractLint.Cli
