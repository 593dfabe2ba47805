import ContractLint.Coverage.Assertion
import ContractLint.Coverage.Guard
import ContractLint.Coverage.Inline
import ContractLint.Discovery
import ContractLint.Failure
import ContractLint.Settings
import ContractLint.Source

/-!
# Preparing a directory for a coverage run

Each file is read whole, revised in memory (assertions first, then preconditions) and written back
if its lines changed. The run stops at the first file that cannot be read or revised: files before
it keep their new text, and it stays as it was.
-/

namespace ContractLint.Coverage

/-- Revises preconditions in a style. -/
def revisePreconditions : PreconditionStyle → List Text → Except Unterminated Revision
  | .guard => insertGuards
  | .inline => inlinePreconditions

/-- A file's lines after both revisions. -/
structure Prepared where
  lines : List Text
  assertions : Nat
  preconditions : Nat
  deriving DecidableEq, Repr

/-- Revises the lines of a file. Without a style preconditions are left alone. -/
def prepare (style : Option PreconditionStyle) (lines : List Text) : Except Unterminated Prepared := do
  let hidden ← hideAssertions lines
  match style with
  | none => .ok ⟨hidden.lines, hidden.changed, 0⟩
  | some style => do
    let revised ← revisePreconditions style hidden.lines
    .ok ⟨revised.lines, hidden.changed, revised.changed⟩

/-- What a run did. -/
structure Summary where
  files : Nat := 0
  filesChanged : List Path := []
  assertsHidden : Nat := 0
  preconditionsFixed : Nat := 0
  deriving DecidableEq, Repr

namespace Summary

/-- The line about assertions. -/
def assertsLine (s : Summary) : Text := Text.decimal s.assertsHidden ++ " asserts hidden."

/-- The line about preconditions. -/
def preconditionsLine (s : Summary) : Text :=
  Text.decimal s.preconditionsFixed ++ " require()s fixed."

end Summary

/-- What is to be prepared, and how. -/
structure Run where
  /-- The directory, as an absolute path. -/
  root : Path
  pattern : Text := ({} : Layout).contractPattern
  respectGitignore : Bool := ({} : Layout).respectGitignore
  style : Option PreconditionStyle := none

namespace Run

/-- The run that the settings describe. A relative directory is taken from `base`. -/
def ofSettings (base : Path) (s : Settings) : Run where
  root := base.join s.contractsRoot
  pattern := s.layout.contractPattern
  respectGitignore := s.layout.respectGitignore
  style := some s.style

/-- Prepares one file: its new text if the lines changed, and the counts. -/
def runFile (r : Run) (p : Path) (text : Text) (s : Summary) :
    Except Failure (Option Text × Summary) :=
  let source := Source.ofText p text
  match prepare r.style source.lines with
  | .error e => .error (.statement p e)
  | .ok prepared =>
    let changed := prepared.lines ≠ source.lines
    let summary := { s with
      files := s.files + 1
      filesChanged := if changed then s.filesChanged ++ [p] else s.filesChanged
      assertsHidden := s.assertsHidden + prepared.assertions
      preconditionsFixed := s.preconditionsFixed + prepared.preconditions }
    .ok (if changed then some (source.withLines prepared.lines).toText else none, summary)

/-- Prepares files in order, adding to a summary. -/
def runFiles (r : Run) : List Path → FileTree → Summary → FileTree × Except Failure Summary
  | [], t, summary => (t, .ok summary)
  | p :: rest, t, summary =>
    match t.readText p with
    | .error cause => (t, .error (.read p cause))
    | .ok text =>
      match r.runFile p text summary with
      | .error e => (t, .error e)
      | .ok (written, summary) => r.runFiles rest ((written.map (t.writeText p)).getD t) summary

/-- Runs the preparation: the tree afterwards, and what was done. -/
def run (r : Run) (t : FileTree) : FileTree × Except Failure Summary :=
  match discover t r.root r.pattern r.respectGitignore with
  | .error e => (t, .error (.pattern e))
  | .ok files => r.runFiles files t {}

end Run

end ContractLint.Coverage
