import ContractLint.Path

/-!
# Violations and reports

A violation names the rule, the place and what is wrong there; a report collects the violations of
a run with the number of files checked and the files that were changed.
-/

namespace ContractLint

/-- How much a violation matters. -/
inductive Severity where
  | info
  | warning
  | error
  deriving DecidableEq, Repr

namespace Severity

/-- The word for a severity, in settings and in output. -/
def name : Severity → Text
  | info => "info"
  | warning => "warning"
  | error => "error"

/-- The severity that a word stands for. -/
def ofName? (t : Text) : Option Severity := [info, warning, error].find? (·.name == t)

/-- The place of a severity in their order. -/
def rank : Severity → Nat
  | info => 0
  | warning => 1
  | error => 2

/-- The more serious of two severities. -/
def max (a b : Severity) : Severity := if a.rank ≤ b.rank then b else a

end Severity

/-- A place in a file: line and column count from one, the column in characters; offset and length
are bytes of the file's text. -/
structure Location where
  file : Path
  line : Nat
  column : Nat
  offset : Nat
  length : Nat
  deriving DecidableEq, Repr

/-- A breach of a rule. -/
structure Violation where
  code : Text
  rule : Text
  severity : Severity
  location : Location
  message : Text
  suggestion : Option Text := none
  deriving DecidableEq, Repr

/-- A violation as it is pointed out inside the text of its file. -/
structure Diagnostic where
  message : Text
  help : Option Text
  label : Text
  offset : Nat
  length : Nat
  deriving DecidableEq, Repr

namespace Violation

/-- The violation on one line: place, severity, code and message. -/
def display (v : Violation) : Text :=
  v.location.file.text ++ ":" ++ Text.decimal v.location.line ++ ":" ++
    Text.decimal v.location.column ++ ": " ++ v.severity.name ++ " [" ++ v.code ++ "] " ++ v.message

/-- The violation as a labelled stretch of the file's text. -/
def diagnostic (v : Violation) : Diagnostic where
  message := "[" ++ v.code ++ "] " ++ v.message
  help := v.suggestion
  label := v.rule
  offset := v.location.offset
  length := v.location.length

/-- Violations are listed by file, then line, then column. -/
def le (v w : Violation) : Bool :=
  if v.location.file.components ≠ w.location.file.components then v.location.file.le w.location.file
  else if v.location.line ≠ w.location.line then v.location.line < w.location.line
  else v.location.column ≤ w.location.column

end Violation

/-- The result of checking a set of files. -/
structure Report where
  violations : List Violation := []
  filesChecked : Nat := 0
  filesFixed : List Path := []
  deriving DecidableEq, Repr

namespace Report

/-- The number of violations of one severity. -/
def count (r : Report) (s : Severity) : Nat := r.violations.countP (·.severity == s)

/-- Whether there is a violation of the highest severity. -/
def hasErrors (r : Report) : Bool := r.violations.any (·.severity == .error)

/-- The highest severity among the violations. -/
def maxSeverity? (r : Report) : Option Severity :=
  match r.violations.map (·.severity) with
  | [] => none
  | s :: rest => some (rest.foldl Severity.max s)

end Report

end ContractLint
