import ContractLint.Rule.DocBlock
import ContractLint.Rule.Header
import ContractLint.Rule.Imports
import ContractLint.Rule.Marker

/-!
# Rules

The four rules of the linter. A rule has a name, by which settings refer to it, a code and a
description; it checks a file, and one of them can also put a file right.
-/

namespace ContractLint

/-- What a rule looks at, with its settings. -/
inductive Check where
  | importOrder
  | fileHeader (header : Header)
  | functionComments
  | exclusiveTests (marker : Text)
  deriving DecidableEq, Repr

/-- A rule: a check and how much its violations matter. -/
structure Rule where
  check : Check
  severity : Severity := .error
  deriving DecidableEq, Repr

namespace Check

/-- The name that settings use. -/
def name : Check → Text
  | importOrder => "import-order"
  | fileHeader _ => "file-header"
  | functionComments => "function-comments"
  | exclusiveTests _ => "no-exclusive-tests"

/-- The short code shown with a violation. -/
def code : Check → Text
  | importOrder => "SL001"
  | fileHeader _ => "SL002"
  | functionComments => "SL003"
  | exclusiveTests _ => "SL004"

/-- One sentence on what the check asks for. -/
def description : Check → Text
  | importOrder => "Requires sorted imports with no unused or duplicate entries"
  | fileHeader _ => "Requires title, author, and pragma lines in every contract file"
  | functionComments => "Enforces param spacing and alignment in function comments"
  | exclusiveTests _ => "Forbids .only() in test files"

/-- What the check finds in a file. -/
def findings (v : SourceView) : Check → List Finding
  | importOrder => ImportBlock.findings v
  | fileHeader header => header.findings v
  | functionComments => DocBlock.findings v
  | exclusiveTests marker => Marker.findings marker v

/-- The lines of a file put right, if the check knows how and something is wrong. -/
def fix (v : SourceView) : Check → Option (List Text)
  | importOrder => ImportBlock.fix v
  | _ => none

end Check

namespace Rule

/-- The name that settings use. -/
def name (r : Rule) : Text := r.check.name

/-- The violations of the rule in a file. -/
def violations (r : Rule) (v : SourceView) : List Violation :=
  (r.check.findings v).map fun f =>
    { code := r.check.code
      rule := r.check.name
      severity := r.severity
      location := v.location f.line f.column
      message := f.message
      suggestion := f.suggestion }

/-- The lines of a file put right, if the rule knows how and something is wrong. -/
def fix (r : Rule) (v : SourceView) : Option (List Text) := r.check.fix v

end Rule

end ContractLint
