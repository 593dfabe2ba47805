import ContractLint.Rule

/-!
# Settings

What a project can set: where its files are, what a header says, which marker is forbidden in tests,
how preconditions are revised, and for each rule whether it runs and how much it matters. Whatever
is not set has a default.
-/

namespace ContractLint

/-- The two ways to revise preconditions for a coverage run. -/
inductive PreconditionStyle where
  /-- Put a guard above each call. -/
  | guard
  /-- Turn each call into the built-in one. -/
  | inline
  deriving DecidableEq, Repr

/-- The word for a style, in settings and on the command line. -/
def PreconditionStyle.name : PreconditionStyle → Text
  | .guard => "guard"
  | .inline => "inline"

/-- The style that a word stands for. -/
def PreconditionStyle.ofName? (t : Text) : Option PreconditionStyle :=
  [PreconditionStyle.guard, .inline].find? (·.name == t)

/-- Where a project keeps its files. -/
structure Layout where
  root : Path := "."
  contractsDir : Path := "contracts"
  testsDir : Path := "test"
  contractPattern : Text := "*.sol"
  testPattern : Text := "*.js"
  ignoreFile : Path := ".soliumignore"
  respectGitignore : Bool := false
  deriving DecidableEq, Repr

/-- The settings of one rule. -/
structure RuleSettings where
  enabled : Option Bool := none
  severity : Option Severity := none
  deriving DecidableEq, Repr

/-- All settings of a project. -/
structure Settings where
  layout : Layout := {}
  header : Header := {}
  /-- The marker that test files must not hold. -/
  marker : Text := ".only("
  style : PreconditionStyle := .guard
  /-- The rules that have settings, in the order of their names. -/
  rules : List (Text × RuleSettings) := []
  deriving DecidableEq, Repr

namespace Settings

/-- Whether a rule runs. Rules run unless they are switched off. -/
def isEnabled (s : Settings) (rule : Text) : Bool :=
  ((s.rules.lookup rule).bind (·.enabled)).getD true

/-- The severity set for a rule. -/
def severity? (s : Settings) (rule : Text) : Option Severity :=
  (s.rules.lookup rule).bind (·.severity)

/-- The directory of the contracts. -/
def contractsRoot (s : Settings) : Path := s.layout.root.join s.layout.contractsDir

/-- The directory of the tests. -/
def testsRoot (s : Settings) : Path := s.layout.root.join s.layout.testsDir

/-- The file that lists which contracts are not checked. -/
def ignorePath (s : Settings) : Path := s.layout.root.join s.layout.ignoreFile

end Settings

end ContractLint
