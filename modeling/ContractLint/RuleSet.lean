import ContractLint.Settings

/-!
# Rule sets

Contracts and tests are checked by different rules. The order of a set is the order in which the
rules run.
-/

namespace ContractLint

/-- What can be checked. -/
inductive Target where
  | contracts
  | tests
  deriving DecidableEq, Repr

/-- The rules for contracts. -/
def contractRules (s : Settings) : List Rule :=
  [{ check := .functionComments }, { check := .importOrder }, { check := .fileHeader s.header }]

/-- The rules for tests. -/
def testRules (s : Settings) : List Rule := [{ check := .exclusiveTests s.marker }]

/-- The rules for a target. -/
def Target.rules (s : Settings) : Target → List Rule
  | contracts => contractRules s
  | tests => testRules s

/-- The directory of a target. -/
def Target.directory (s : Settings) : Target → Path
  | contracts => s.contractsRoot
  | tests => s.testsRoot

/-- The pattern for the file names of a target. -/
def Target.pattern (s : Settings) : Target → Text
  | contracts => s.layout.contractPattern
  | tests => s.layout.testPattern

/-- Every rule with default settings, in the order of their codes. -/
def allRules : List Rule :=
  [{ check := .importOrder }, { check := .fileHeader {} }, { check := .functionComments },
    { check := .exclusiveTests ({} : Settings).marker }]

end ContractLint
