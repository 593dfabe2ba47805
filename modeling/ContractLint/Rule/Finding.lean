import ContractLint.Text.Basic

/-!
# Findings

What a rule finds wrong with a file, before it is put down to the rule and placed in the file.
-/

namespace ContractLint

/-- A line and column where something is wrong, both counted from one. -/
structure Finding where
  line : Nat
  column : Nat := 1
  message : Text
  suggestion : Option Text := none
  deriving DecidableEq, Repr

end ContractLint
