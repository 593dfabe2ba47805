import ContractLint.Rule.Finding
import ContractLint.SourceView

/-!
# Forbidden markers

A marker such as `.only(` makes a test runner skip all other tests. Every line that holds it is
reported once, at its first occurrence. An empty marker forbids nothing.
-/

namespace ContractLint.Marker

/-- The lines from number `line` on that hold the marker, each with the column of its first
occurrence. -/
def placesFrom (marker : Text) (line : Nat) : List Text → List (Nat × Nat)
  | [] => []
  | text :: rest =>
    match Text.cut marker text with
    | some (before, _) => (line, before.length + 1) :: placesFrom marker (line + 1) rest
    | none => placesFrom marker (line + 1) rest

/-- Where a file holds the marker. -/
def findings (marker : Text) (v : SourceView) : List Finding :=
  if marker.isEmpty then []
  else (placesFrom marker 1 v.source.lines).map fun (line, column) =>
    { line
      column
      message := marker ++ " found in " ++ v.fileName ++ ":" ++ Text.decimal line }

end ContractLint.Marker
