import ContractLint.Text.Blank

/-!
# File identifiers

A contract declares its identifier on one line, `bytes32 constant FILE = "Name"`, with an optional
visibility before `constant`. Between words there is at least one blank, around `=` any number.
-/

namespace ContractLint.Coverage

namespace FileIdentifier

/-- The words that may stand before `constant`. -/
def visibilities : List Text := ["private", "internal", "public"]

/-- What follows a word that starts the text. -/
def afterWord? (word t : Text) : Option Text :=
  if word.isPrefixOf t then some (t.drop word.length) else none

/-- What follows a word and at least one blank. -/
def afterSpacedWord? (word t : Text) : Option Text := do
  let rest ← afterWord? word t
  if rest.trimStart.length < rest.length then some rest.trimStart else none

/-- What follows an optional visibility. -/
def skipVisibility (t : Text) : Text := (visibilities.findSome? (afterSpacedWord? · t)).getD t

/-- The identifier that a line declares. -/
def declared? (line : Text) : Option Text := do
  let rest ← afterSpacedWord? "bytes32" line.trimStart
  let rest ← afterSpacedWord? "constant" (skipVisibility rest)
  let rest ← afterWord? "FILE" rest
  let rest ← afterWord? "=" rest.trimStart
  let rest ← afterWord? "\"" rest.trimStart
  let (name, _) ← Text.cut ['"'] rest
  some name

end FileIdentifier

end ContractLint.Coverage
