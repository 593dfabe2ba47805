import ContractLint.Rule.Finding
import ContractLint.SourceView

/-!
# Documentation blocks

A documentation block runs from a line that starts with `/**` to the first line that ends with `*/`.
Parameters are written with two spaces after the tag, their descriptions start in one column per
block, and a lone `*` stands above the first of them. The spacing is checked on every line of a
file, the rest only inside blocks.
-/

namespace ContractLint

/-- What can be wrong with a line of documentation. -/
inductive DocFault where
  | oneSpace
  | manySpaces
  /-- The description does not start where the first one of the block does. -/
  | misaligned (column : Nat)
  | noBlankLine
  deriving DecidableEq, Repr

/-- The wording of a fault. Columns are shown counted from one. -/
def DocFault.message : DocFault → Text
  | oneSpace => "Param has only one space"
  | manySpaces => "Param has more than two spaces"
  | misaligned column => "Params not aligned to column " ++ Text.decimal (column + 1)
  | noBlankLine => "No blank line before param list in function comment"

/-- What is known about the block that a line belongs to. -/
structure DocBlock where
  /-- Whether a block is open. -/
  inBlock : Bool := false
  /-- Whether the block has had a lone `*`. -/
  seenBlank : Bool := false
  /-- Whether the missing blank line has been reported. -/
  complained : Bool := false
  /-- The byte offset of the block's first description, zero if there was none. -/
  column : Nat := 0
  deriving DecidableEq, Repr

namespace DocBlock

/-- The byte offset of a parameter's description: of the fourth word after a space on a `param` line,
of the third word on a `@returns` line, each at its first occurrence; zero if there is none. -/
def descriptionColumn (line : Text) : Nat :=
  let code := line.trimStart
  let words := line.words
  let param := match words[3]? with
    | some word => if Text.occursIn "param " code then
        ((Text.cut (' ' :: word) line).map fun (before, _) => Text.byteSize before + 1).getD 0
      else 0
    | none => 0
  match words[2]? with
  | some word => if Text.occursIn "@returns" code then
      ((Text.cut word line).map fun (before, _) => Text.byteSize before).getD 0
    else param
  | none => param

/-- The faults in the spacing after a tag. -/
def spacingFaults (line : Text) : List DocFault :=
  let code := line.trimStart
  (if Text.occursIn "param " code && !Text.occursIn "param  " code then [.oneSpace] else []) ++
    if Text.occursIn "param   " code then [.manySpaces] else []

/-- Checks the column of a line's description against the block. -/
def alignment (b : DocBlock) (line : Text) : DocBlock × List DocFault :=
  let column := descriptionColumn line
  if column = 0 then (b, [])
  else if b.column = 0 then ({ b with column }, [])
  else (b, if column = b.column then [] else [.misaligned b.column])

/-- Checks that a lone `*` came before the first parameter. -/
def blankLine (b : DocBlock) (line : Text) : DocBlock × List DocFault :=
  let code := line.trimStart
  let b := if code.trimEnd = ['*'] then { b with seenBlank := true } else b
  if !b.seenBlank && !b.complained &&
      (Text.occursIn "*  param" code || Text.occursIn "* @param" code) then
    ({ b with complained := true }, [.noBlankLine])
  else (b, [])

/-- Checks one line. -/
def step (b : DocBlock) (line : Text) : DocBlock × List DocFault :=
  let spacing := spacingFaults line
  let b := if !b.inBlock && ("/**" : Text).isPrefixOf line.trimStart then { inBlock := true } else b
  if b.inBlock then
    let (b, misaligned) := b.alignment line
    let (b, missing) := b.blankLine line
    let b := if ("*/" : Text).isSuffixOf line.trimEnd then { b with inBlock := false } else b
    (b, spacing ++ misaligned ++ missing)
  else (b, spacing)

/-- The faults of all lines from number `line` on. -/
def faultsFrom (line : Nat) (b : DocBlock) : List Text → List (Nat × DocFault)
  | [] => []
  | text :: rest =>
    let (after, faults) := b.step text
    faults.map (line, ·) ++ faultsFrom (line + 1) after rest

/-- The faults of a file, each with its line. -/
def faults (lines : List Text) : List (Nat × DocFault) := faultsFrom 1 {} lines

/-- What is wrong with the documentation of a file. -/
def findings (v : SourceView) : List Finding :=
  (faults v.source.lines).map fun (line, fault) =>
    { line
      message := fault.message ++ " (" ++ v.fileName ++ ":" ++ Text.decimal line ++ ")" }

end DocBlock

end ContractLint
