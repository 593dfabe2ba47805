import ContractLint.Source
import ContractLint.Violation

/-!
# Source files seen from a root directory

Rules report places relative to the directory that is checked. A location holds both the line and
column it was asked for and the stretch of bytes from there to the end of the line.
-/

namespace ContractLint

/-- A source file together with its path below the directory that is checked. -/
structure SourceView where
  source : Source
  relativePath : Path
  deriving DecidableEq, Repr

namespace SourceView

/-- The view of a file from a root directory. -/
def ofRoot (root : Path) (source : Source) : SourceView where
  source
  relativePath := source.path.relativeTo root

/-- Bytes of a line before the given column; a column past the end means the whole line. -/
def byteIndex (line : Text) (column : Nat) : Nat := Text.byteSize (line.take (column - 1))

/-- Byte offset of a line and column in the file's text. Line zero is the start of the file, and a
line past the end stands where the next line would start. -/
def offsetOf (v : SourceView) (line column : Nat) : Nat :=
  if line = 0 then 0
  else
    let before := (v.source.lines.take (line - 1)).flatMap (· ++ v.source.ending.text)
    Text.byteSize before + (v.source.lines[line - 1]?.map (byteIndex · column)).getD 0

/-- Bytes from a line and column to the end of that line. -/
def lengthOf (v : SourceView) (line column : Nat) : Nat :=
  (v.source.lines[line - 1]?.map fun l => l.byteSize - byteIndex l column).getD 0

/-- The place of a line and column. -/
def location (v : SourceView) (line column : Nat) : Location where
  file := v.relativePath
  line
  column
  offset := v.offsetOf line column
  length := v.lengthOf line column

/-- The file's name without its directories. -/
def fileName (v : SourceView) : Text := v.source.fileName

end SourceView

end ContractLint
