import ContractLint.Path
import ContractLint.Text.Blank
import ContractLint.Text.Lines

/-!
# Source files

A source file is its path, its lines, one line ending for all of them and whether the last line is
terminated. Reading a text (`Source.ofText`) forgets which ending each single line had; writing
(`Source.toText`) gives every line the same one.
-/

namespace ContractLint

/-- The two ways to end a line. -/
inductive LineEnding where
  | lf
  | crlf
  deriving DecidableEq, Repr

/-- The characters that end a line. -/
def LineEnding.text : LineEnding → Text
  | .lf => "\n"
  | .crlf => "\r\n"

/-- A source file in memory. -/
structure Source where
  path : Path
  lines : List Text
  ending : LineEnding
  /-- Whether the last line is followed by a line ending. -/
  finalNewline : Bool
  deriving DecidableEq, Repr

namespace Source

/-- Splits a text into lines. One `\r\n` anywhere makes it the ending of the whole file. -/
def ofText (path : Path) (text : Text) : Source where
  path
  lines := text.lines
  ending := if LineEnding.crlf.text.occursIn text then .crlf else .lf
  finalNewline := text.getLast? == some '\n'

/-- The same file with other lines. A file that had no lines gets a final line ending. -/
def withLines (s : Source) (lines : List Text) : Source :=
  { s with lines, finalNewline := s.finalNewline || s.lines.isEmpty }

/-- The text of the file. -/
def toText (s : Source) : Text :=
  s.ending.text.intercalate s.lines ++
    if s.finalNewline && !s.lines.isEmpty then s.ending.text else []

/-- Whether one of the lines is exactly `line`. -/
def containsLine (s : Source) (line : Text) : Bool := s.lines.contains line

/-- The file's name without its directories. -/
def fileName (s : Source) : Text := s.path.fileName

/-- The file's name without its directories and its last extension. -/
def fileStem (s : Source) : Text := s.path.fileStem

end Source

end ContractLint
