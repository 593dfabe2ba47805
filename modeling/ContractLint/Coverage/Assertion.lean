import ContractLint.Comment
import ContractLint.Coverage.Statement
import ContractLint.Text.Blank

/-!
# Hiding assertions

The branch that a failed assertion would take cannot be reached by a test, so it counts against
coverage for ever. `hideAssertions` puts each assertion into a block comment: `/*` replaces two
columns of its indentation, so the code keeps its place, and `*/` goes right after its closing `);`.
-/

namespace ContractLint.Coverage

/-- An assertion, at the start of a line. -/
def assertCall : Text := "assert("

/-- A line with this mark keeps its assertion. -/
def enableMarker : Text := "coverage-enable-line"

/-- A line with this mark is hidden whatever statement it holds. -/
def disableMarker : Text := "coverage-disable-line"

/-- Whether a line starts a statement to be hidden. A line that already starts with a block comment
never does. -/
def opensAssertion (line : Text) : Bool :=
  let code := line.trimStart
  !Comment.opener.isPrefixOf code &&
    (assertCall.isPrefixOf code && !enableMarker.occursIn line || disableMarker.occursIn line)

/-- The spans from line number `i` on. `inBlock` tells whether a block comment is open there and
`start` where the statement started that is still open. -/
def locateFrom (i : Nat) (inBlock : Bool) (start : Option Nat) :
    List Text → Except Unterminated (List Span)
  | [] =>
    match start with
    | some first => .error ⟨.assertion, first + 1⟩
    | none => .ok []
  | line :: rest =>
    let start := if start.isNone && !inBlock && opensAssertion line then some i else start
    let inBlock := Comment.advance inBlock line
    match start with
    | some first =>
      if callClose.occursIn line then
        (locateFrom (i + 1) inBlock none rest).map (⟨.assertion, first, i⟩ :: ·)
      else locateFrom (i + 1) inBlock (some first) rest
    | none => locateFrom (i + 1) inBlock none rest

/-- The spans of all statements to be hidden, in order. A line that begins inside a block comment
starts none. -/
def locateAssertions (lines : List Text) : Except Unterminated (List Span) :=
  locateFrom 0 false none lines

/-- The first line of a statement with a block comment opened before its code. -/
def openHidden (line : Text) : Text :=
  List.replicate (line.indentWidth - 2) ' ' ++ Comment.opener ++ line.trimStart

/-- The last line of a statement with the block comment closed after the end of the call. -/
def closeHidden (line : Text) : Text :=
  match Text.cut callClose line with
  | some (before, after) => before ++ callClose ++ Comment.closer ++ after
  | none => line

/-- Puts one statement into a block comment. -/
def hideSpan (lines : List Text) (span : Span) : List Text :=
  (lines.modify span.first openHidden).modify span.last closeHidden

/-- Puts every assertion into a block comment. -/
def hideAssertions (lines : List Text) : Except Unterminated Revision :=
  (locateAssertions lines).map fun spans => ⟨spans.foldl hideSpan lines, spans.length⟩

end ContractLint.Coverage
