import ContractLint.Coverage.Precondition
import ContractLint.Text.Blank

/-!
# Guards above preconditions

The guard style leaves precondition calls alone and puts an empty `if` with the same condition above
each one, so that a coverage tool sees both branches. A call right below a guard already has one.
-/

namespace ContractLint.Coverage

/-- The empty body of a guard. -/
def guardBody : Text := "\x7b /* FOR COVERAGE TESTING */ \x7d"

/-- Whether a line is a guard. -/
def isGuard (line : Text) : Bool := guardBody.isSuffixOf line.trimEnd

/-- The guard for a condition given in pieces. The comma that ended the argument is dropped. -/
def guardLine (indent : Text) (pieces : List Text) : Text :=
  let joined : Text := [' '].intercalate pieces
  let condition : Text := (joined.trimEnd.dropEndWhile (· == ',')).trimEnd
  indent ++ "if (" ++ condition ++ ") " ++ guardBody

/-- A call whose end has not been read yet. -/
structure PendingGuard where
  progress : Progress
  indent : Text
  /-- Whether the line above the call is a guard. -/
  guarded : Bool
  /-- The condition read so far, line by line. -/
  pieces : List Text
  /-- The lines of the call read so far. -/
  held : List Text
  deriving DecidableEq, Repr

namespace PendingGuard

/-- The state right after a call was found on a line. -/
def opening (written : Nat) (previous : Option Text) (line : Text) : PendingGuard where
  progress := .condition written
  indent := line.indent
  guarded := previous.any isGuard
  pieces := []
  held := []

/-- Adds a line and the arguments read from it. -/
def read (call : PendingGuard) (line : Text) (progress : Progress) (condition : Text) :
    PendingGuard :=
  { call with
    progress
    pieces := if condition.trim.isEmpty then call.pieces else call.pieces ++ [condition.trim]
    held := call.held ++ [line] }

/-- The guard that a finished call gets. -/
def guards (call : PendingGuard) : List Text :=
  if call.guarded then [] else [guardLine call.indent call.pieces]

end PendingGuard

/-- Inserts guards from here on. `written` counts the lines written before the open call, `previous`
is the line above, `inBlock` tells whether a block comment is open. -/
def guardFrom (written : Nat) (previous : Option Text) (inBlock : Bool)
    (call : Option PendingGuard) : List Text → Except Unterminated Revision
  | [] =>
    match call.bind (·.progress.unterminated?) with
    | some e => .error e
    | none => .ok ⟨[], 0⟩
  | line :: rest =>
    let reading : Option (PendingGuard × Text) := match call with
      | some call => some (call, line)
      | none => (findCall inBlock line).map fun (_, args) =>
          (PendingGuard.opening written previous line, args)
    let inBlock := Comment.advance inBlock line
    match reading with
    | none => (guardFrom (written + 1) (some line) inBlock none rest).map (.prepend [line] 0)
    | some (call, args) =>
      let (progress, step) := readArguments call.progress args
      let call := call.read line progress step.condition
      if step.closed then
        let lines := call.guards ++ call.held
        (guardFrom (written + lines.length) (some line) inBlock none rest).map
          (.prepend lines call.guards.length)
      else guardFrom written (some line) inBlock (some call) rest

/-- Inserts a guard above every precondition call that has none. -/
def insertGuards (lines : List Text) : Except Unterminated Revision :=
  guardFrom 0 none false none lines

end ContractLint.Coverage
