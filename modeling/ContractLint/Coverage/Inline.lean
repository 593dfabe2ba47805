import ContractLint.Coverage.FileIdentifier
import ContractLint.Coverage.Precondition

/-!
# Preconditions in line

The inline style turns `Require.that(condition, FILE, "message", payload);` into a plain
`require(condition, /*FILE,*/ "Name: message"/*, payload*/);`: the call is renamed, the location
argument and everything after the message are commented out, and the message gets the identifier
that the file declares.

The arguments of a call are edited from left to right. An edit consumes text that is still to be
read and gives what is written in its place, so no edit sees what an earlier one wrote.
-/

namespace ContractLint.Coverage

/-- The name of the built-in call. -/
def builtinCall : Text := "require("

/-- The end of a message that is followed by another argument. -/
def messageEnd : Text := "\","

/-- A call whose end has not been read yet. -/
structure PendingInline where
  progress : Progress
  /-- Whether the opening quote of the message has been read. -/
  messageStarted : Bool := false
  /-- Whether the comment around the payload has been opened. -/
  payloadOpened : Bool := false
  deriving DecidableEq, Repr

/-- A line of arguments while it is edited: the state of the call, the text written and the text
still to be read. -/
structure InlineEdit where
  call : PendingInline
  written : Text := []
  unread : Text
  deriving DecidableEq, Repr

namespace InlineEdit

/-- Comments out the location argument, if the call has come to it. -/
def wrapLocation (e : InlineEdit) : InlineEdit :=
  match e.call.progress with
  | .condition start =>
    match splitLocation? e.unread with
    | some (before, after) =>
      { call := { e.call with progress := .message start }
        written := e.written ++ before ++ Comment.opener ++ locationArgument ++ Comment.closer
        unread := after }
    | none => e
  | _ => e

/-- Puts the file's identifier at the start of the message. -/
def startMessage (fileId : Option Text) (e : InlineEdit) : InlineEdit :=
  match e.call.progress with
  | .message _ =>
    if e.call.messageStarted then e
    else match Text.cut ['"'] e.unread with
      | some (before, after) =>
        let label : Text := match fileId with
          | some name => name ++ ": "
          | none => []
        { call := { e.call with messageStarted := true }
          written := e.written ++ before ++ ['"'] ++ label
          unread := after }
      | none => e
  | _ => e

/-- Opens a comment after the message, if more arguments follow it. -/
def openPayload (e : InlineEdit) : InlineEdit :=
  if e.call.messageStarted && !e.call.payloadOpened then
    match Text.cut messageEnd e.unread with
    | some (before, after) =>
      { call := { e.call with payloadOpened := true }
        written := e.written ++ before ++ ['"'] ++ Comment.opener
        unread := ',' :: after }
    | none => e
  else e

/-- The finished line, and whether the call ends on it. An open payload comment is closed before the
end of the call. -/
def finish (e : InlineEdit) : Text × Bool :=
  match Text.cut callClose e.unread with
  | some (before, after) =>
    let closer := if e.call.payloadOpened then Comment.closer else []
    (e.written ++ before ++ closer ++ callClose ++ after, true)
  | none => (e.written ++ e.unread, false)

/-- All edits of one line of arguments. -/
def edit (fileId : Option Text) (e : InlineEdit) : InlineEdit :=
  (e.wrapLocation.startMessage fileId).openPayload

end InlineEdit

/-- Revises calls from line number `i` on. `fileId` is the identifier declared last, `inBlock` tells
whether a block comment is open. -/
def inlineFrom (i : Nat) (fileId : Option Text) (inBlock : Bool) (call : Option PendingInline) :
    List Text → Except Unterminated Revision
  | [] =>
    match call.bind (·.progress.unterminated?) with
    | some e => .error e
    | none => .ok ⟨[], 0⟩
  | line :: rest =>
    let fileId := (FileIdentifier.declared? line).or fileId
    let opened := if call.isNone then findCall inBlock line else none
    let inBlock := Comment.advance inBlock line
    let started : Option InlineEdit := match call, opened with
      | some call, _ => some { call, unread := line }
      | none, some (before, args) =>
        some { call := { progress := .condition i }, written := before ++ builtinCall, unread := args }
      | none, none => none
    match started with
    | none => (inlineFrom (i + 1) fileId inBlock none rest).map (.prepend [line] 0)
    | some started =>
      let edited := started.edit fileId
      let (written, closed) := edited.finish
      let call := if closed then none else some edited.call
      (inlineFrom (i + 1) fileId inBlock call rest).map
        (.prepend [written] (if opened.isSome then 1 else 0))

/-- Turns every precondition call into the built-in one. -/
def inlinePreconditions (lines : List Text) : Except Unterminated Revision :=
  inlineFrom 0 none false none lines

end ContractLint.Coverage
