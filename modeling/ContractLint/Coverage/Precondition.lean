import ContractLint.Comment
import ContractLint.Coverage.Statement

/-!
# Precondition calls

A precondition is a call `Require.that(condition, FILE, message, …);`. Its condition ends at the
location argument `FILE,` or, without one, at the end of the call. Both styles of revision find
calls by `findCall`; `readArguments` is the step of reading one line of arguments.
-/

namespace ContractLint.Coverage

/-- The start of a precondition, anywhere on a line. -/
def preconditionCall : Text := "Require.that("

/-- The argument between condition and message. -/
def locationArgument : Text := "FILE,"

/-- The text before and after the first precondition call of a line, unless that call is inside a
comment. -/
def findCall (inBlock : Bool) (line : Text) : Option (Text × Text) :=
  (Text.cut preconditionCall line).filter fun (before, _) => !Comment.hides inBlock before

/-- What one line of arguments contributes. -/
structure Arguments where
  /-- The part of the line that belongs to the condition. -/
  condition : Text
  /-- Whether the call ends on the line. -/
  closed : Bool
  deriving DecidableEq, Repr

/-- The text before the location argument and from it on, if it stands before the end of the
call. -/
def splitLocation? (args : Text) : Option (Text × Text) :=
  match Text.cut locationArgument args, Text.cut callClose args with
  | some (condition, after), some (unclosed, _) =>
    if condition.length < unclosed.length then some (condition, after) else none
  | found, _ => found

/-- Reads one line of arguments. The condition goes up to the location argument, or up to the end of
the call if that comes first; past the location argument only the end of the call matters. -/
def readArguments : Progress → Text → Progress × Arguments
  | .condition start, args =>
    match splitLocation? args, Text.cut callClose args with
    | some (condition, after), _ => (.message start, ⟨condition, callClose.occursIn after⟩)
    | none, some (condition, _) => (.condition start, ⟨condition, true⟩)
    | none, none => (.condition start, ⟨args, false⟩)
  | .message start, args => (.message start, ⟨[], callClose.occursIn args⟩)
  | state, _ => (state, ⟨[], false⟩)

/-- Reads several lines of arguments, giving the progress after each. -/
def readAll (state : Progress) : List Text → List (Progress × Arguments)
  | [] => []
  | args :: rest =>
    let step := readArguments state args
    step :: readAll step.1 rest

end ContractLint.Coverage
