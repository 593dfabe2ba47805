import ContractLint.Text.Basic

/-!
# Problems

A problem ends a run. It is told in one message, with what caused it below, the nearest cause first.
-/

namespace ContractLint.Cli

/-- Why a run ends without its result. -/
structure Problem where
  message : Text
  causes : List Text := []
  deriving DecidableEq, Repr

namespace Problem

/-- A cause after a lead, with its further lines below each other. -/
def indented (lead margin cause : Text) : Text :=
  lead ++ ('\n' :: margin).intercalate (Text.splitAt '\n' cause)

/-- The lines of the causes, which are numbered from zero if there are several. -/
def causeLines : List Text → List Text
  | [cause] => [indented "    " "    " cause]
  | causes => causes.mapIdx fun n cause =>
    indented (List.leftpad 5 ' ' (Text.decimal n) ++ ": ") "       " cause

/-- The report of a problem. -/
def report (p : Problem) : Text :=
  "Error: " ++ p.message ++
    match p.causes with
    | [] => []
    | causes => "\n\nCaused by:" ++ (causeLines causes).flatMap ('\n' :: ·)

end Problem

end ContractLint.Cli
