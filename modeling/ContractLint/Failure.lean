import ContractLint.Coverage.Statement
import ContractLint.FileTree
import ContractLint.Glob

/-!
# Failures of a run

Why a run over a file tree stops, and how that is told. The wording of a failure is followed by the
wording of what caused it, if that has its own.
-/

namespace ContractLint

/-- Why a run stops. -/
inductive Failure where
  | pattern (error : Glob.Error)
  | ignoreList (path : Path) (cause : AccessError)
  | read (path : Path) (cause : AccessError)
  | statement (path : Path) (error : Coverage.Unterminated)
  deriving DecidableEq, Repr

namespace Failure

/-- The wording of the cause. -/
def cause : Failure → Text
  | pattern e => e.message
  | ignoreList _ cause => cause.message
  | read _ cause => cause.message
  | statement _ e => e.message

/-- The wording of the failure. -/
def message (f : Failure) : Text :=
  match f with
  | pattern _ => "Invalid file pattern: " ++ f.cause
  | ignoreList path _ => "Failed to read ignore list " ++ path.text ++ ": " ++ f.cause
  | read path _ => "Failed to read " ++ path.text ++ ": " ++ f.cause
  | statement path _ => path.text ++ ": " ++ f.cause

end Failure

end ContractLint
