import ContractLint.Listing
import ContractLint.RuleSet

/-!
# Requests

What can be asked for on the command line, after all words have been understood.
-/

namespace ContractLint.Cli

/-- One task of the program. -/
inductive Request where
  /-- Check the files of a target and list what was found. -/
  | check (target : Target) (project : Path) (format : Format) (fix : Bool)
  /-- Prepare the contracts for a coverage run. -/
  | coverage (project : Path) (assertsOnly : Bool) (style : Option PreconditionStyle)
  /-- List the rules. -/
  | listRules
  /-- Write a settings file with the defaults. -/
  | init (force : Bool)
  deriving DecidableEq, Repr

/-- A request and the settings file named with it. -/
structure Invocation where
  request : Request
  settingsFile : Option Path
  deriving DecidableEq, Repr

/-- Why the arguments lead to no request. -/
inductive Stop where
  /-- They are not understood. -/
  | usage
  /-- They ask for help. -/
  | help
  /-- They ask for the version. -/
  | version
  deriving DecidableEq, Repr

end ContractLint.Cli
