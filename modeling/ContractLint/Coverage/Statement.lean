import ContractLint.Text.Basic

/-!
# Statements

A statement opens on the line that holds its call and closes on the first line, the same one
included, that holds `);`. At most one statement is open at a time. A file that ends inside a
statement is refused.
-/

namespace ContractLint.Coverage

/-- The end of a call. -/
def callClose : Text := ");"

/-- The calls that are looked for. -/
inductive StatementKind where
  /-- An `assert(…)` call, or any line marked to be disabled. -/
  | assertion
  /-- A `Require.that(…)` call. -/
  | precondition
  deriving DecidableEq, Repr

/-- The word for a kind of statement. -/
def StatementKind.name : StatementKind → Text
  | .assertion => "assertion"
  | .precondition => "precondition"

/-- A statement was still open at the end of the file. -/
structure Unterminated where
  kind : StatementKind
  /-- The line it is reported at, counted from one. -/
  line : Nat
  deriving DecidableEq, Repr

/-- The wording of the error. -/
def Unterminated.message (e : Unterminated) : Text :=
  "Unterminated " ++ e.kind.name ++ " starting at line " ++ Text.decimal e.line ++
    ": no `);` before end of file"

/-- How far a scan has come: between statements, or inside one that started on line `start`, counted
from zero. -/
inductive Progress where
  | idle
  | assertion (start : Nat)
  /-- In the condition of a precondition. -/
  | condition (start : Nat)
  /-- Past the location argument of a precondition. -/
  | message (start : Nat)
  deriving DecidableEq, Repr

namespace Progress

/-- Whether no statement is open. -/
def isIdle (p : Progress) : Bool := p == idle

/-- The line the open statement started on. -/
def start? : Progress → Option Nat
  | idle => none
  | assertion start | condition start | message start => some start

/-- The kind of the open statement. -/
def kind? : Progress → Option StatementKind
  | idle => none
  | assertion _ => some .assertion
  | condition _ | message _ => some .precondition

/-- The error for a file that ends here, if a statement is open. -/
def unterminated? (p : Progress) : Option Unterminated :=
  match p.kind?, p.start? with
  | some kind, some start => some ⟨kind, start + 1⟩
  | _, _ => none

end Progress

/-- The lines `first` to `last`, both included and counted from zero, of one statement. -/
structure Span where
  kind : StatementKind
  first : Nat
  last : Nat
  deriving DecidableEq, Repr

/-- Lines after a revision, with the number of statements that it changed. -/
structure Revision where
  lines : List Text
  changed : Nat
  deriving DecidableEq, Repr

/-- Puts further lines and changes before those of a revision. -/
def Revision.prepend (lines : List Text) (changed : Nat) (r : Revision) : Revision :=
  ⟨lines ++ r.lines, changed + r.changed⟩

end ContractLint.Coverage
