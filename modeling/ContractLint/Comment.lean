import ContractLint.Text.Basic

/-!
# Comments

Block comments run from `/*` to the next `*/`, possibly over several lines, and do not nest. Line
comments run from `//` to the end of the line. Scanning a line jumps from delimiter to delimiter;
all that is carried to the next line is whether a block comment is open.
-/

namespace ContractLint

/-- What a place in a source text belongs to. -/
inductive Region where
  | code
  | block
  | line
  deriving DecidableEq, Repr

namespace Comment

/-- The opening of a block comment. -/
def opener : Text := "/*"

/-- The end of a block comment. -/
def closer : Text := "*/"

/-- The start of a line comment. -/
def lineMark : Text := "//"

/-- The region that the end of `t` belongs to, where `inBlock` tells whether a block comment is open
at its start. Outside comments the first of the two openings decides. -/
def scan (inBlock : Bool) (t : Text) : Region :=
  if inBlock then
    match _h : Text.cut closer t with
    | some (_, rest) => scan false rest
    | none => .block
  else
    let marked := Text.cut lineMark t
    match _h : Text.cut opener t with
    | some (before, rest) =>
      if marked.all fun (unmarked, _) => before.length < unmarked.length then scan true rest
      else .line
    | none => if marked.isSome then .line else .code
termination_by t.length
decreasing_by
  · have := Text.cut_length _h
    simp [closer] at this
    omega
  · have := Text.cut_length _h
    simp [opener] at this
    omega

/-- Whether what follows `before` on its line is inside a comment. -/
def hides (inBlock : Bool) (before : Text) : Bool := scan inBlock before != .code

/-- Whether byte `pos` of a line is inside a comment. There is no answer for a position past the end
of the line or inside a character. -/
def hidesAt? (inBlock : Bool) (line : Text) (pos : Nat) : Option Bool :=
  (Text.takeBytes? pos line).map (hides inBlock)

/-- Whether a block comment is open after a line. -/
def advance (inBlock : Bool) (line : Text) : Bool := scan inBlock line == .block

/-- Whether a block comment is open after several lines. -/
def advanceAll (inBlock : Bool) (lines : List Text) : Bool := lines.foldl advance inBlock

example : scan false "a /* b */ c // d" = .line := by decide +kernel

example : scan false "/*/ a" = .block ∧ scan false "//*" = .line := by decide +kernel

end Comment

end ContractLint
