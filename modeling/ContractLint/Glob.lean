import ContractLint.Text.Basic

/-!
# Glob patterns

Patterns for file names: `?` is any character, `*` any run of characters, `[abc]` and `[!a-z]` one
character in or outside a set, and `**` as a whole path component any run of components. There are
no escapes. A pattern is read into pieces (`Glob.ofText`), or refused at the first fault from the
left.
-/

namespace ContractLint

namespace Glob

/-- One piece of a pattern. -/
inductive Piece where
  | char (c : Char)
  | anyChar
  | anyRun
  /-- Any run of whole components. -/
  | anyDepth
  /-- A character in the ranges, or outside them. -/
  | set (negated : Bool) (ranges : List (Char × Char))
  deriving DecidableEq, Repr

/-- What can be wrong with a pattern. -/
inductive Fault where
  | range
  | stars
  | component
  deriving DecidableEq, Repr

/-- The wording of a fault. -/
def Fault.message : Fault → Text
  | range => "invalid range pattern"
  | stars => "wildcards are either regular `*` or recursive `**`"
  | component => "recursive wildcards must form a single path component"

/-- A fault and where it is, in characters from the start. -/
structure Error where
  position : Nat
  fault : Fault
  deriving DecidableEq, Repr

/-- The wording of an error. -/
def Error.message (e : Error) : Text :=
  "Pattern syntax error near position " ++ Text.decimal e.position ++ ": " ++ e.fault.message

/-! ## Reading patterns -/

/-- The ranges in the brackets of a set. A dash between two characters makes a range. -/
def ranges : Text → List (Char × Char)
  | [] => []
  | a :: '-' :: b :: rest => (a, b) :: ranges rest
  | a :: rest => (a, a) :: ranges rest

/-- Reads a set after its opening bracket. The closing bracket is the first one after at least one
character. -/
def set? (t : Text) : Option (Piece × Text) :=
  let (negated, body) := match t with
    | '!' :: body => (true, body)
    | body => (false, body)
  match body with
  | [] => none
  | first :: body =>
    (Text.cut [']'] body).map fun (inside, rest) => (.set negated (ranges (first :: inside)), rest)

/-- Reads a run of `count` stars that starts at `position` after the character `before`. -/
def starRun (position count : Nat) (before : Option Char) (rest : Text) :
    Except Error (Piece × Text) :=
  if count = 1 then .ok (.anyRun, rest)
  else if count > 2 then .error ⟨position + 2, .stars⟩
  else if before.any (· != '/') then .error ⟨position - 1, .component⟩
  else
    match rest with
    | [] => .ok (.anyDepth, [])
    | '/' :: rest => .ok (.anyDepth, rest)
    | _ => .error ⟨position + 2, .component⟩

/-- Reads the first piece of a pattern at `position` after the character `before`. -/
def firstPiece (position : Nat) (before : Option Char) (c : Char) (t : Text) :
    Except Error (Piece × Text) :=
  if c = '?' then .ok (.anyChar, t)
  else if c = '*' then
    let more := t.takeWhile (· == '*')
    starRun position (more.length + 1) before (t.drop more.length)
  else if c = '[' then
    match set? t with
    | some r => .ok r
    | none => .error ⟨position, .range⟩
  else .ok (.char c, t)

/-- Reads a pattern from `position` on, after the character `before`. -/
def piecesFrom (position : Nat) (before : Option Char) (t : Text) : Except Error (List Piece) :=
  match t with
  | [] => .ok []
  | c :: rest =>
    match firstPiece position before c rest with
    | .error e => .error e
    | .ok (piece, after) =>
      if after.length ≤ rest.length then
        let used := rest.length + 1 - after.length
        (piecesFrom (position + used) ((c :: rest)[used - 1]?) after).map (piece :: ·)
      else .ok [piece]
termination_by t.length
decreasing_by simp; omega

/-- Reads a pattern. -/
def ofText (t : Text) : Except Error (List Piece) := piecesFrom 0 none t

/-! ## Matching -/

/-- The text and what is left of it after each of its characters. -/
def suffixes : Text → List Text
  | [] => [[]]
  | c :: t => (c :: t) :: suffixes t

/-- What is left of the text after each of its slashes. -/
def afterSlashes : Text → List Text
  | [] => []
  | c :: t => if c = '/' then t :: afterSlashes t else afterSlashes t

/-- Whether a character fits a piece that stands for one character. -/
def Piece.fits (c : Char) : Piece → Bool
  | char d => c == d
  | anyChar => true
  | set negated ranges => (ranges.any fun (lo, hi) => lo ≤ c && c ≤ hi) != negated
  | _ => false

/-- Whether a name fits a pattern as a whole. A run of components reaches from the start of the
text or one of its slashes back, or takes all of the text. -/
def fits : List Piece → Text → Bool
  | [], t => t.isEmpty
  | .anyRun :: rest, t => (suffixes t).any (fits rest)
  | .anyDepth :: rest, t => (t :: afterSlashes t ++ [[]]).any (fits rest)
  | _ :: _, [] => false
  | piece :: rest, c :: t => piece.fits c && fits rest t

end Glob

end ContractLint
