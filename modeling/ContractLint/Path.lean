import ContractLint.Text.Basic

/-!
# Paths

A path is kept as it was written, because messages and ignore lists go by its text. What it denotes
goes by its components: the pieces between slashes, where empty pieces and `.` count for nothing
except at the very start. Two paths are ordered by their components, not by their texts, so
`a/b.sol` stands before `a-b.sol`.
-/

namespace ContractLint

/-- A path as it was written. -/
structure Path where
  text : Text
  deriving DecidableEq, Repr, Inhabited

instance : Coe String Path := ⟨fun s => ⟨s.toList⟩⟩

/-- One step of a path. -/
inductive Component where
  | root
  | current
  | parent
  | normal (name : Text)
  deriving DecidableEq, Repr

namespace Component

/-- The component that a piece between two slashes stands for. -/
def ofPiece (piece : Text) : Component := if piece = ['.', '.'] then .parent else .normal piece

/-- The place of a kind of component in the order of components. -/
def rank : Component → Nat
  | root => 0
  | current => 1
  | parent => 2
  | normal _ => 3

/-- Names are ordered character by character, and every other component stands before all names. -/
def lt : Component → Component → Bool
  | normal a, normal b => decide (a < b)
  | a, b => decide (a.rank < b.rank)

/-- The order of component lists: the first difference decides, and a list stands before its
extensions. -/
def listLe : List Component → List Component → Bool
  | [], _ => true
  | _ :: _, [] => false
  | a :: as, b :: bs => if a = b then listLe as bs else a.lt b

end Component

namespace Path

/-- Whether a piece between slashes counts for nothing. -/
def isFiller (piece : Text) : Bool := piece.isEmpty || piece == ['.']

/-- Whether the path starts at the root directory. -/
def isAbsolute (p : Path) : Bool := p.text.head? == some '/'

/-- The components of a path. -/
def components (p : Path) : List Component :=
  match Text.splitAt '/' p.text with
  | [] => []
  | first :: rest =>
    let named := (rest.filter (!isFiller ·)).map Component.ofPiece
    if first.isEmpty then if p.isAbsolute then .root :: named else named
    else if first = ['.'] then .current :: named
    else Component.ofPiece first :: named

/-- The order of paths, by components. -/
def le (p q : Path) : Bool := Component.listLe p.components q.components

/-- The name of the last component, empty if that is not a name. -/
def fileName (p : Path) : Text :=
  match p.components.getLast? with
  | some (.normal name) => name
  | _ => []

/-- The file name up to its last dot; a dot that starts the name does not count. -/
def fileStem (p : Path) : Text :=
  match Text.cutLast '.' p.fileName with
  | some (stem, _) => if stem.isEmpty then p.fileName else stem
  | none => p.fileName

/-- The second path seen from the first. An absolute path stays as it is. -/
def join (p q : Path) : Path :=
  if q.isAbsolute || p.text.isEmpty then q
  else if p.text.getLast? = some '/' then ⟨p.text ++ q.text⟩
  else ⟨p.text ++ '/' :: q.text⟩

/-! ## Paths below a directory -/

/-- Pieces joined by slashes. -/
def joinPieces (pieces : List Text) : Text := ['/'].intercalate pieces

/-- The pieces left after the first `n` named ones. -/
def dropNamed : Nat → List Text → List Text
  | 0, pieces => pieces
  | _ + 1, [] => []
  | n + 1, piece :: pieces => if isFiller piece then dropNamed (n + 1) pieces else dropNamed n pieces

/-- The pieces without fillers at the end. -/
def dropEndFillers (pieces : List Text) : List Text := (pieces.reverse.dropWhile isFiller).reverse

/-- The path without fillers at its end. -/
def withoutEndFillers (p : Path) : Path :=
  match Text.splitAt '/' p.text with
  | [] => p
  | first :: rest =>
    match dropEndFillers rest with
    | [] => if p.isAbsolute then ⟨['/']⟩ else ⟨first⟩
    | kept => ⟨joinPieces (first :: kept)⟩

/-- What remains of `p` below the directory `base`, if the components of `base` start those of `p`.
Fillers inside the remaining text are kept. -/
def stripBase? (base p : Path) : Option Path :=
  match base.components with
  | [] => some p.withoutEndFillers
  | comps =>
    if comps.isPrefixOf p.components then
      let rest := dropNamed (comps.length - 1) (Text.splitAt '/' p.text).tail
      some ⟨joinPieces (dropEndFillers (rest.dropWhile isFiller))⟩
    else none

/-- The path seen from a directory, or the path itself if it does not lie below it. -/
def relativeTo (p base : Path) : Path := (stripBase? base p).getD p

end Path

end ContractLint
