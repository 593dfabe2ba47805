import ContractLint.Toml.Scalar

/-!
# TOML documents

A document is a sequence of lines: key-value pairs, headers, comments and empty lines. Arrays may
run over several lines, inline tables may not. Nesting is limited, as are the parts of a key.
-/

namespace ContractLint.Toml

/-- Brackets and braces nest less deep than this, and a key has fewer parts. -/
def nestingLimit : Nat := 80

/-- Skips tabs and spaces. -/
def skipSpaces (t : Text) : Text := t.dropWhile fun c => c == ' ' || c == '\t'

/-- Skips blanks, line breaks and comments. There is no answer if a comment holds a control
character. -/
def skipLines (inComment : Bool) : Text → Option Text
  | [] => some []
  | '\r' :: '\n' :: rest => skipLines false rest
  | '\n' :: rest => skipLines false rest
  | c :: rest =>
    if inComment then if isPlain c then skipLines true rest else none
    else if c == ' ' || c == '\t' then skipLines false rest
    else if c == '#' then skipLines true rest
    else some (c :: rest)

/-- The rest after the end of a line, which may hold blanks and a comment. -/
def endLine (t : Text) : Option Text :=
  let rest := match skipSpaces t with
    | '#' :: comment => comment.dropWhile isPlain
    | rest => rest
  match rest with
  | [] => some []
  | '\n' :: rest => some rest
  | '\r' :: '\n' :: rest => some rest
  | _ => none

/-! ## Keys -/

/-- Whether a character may stand in a key without quotes. -/
def isKeyChar (c : Char) : Bool := c.isAlphanum || c == '_' || c == '-'

/-- One part of a key. -/
def keyPart : Reader Text := fun t =>
  let bare := t.takeWhile isKeyChar
  if bare.isEmpty then Quoted.line t else some (bare, t.drop bare.length)

/-- The parts of a key after one of its dots, with the blanks after them. -/
def keyParts (t : Text) : Option (List Text × Text) :=
  match keyPart (skipSpaces t) with
  | none => none
  | some (part, rest) =>
    match skipSpaces rest with
    | '.' :: rest =>
      if rest.length < t.length then (keyParts rest).map fun (parts, rest) => (part :: parts, rest)
      else none
    | rest => some ([part], rest)
termination_by t.length

/-- A key: the parts before the last one, and the last one. -/
def key : Reader (List Text × Text) := fun t => do
  let (parts, rest) ← keyParts t
  let last ← parts.getLast?
  if parts.length < nestingLimit then some ((parts.dropLast, last), rest) else none

/-- A key-value pair. -/
def pair (value : Reader Value) : Reader ((List Text × Text) × Value) := fun t => do
  let (name, rest) ← key t
  match rest with
  | '=' :: rest => do
    let (v, rest) ← value (skipSpaces rest)
    some ((name, v), rest)
  | _ => none

/-! ## Values -/

/-- The elements of an array up to its closing bracket. A comma may follow the last one. -/
def elements (value : Reader Value) (t : Text) : Option (List Value × Text) :=
  match skipLines false t with
  | some (']' :: rest) => some ([], rest)
  | some start =>
    match value start with
    | none => none
    | some (v, rest) =>
      match skipLines false rest with
      | some (',' :: rest) =>
        if rest.length < t.length then (elements value rest).map fun (vs, rest) => (v :: vs, rest)
        else none
      | some (']' :: rest) => some ([v], rest)
      | _ => none
  | none => none
termination_by t.length

/-- The pairs of an inline table up to its closing brace, put into the table read so far. No comma
may follow the last one. -/
def pairs (value : Reader Value) (entries : Entries) (t : Text) : Option (Entries × Text) :=
  match pair value t with
  | none => none
  | some (((path, name), v), rest) =>
    match entries.insert path name v, skipSpaces rest with
    | some entries, ',' :: rest => if rest.length < t.length then pairs value entries rest else none
    | some entries, '\x7d' :: rest => some (entries, rest)
    | _, _ => none
termination_by t.length

/-- A value inside brackets that may still nest `levels` deep. -/
def value (levels : Nat) (t : Text) : Option (Value × Text) :=
  match levels, t with
  | _, '"' :: rest => (Quoted.string ('"' :: rest)).map fun (s, rest) => (.string s, rest)
  | _, '\'' :: rest => (Quoted.string ('\'' :: rest)).map fun (s, rest) => (.string s, rest)
  | levels + 1, '[' :: rest => (elements (value levels) rest).map fun (vs, rest) => (.array vs, rest)
  | levels + 1, '\x7b' :: rest =>
    match skipSpaces rest with
    | '\x7d' :: rest => some (.table .inline [], rest)
    | rest => (pairs (value levels) [] rest).map fun (es, rest) => (.table .inline es, rest)
  | _, t => Scalar.read t

/-! ## Lines -/

/-- A document while it is read: the root table and the path of the table that pairs go to. -/
structure Draft where
  root : Entries := []
  current : List Text := []

/-- Reads a header up to its closing brackets and starts its table. -/
def header (start : List Text → Text → Entries → Option Entries) (closing : Text) (d : Draft) :
    Reader Draft := fun t => do
  let ((path, name), rest) ← key t
  if closing.isPrefixOf rest then
    some ({ root := ← start path name d.root, current := path ++ [name] }, rest.drop closing.length)
  else none

/-- Reads what stands on one line before its end. -/
def line (d : Draft) : Reader Draft := fun t =>
  match skipSpaces t with
  | '[' :: '[' :: rest => header Entries.defineNext "]]" d rest
  | '[' :: rest => header Entries.define "]" d rest
  | rest =>
    if rest.isEmpty || rest.head?.any (fun c => c == '#' || c == '\n' || c == '\r') then some (d, rest)
    else do
      let ((((path, name), v)), rest) ← pair (value (nestingLimit - 1)) rest
      let root ← Entries.modifyAt false (fun _ table => table.insert path name v) d.current .header d.root
      some ({ d with root }, rest)

/-- Reads all lines. -/
def lines (d : Draft) (t : Text) : Option Draft :=
  if t.isEmpty then some d
  else
    match line d t with
    | none => none
    | some (d, rest) =>
      match endLine rest with
      | some rest => if rest.length < t.length then lines d rest else none
      | none => none
termination_by t.length

/-- The root table of a document. A byte order mark at its start is skipped. -/
def document? (t : Text) : Option Entries :=
  let body := match t with
    | '\ufeff' :: rest => rest
    | t => t
  (lines {} body).map (·.root)

end ContractLint.Toml
