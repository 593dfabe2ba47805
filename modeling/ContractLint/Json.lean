import ContractLint.Text.Basic

/-!
# JSON

Values and their two written forms: `Json.compact` on one line, `Json.pretty` with one item on each
line, indented by two spaces. Strings escape only quotes, backslashes and control characters.
-/

namespace ContractLint

/-- A JSON value. Numbers are counts or whatever else was written, as text. -/
inductive Json where
  | null
  | bool (value : Bool)
  | nat (value : Nat)
  /-- A number that is not a natural one. -/
  | otherNumber (text : Text)
  | string (text : Text)
  | array (items : List Json)
  | object (fields : List (Text × Json))

namespace Json

/-- One character of a string, escaped where it has to be. -/
def escape (c : Char) : Text :=
  if c = '"' then "\\\""
  else if c = '\\' then "\\\\"
  else if c = '\x08' then "\\b"
  else if c = '\t' then "\\t"
  else if c = '\n' then "\\n"
  else if c = '\x0c' then "\\f"
  else if c = '\r' then "\\r"
  else if c < ' ' then "\\u00" ++ [Nat.digitChar (c.toNat / 16), Nat.digitChar (c.toNat % 16)]
  else [c]

/-- A string in quotes. -/
def quote (t : Text) : Text := '"' :: t.flatMap escape ++ ['"']

/-- A value that has no items. -/
def scalar : Json → Text
  | null => "null"
  | bool b => if b then "true" else "false"
  | nat n => Text.decimal n
  | otherNumber t => t
  | string t => quote t
  | _ => []

mutual

/-- The value on one line, without blanks. -/
def compact : Json → Text
  | array items => '[' :: compactItems items ++ [']']
  | object fields => '\x7b' :: compactFields fields ++ ['\x7d']
  | v => v.scalar

/-- Items divided by commas. -/
def compactItems : List Json → Text
  | [] => []
  | [v] => v.compact
  | v :: rest => v.compact ++ ',' :: compactItems rest

/-- Fields divided by commas. -/
def compactFields : List (Text × Json) → Text
  | [] => []
  | [(name, v)] => quote name ++ ':' :: v.compact
  | (name, v) :: rest => quote name ++ ':' :: v.compact ++ ',' :: compactFields rest

end

/-- A line break and the indentation of a nesting depth. -/
def newLine (depth : Nat) : Text := '\n' :: List.replicate (2 * depth) ' '

mutual

/-- The value with one item on each line, at a nesting depth. -/
def prettyAt (depth : Nat) : Json → Text
  | array [] => "[]"
  | object [] => "\x7b\x7d"
  | array items => '[' :: prettyItems (depth + 1) items ++ newLine depth ++ [']']
  | object fields => '\x7b' :: prettyFields (depth + 1) fields ++ newLine depth ++ ['\x7d']
  | v => v.scalar

/-- Items on lines of their own, divided by commas. -/
def prettyItems (depth : Nat) : List Json → Text
  | [] => []
  | [v] => newLine depth ++ v.prettyAt depth
  | v :: rest => newLine depth ++ v.prettyAt depth ++ ',' :: prettyItems depth rest

/-- Fields on lines of their own, divided by commas. -/
def prettyFields (depth : Nat) : List (Text × Json) → Text
  | [] => []
  | [(name, v)] => newLine depth ++ quote name ++ ": " ++ v.prettyAt depth
  | (name, v) :: rest =>
    newLine depth ++ quote name ++ ": " ++ v.prettyAt depth ++ ',' :: prettyFields depth rest

end

/-- The value with one item on each line. -/
def pretty (v : Json) : Text := v.prettyAt 0

end Json

end ContractLint
