import ContractLint.Text.Basic

/-!
# TOML strings

Basic strings stand in double quotes and know escapes, literal strings stand in single quotes and
know none. Three quotes in place of one allow line breaks inside. Each reader takes the text after
the opening quotes and gives the string and what follows its closing quotes.
-/

namespace ContractLint.Toml

/-- What reading a thing from the start of a text gives: the thing and the rest. -/
abbrev Reader (α : Type) := Text → Option (α × Text)

/-- Whether a character may stand in a comment: anything but control characters, tabs allowed. -/
def isPlain (c : Char) : Bool := c == '\t' || (' ' ≤ c && c != '\x7f')

/-- The value of a digit in a base up to sixteen. -/
def digitValue? (base : Nat) (c : Char) : Option Nat :=
  let value? : Option Nat :=
    if '0' ≤ c && c ≤ '9' then some (c.toNat - '0'.toNat)
    else if 'a' ≤ c && c ≤ 'f' then some (c.toNat - 'a'.toNat + 10)
    else if 'A' ≤ c && c ≤ 'F' then some (c.toNat - 'A'.toNat + 10)
    else none
  value?.filter (· < base)

/-- The number that digits of a base write. -/
def ofDigits? (base : Nat) (digits : Text) : Option Nat :=
  digits.foldlM (fun n c => (digitValue? base c).map (n * base + ·)) 0

/-- The character that the hexadecimal digits of an escape name; surrogates are none. -/
def escaped? (digits : Text) : Option Char := do
  let n ← ofDigits? 16 digits
  if n.isValidChar then some (Char.ofNat n) else none

namespace Quoted

/-- Puts a character before the string that was read. -/
def cons (c : Char) (r : Text × Text) : Text × Text := (c :: r.1, r.2)

/-- The character that a single letter after a backslash stands for. -/
def shortEscape? (c : Char) : Option Char :=
  [('b', '\x08'), ('t', '\t'), ('n', '\n'), ('f', '\x0c'), ('r', '\r'), ('"', '"'), ('\\', '\\')].lookup c

/-- A basic string on one line. -/
def basic : Reader Text
  | [] => none
  | '"' :: rest => some ([], rest)
  | '\\' :: 'u' :: a :: b :: c :: d :: rest => do
    let e ← escaped? [a, b, c, d]
    (basic rest).map (cons e)
  | '\\' :: 'U' :: a :: b :: c :: d :: e :: f :: g :: h :: rest => do
    let e ← escaped? [a, b, c, d, e, f, g, h]
    (basic rest).map (cons e)
  | '\\' :: c :: rest => do
    let e ← shortEscape? c
    (basic rest).map (cons e)
  | c :: rest => if isPlain c && c != '\\' then (basic rest).map (cons c) else none

/-- A literal string on one line. -/
def literal : Reader Text
  | [] => none
  | '\'' :: rest => some ([], rest)
  | c :: rest => if isPlain c then (literal rest).map (cons c) else none

/-- Whether only blanks stand before the end of the line. -/
def endsLine (t : Text) : Bool :=
  match t.dropWhile (fun c => c == ' ' || c == '\t') with
  | '\n' :: _ => true
  | '\r' :: '\n' :: _ => true
  | _ => false

/-- A basic string over several lines. A backslash at the end of a line drops the blanks and line
breaks up to the next other character (`skipping`). Line breaks read as line feeds, and up to two
quotes may stand right before the closing ones. -/
def basicLines (skipping : Bool) : Reader Text
  | [] => none
  | '"' :: '"' :: '"' :: '"' :: '"' :: rest => some (['"', '"'], rest)
  | '"' :: '"' :: '"' :: '"' :: rest => some (['"'], rest)
  | '"' :: '"' :: '"' :: rest => some ([], rest)
  | '\r' :: '\n' :: rest =>
    if skipping then basicLines true rest else (basicLines false rest).map (cons '\n')
  | '\n' :: rest =>
    if skipping then basicLines true rest else (basicLines false rest).map (cons '\n')
  | '\\' :: 'u' :: a :: b :: c :: d :: rest => do
    let e ← escaped? [a, b, c, d]
    (basicLines false rest).map (cons e)
  | '\\' :: 'U' :: a :: b :: c :: d :: e :: f :: g :: h :: rest => do
    let e ← escaped? [a, b, c, d, e, f, g, h]
    (basicLines false rest).map (cons e)
  | '\\' :: c :: rest =>
    match shortEscape? c with
    | some e => (basicLines false rest).map (cons e)
    | none => if endsLine (c :: rest) then basicLines true (c :: rest) else none
  | c :: rest =>
    if skipping && (c == ' ' || c == '\t') then basicLines true rest
    else if isPlain c && c != '\\' then (basicLines false rest).map (cons c)
    else none

/-- A literal string over several lines. Line breaks read as line feeds, and up to two quotes may
stand right before the closing ones. -/
def literalLines : Reader Text
  | [] => none
  | '\'' :: '\'' :: '\'' :: '\'' :: '\'' :: rest => some (['\'', '\''], rest)
  | '\'' :: '\'' :: '\'' :: '\'' :: rest => some (['\''], rest)
  | '\'' :: '\'' :: '\'' :: rest => some ([], rest)
  | '\r' :: '\n' :: rest => (literalLines rest).map (cons '\n')
  | '\n' :: rest => (literalLines rest).map (cons '\n')
  | c :: rest => if isPlain c then (literalLines rest).map (cons c) else none

/-- A line break right after the opening quotes does not belong to the string. -/
def skipFirstBreak : Text → Text
  | '\r' :: '\n' :: rest => rest
  | '\n' :: rest => rest
  | t => t

/-- A string on one line, of either kind. -/
def line : Reader Text
  | '"' :: rest => basic rest
  | '\'' :: rest => literal rest
  | _ => none

/-- A string of any kind. -/
def string : Reader Text
  | '"' :: '"' :: '"' :: rest => basicLines false (skipFirstBreak rest)
  | '\'' :: '\'' :: '\'' :: rest => literalLines (skipFirstBreak rest)
  | t => line t

end Quoted

end ContractLint.Toml
