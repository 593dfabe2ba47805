import ContractLint.Toml.Quoted
import ContractLint.Toml.Value

/-!
# TOML numbers, dates and truth values

These values hold no quotes or brackets, so each is one run of characters, a token, which is
classified as a whole. A date and a time may also be divided by a single space.
-/

namespace ContractLint.Toml.Scalar

/-! ## Numbers -/

/-- The digits of a run in which underscores may stand between digits. -/
def digitRun? (base : Nat) (t : Text) : Option Text :=
  let groups := Text.splitAt '_' t
  if groups.all fun g => !g.isEmpty && g.all fun c => (digitValue? base c).isSome then
    some groups.flatten
  else none

/-- Splits off a sign. -/
def splitSign : Text → Bool × Text
  | '-' :: rest => (true, rest)
  | '+' :: rest => (false, rest)
  | t => (false, t)

/-- The digits of a decimal whole number, which has no leading zero. -/
def wholeDigits? (t : Text) : Option Text := do
  let digits ← digitRun? 10 t
  if digits.length > 1 && digits.head? == some '0' then none else some digits

/-- An integer of 64 bits. Only decimal numbers have a sign. -/
def integer? (t : Text) : Option Int := do
  let value : Int ← match t with
    | '0' :: 'x' :: rest => do ofDigits? 16 (← digitRun? 16 rest)
    | '0' :: 'o' :: rest => do ofDigits? 8 (← digitRun? 8 rest)
    | '0' :: 'b' :: rest => do ofDigits? 2 (← digitRun? 2 rest)
    | _ => do
      let (negative, magnitude) := splitSign t
      let n : Int ← ofDigits? 10 (← wholeDigits? magnitude)
      pure (if negative then -n else n)
  let limit : Int := Nat.pow 2 63
  if -limit ≤ value && value < limit then some value else none

/-- The parts of a decimal fraction: digits before and after the point, and the exponent. -/
structure Decimal where
  whole : Text
  fraction : Text
  exponent : Int

/-- Whether a decimal fraction is too large for a double-precision number: its value is at least
halfway between the largest one and the next power of two. -/
def Decimal.isHuge (d : Decimal) : Bool :=
  let digits := d.whole ++ d.fraction
  let mantissa := (ofDigits? 10 digits).getD 0
  let exponent := d.exponent - d.fraction.length
  let places := exponent + (Nat.toDigits 10 mantissa).length
  let limit := Nat.pow 2 1024 - Nat.pow 2 970
  if mantissa = 0 || places < 300 then false
  else if places > 310 then true
  else limit * Nat.pow 10 (-exponent).toNat ≤ mantissa * Nat.pow 10 exponent.toNat

/-- The parts of an unsigned float, which has a fraction, an exponent or both. -/
def decimal? (t : Text) : Option Decimal := do
  let (mantissa, exponent) := match Text.pieces (fun c => c == 'e' || c == 'E') t with
    | [m] => (m, none)
    | [m, e] => (m, some e)
    | _ => ([], none)
  let exponentValue : Int ← match exponent with
    | none => some 0
    | some e => do
      let (negative, digits) := splitSign e
      let n : Int ← ofDigits? 10 (← digitRun? 10 digits)
      pure (if negative then -n else n)
  match Text.splitAt '.' mantissa with
  | [whole] => if exponent.isNone then none else some ⟨← wholeDigits? whole, [], exponentValue⟩
  | [whole, fraction] => some ⟨← wholeDigits? whole, ← digitRun? 10 fraction, exponentValue⟩
  | _ => none

/-- Whether the token is a float. Infinity and not-a-number are spelled out; a positive number that
is too large is refused. -/
def isFloat (t : Text) : Bool :=
  let (negative, magnitude) := splitSign t
  magnitude = "inf" || magnitude = "nan" ||
    match decimal? magnitude with
    | some d => negative || !d.isHuge
    | none => false

/-! ## Dates and times -/

/-- A number of exactly the given count of decimal digits. -/
def fixedDigits? (count : Nat) (t : Text) : Option Nat :=
  if t.length = count then ofDigits? 10 t else none

/-- The number of days in a month. -/
def daysIn (year month : Nat) : Nat :=
  if month = 2 then
    if year % 4 = 0 && (year % 100 ≠ 0 || year % 400 = 0) then 29 else 28
  else if [4, 6, 9, 11].contains month then 30 else 31

/-- Whether the token is a date, `year-month-day`. -/
def isDate (t : Text) : Bool :=
  match Text.splitAt '-' t with
  | [year, month, day] =>
    match fixedDigits? 4 year, fixedDigits? 2 month, fixedDigits? 2 day with
    | some year, some month, some day =>
      1 ≤ month && month ≤ 12 && 1 ≤ day && day ≤ daysIn year month
    | _, _, _ => false
  | _ => false

/-- Whether the text is a two-digit number up to a limit. -/
def isUpTo (limit : Nat) (t : Text) : Bool := (fixedDigits? 2 t).any (· ≤ limit)

/-- Whether the token is a time of day, `hour:minute:second` with an optional fraction. -/
def isTime (t : Text) : Bool :=
  match Text.splitAt ':' t with
  | [hour, minute, second] =>
    let (whole, fraction) := (Text.cut ['.'] second).getD (second, ['0'])
    isUpTo 23 hour && isUpTo 59 minute && isUpTo 60 whole &&
      !fraction.isEmpty && fraction.all Char.isDigit
  | _ => false

/-- Whether the text is an offset from universal time. -/
def isOffset : Text → Bool
  | ['Z'] => true
  | ['z'] => true
  | sign :: h :: h2 :: ':' :: minute =>
    (sign == '+' || sign == '-') && isUpTo 23 [h, h2] && isUpTo 59 minute
  | _ => false

/-- Whether the token is a time of day with an optional offset. -/
def isZonedTime (t : Text) : Bool :=
  let time := t.takeWhile fun c => c.isDigit || c == ':' || c == '.'
  isTime time && (time.length == t.length || isOffset (t.drop time.length))

/-- Whether the token is a date, a time, or a date and a time joined by `T`. -/
def isDateTime (t : Text) : Bool :=
  isDate t || isTime t || isDate (t.take 10) &&
    match t.drop 10 with
    | c :: time => (c == 'T' || c == 't') && isZonedTime time
    | [] => false

/-! ## Tokens -/

/-- The value that a token stands for. -/
def ofToken? (t : Text) : Option Value :=
  if t = "true" then some (.boolean true)
  else if t = "false" then some (.boolean false)
  else if isDateTime t then some (.dateTime t)
  else match integer? t with
    | some n => some (.integer n)
    | none => if isFloat t then some (.float t) else none

/-- Whether a character may belong to a token. -/
def isTokenChar (c : Char) : Bool :=
  c.isAlphanum || c == '+' || c == '-' || c == '_' || c == '.' || c == ':'

/-- A value written as a token. -/
def read : Reader Value := fun t =>
  let token := t.takeWhile isTokenChar
  let rest := t.drop token.length
  let time := (rest.drop 1).takeWhile isTokenChar
  if isDate token && rest.head? == some ' ' && isZonedTime time then
    some (.dateTime (token ++ ' ' :: time), rest.drop (1 + time.length))
  else (ofToken? token).map (·, rest)

end ContractLint.Toml.Scalar
