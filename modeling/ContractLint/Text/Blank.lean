import ContractLint.Text.Basic

/-!
# Blanks and words

Blank characters are those with the Unicode property `White_Space`. Trimming, indentation and words
all go by this one class.
-/

namespace ContractLint.Text

/-- The ranges of code points with the property `White_Space`, in increasing order. -/
def blankRanges : List (Nat × Nat) :=
  [(0x09, 0x0d), (0x20, 0x20), (0x85, 0x85), (0xa0, 0xa0), (0x1680, 0x1680), (0x2000, 0x200a),
    (0x2028, 0x2029), (0x202f, 0x202f), (0x205f, 0x205f), (0x3000, 0x3000)]

/-- Whether a character is white space. -/
def isBlank (c : Char) : Bool := blankRanges.any fun (lo, hi) => lo ≤ c.toNat && c.toNat ≤ hi

example : isBlank ' ' ∧ isBlank '\t' ∧ isBlank '\u00a0' ∧ isBlank '\u3000' := by decide

example : ¬isBlank '\ufeff' ∧ ¬isBlank '\u200b' ∧ ¬isBlank '\u180e' ∧ ¬isBlank '\x1c' := by decide

/-- The text without its leading blanks. -/
def trimStart (t : Text) : Text := t.dropWhile isBlank

/-- The text without its trailing blanks. -/
def trimEnd (t : Text) : Text := t.dropEndWhile isBlank

/-- The text without blanks at either end. -/
def trim (t : Text) : Text := trimEnd (trimStart t)

/-- The leading blanks of a line. -/
def indent (t : Text) : Text := t.takeWhile isBlank

theorem indent_append_trimStart (t : Text) : indent t ++ trimStart t = t :=
  List.takeWhile_append_dropWhile

/-- Bytes taken by the leading blanks of a line. -/
def indentWidth (t : Text) : Nat := byteSize (indent t)

/-- The maximal runs of characters that are not blank. -/
def words (t : Text) : List Text := (pieces isBlank t).filter (!·.isEmpty)

end ContractLint.Text
