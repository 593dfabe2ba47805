/-!
# Texts

A text is the list of its characters, and a source line is a text without line breaks. Offsets
reported to users count UTF-8 bytes (`Text.byteSize`), columns count characters (`List.length`).

Every search of the library goes through `Text.cut`, which splits a text at the first occurrence of
a needle. Its two laws are `cut_eq_some_append` (the parts and the needle make up the text) and
`cut_length` (what the parts measure), so that code that goes on after an occurrence needs no
positions.
-/

namespace ContractLint

/-- The characters of a text, in order. -/
abbrev Text := List Char

instance : Coe String Text := ⟨String.toList⟩

namespace Text

/-! ## Measures -/

/-- Bytes the text takes in UTF-8. -/
def byteSize : Text → Nat
  | [] => 0
  | c :: t => c.utf8Size + byteSize t

@[simp] theorem byteSize_nil : byteSize [] = 0 := rfl

@[simp] theorem byteSize_cons (c : Char) (t : Text) :
    byteSize (c :: t) = c.utf8Size + byteSize t := rfl

@[simp] theorem byteSize_append (s t : Text) : byteSize (s ++ t) = byteSize s + byteSize t := by
  induction s with
  | nil => simp
  | cons c s ih => simp [ih, Nat.add_assoc]

/-- The part of the text that takes exactly `n` bytes, if the text is long enough and byte `n` does
not fall inside a character. -/
def takeBytes? : Nat → Text → Option Text
  | 0, _ => some []
  | _ + 1, [] => none
  | n + 1, c :: t =>
    if c.utf8Size ≤ n + 1 then (takeBytes? (n + 1 - c.utf8Size) t).map (c :: ·) else none

/-- The decimal digits of a number, without leading zeros. -/
def decimal (n : Nat) : Text := Nat.toDigits 10 n

/-! ## Order -/

/-- Texts are ordered by the first character in which they differ, and a text stands before its
extensions. -/
def le (s t : Text) : Bool := !decide (t < s)

/-! ## Occurrences -/

/-- The parts of a text before and after the first occurrence of `needle`. -/
def cut (needle : Text) : Text → Option (Text × Text)
  | [] => if needle.isEmpty then some ([], []) else none
  | c :: t =>
    if needle.isPrefixOf (c :: t) then some ([], (c :: t).drop needle.length)
    else (cut needle t).map fun (before, after) => (c :: before, after)

theorem cut_eq_some_append {needle : Text} :
    ∀ {t before after : Text}, cut needle t = some (before, after) → t = before ++ needle ++ after
  | [], before, after, h => by
    simp only [cut, List.isEmpty_iff] at h
    split at h <;> simp_all
  | c :: t, before, after, h => by
    simp only [cut] at h
    split at h
    · next hp =>
      obtain ⟨rfl, rfl⟩ : [] = before ∧ (c :: t).drop needle.length = after := by simpa using h
      obtain ⟨rest, hrest⟩ := List.isPrefixOf_iff_prefix.1 hp
      simp [← hrest]
    · obtain ⟨⟨b, a⟩, hcut, hba⟩ := Option.map_eq_some_iff.1 h
      obtain ⟨rfl, rfl⟩ : c :: b = before ∧ a = after := by simpa using hba
      simpa using cut_eq_some_append hcut

theorem cut_length {needle t before after : Text} (h : cut needle t = some (before, after)) :
    before.length + needle.length + after.length = t.length := by
  simp [cut_eq_some_append h, Nat.add_assoc]

/-- Whether the needle stands anywhere in the text. -/
def occursIn (needle t : Text) : Bool := (cut needle t).isSome

theorem occursIn_iff_infix {needle t : Text} : occursIn needle t = true ↔ needle <:+: t := by
  constructor
  · intro h
    obtain ⟨⟨before, after⟩, hcut⟩ := Option.isSome_iff_exists.1 h
    exact ⟨before, after, (cut_eq_some_append hcut).symm⟩
  · rintro ⟨before, after, rfl⟩
    induction before with
    | nil =>
      cases needle with
      | nil => cases after <;> simp [occursIn, cut]
      | cons n ns => simp [occursIn, cut]
    | cons c b ih =>
      simp only [occursIn, List.cons_append, cut] at ih ⊢
      split
      · rfl
      · simpa using ih

/-! ## Splitting at a character -/

/-- The parts of a text between the characters that `isBreak` holds of. A text without such a
character is its own single part. -/
def pieces (isBreak : Char → Bool) : Text → List Text
  | [] => [[]]
  | c :: t => if isBreak c then [] :: pieces isBreak t else (pieces isBreak t).modifyHead (c :: ·)

/-- The parts of a text between the occurrences of one character. -/
def splitAt (c : Char) (t : Text) : List Text := pieces (· == c) t

/-- The parts of a text before and after the last occurrence of a character. -/
def cutLast (c : Char) (t : Text) : Option (Text × Text) :=
  (cut [c] t.reverse).map fun (after, before) => (before.reverse, after.reverse)

/-- The text without the characters at its end that `p` holds of. -/
def dropEndWhile (t : Text) (p : Char → Bool) : Text := (t.reverse.dropWhile p).reverse

end Text

end ContractLint
