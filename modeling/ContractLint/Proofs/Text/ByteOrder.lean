import ContractLint.FileTree
import ContractLint.Proofs.Sorting

/-!
# The order of texts by their bytes

Texts are compared character by character. Since UTF-8 gives a greater character greater bytes, and
no encoding is the start of another, this is the order of the bytes that a text takes in a file.

## The architecture

* **`digits_of_lt`** — the bytes behind the first hold digits to the base 64, the highest ones first.
* **`utf8EncodeChar_append_lt`** — of two characters the smaller one has the smaller bytes, whatever
  follows them.
* **`bytes_lt_iff`, `bytes_le_iff`** — the same of whole texts, in both directions.
-/

namespace ContractLint.Text

/-- The bytes of a text in a file. -/
def bytes (t : Text) : List UInt8 := (encode t).data.toList

theorem bytes_eq_flatMap (t : Text) : bytes t = t.flatMap String.utf8EncodeChar := by
  show (String.ofList t).toByteArray.data.toList = _
  rw [String.toByteArray_ofList]
  exact List.toList_data_toByteArray

theorem bytes_cons (c : Char) (t : Text) : bytes (c :: t) = String.utf8EncodeChar c ++ bytes t := by
  rw [bytes_eq_flatMap, bytes_eq_flatMap, List.flatMap_cons]

theorem bytes_append (s t : Text) : bytes (s ++ t) = bytes s ++ bytes t := by
  rw [bytes_eq_flatMap, bytes_eq_flatMap, bytes_eq_flatMap, List.flatMap_append]

theorem length_bytes (t : Text) : (bytes t).length = t.byteSize := by
  induction t with
  | nil => rfl
  | cons c t ih => rw [bytes_cons, List.length_append, String.length_utf8EncodeChar, ih, byteSize_cons]

/-! ## One character -/

theorem digits_of_lt {m n : Nat} (h : m < n) :
    m / 262144 < n / 262144 ∨ m / 262144 = n / 262144 ∧
      (m / 4096 % 64 < n / 4096 % 64 ∨ m / 4096 % 64 = n / 4096 % 64 ∧
        (m / 64 % 64 < n / 64 % 64 ∨ m / 64 % 64 = n / 64 % 64 ∧ m % 64 < n % 64)) := by
  have hdigit {a b : Nat} (h : a < b) : a / 64 < b / 64 ∨ a / 64 = b / 64 ∧ a % 64 < b % 64 := by
    omega
  have hdiv (a : Nat) : a / 64 / 64 = a / 4096 ∧ a / 4096 / 64 = a / 262144 :=
    ⟨Nat.div_div_eq_div_mul a 64 64, Nat.div_div_eq_div_mul a 4096 64⟩
  obtain ⟨hm, hm'⟩ := hdiv m
  obtain ⟨hn, hn'⟩ := hdiv n
  -- split off the lowest digit as long as the rest differs
  rcases hdigit h with h₁ | h₁
  · rcases hdigit h₁ with h₂ | h₂
    · rw [hm, hn] at h₂
      rcases hdigit h₂ with h₃ | h₃
      · omega
      · omega
    · omega
  · omega

theorem ofNat_cons_lt_iff {m n : Nat} (hm : m < 256) (hn : n < 256) (s t : List UInt8) :
    UInt8.ofNat m :: s < UInt8.ofNat n :: t ↔ m < n ∨ m = n ∧ s < t := by
  have heq : UInt8.ofNat m = UInt8.ofNat n ↔ m = n := by
    refine ⟨fun h => ?_, congrArg UInt8.ofNat⟩
    have hval := congrArg UInt8.toNat h
    simp only [UInt8.toNat_ofNat'] at hval
    omega
  rw [List.cons_lt_cons_iff, UInt8.ofNat_lt_iff_lt hm hn, heq]

theorem utf8EncodeChar_append_lt {c d : Char} (h : c < d) (s t : List UInt8) :
    String.utf8EncodeChar c ++ s < String.utf8EncodeChar d ++ t := by
  have hlt : c.val.toNat < d.val.toNat := h
  have hd : d.val.toNat < 0x110000 := by
    have hvalid := d.valid
    unfold UInt32.isValidChar Nat.isValidChar at hvalid
    omega
  unfold String.utf8EncodeChar
  dsimp only
  generalize c.val.toNat = m at hlt ⊢
  generalize d.val.toNat = n at hlt hd ⊢
  have hdigits := digits_of_lt hlt
  have hm : m / 262144 % 8 = m / 262144 := Nat.mod_eq_of_lt (by omega)
  have hn : n / 262144 % 8 = n / 262144 := Nat.mod_eq_of_lt (by omega)
  -- encodings of different lengths differ in their first bytes, others in a digit
  split_ifs <;>
    simp (disch := omega) only [List.cons_append, List.nil_append, ofNat_cons_lt_iff] <;> omega

/-! ## Whole texts -/

theorem bytes_lt_of_lt {s t : Text} (h : s < t) : bytes s < bytes t := by
  induction s generalizing t with
  | nil =>
    cases t with
    | nil => exact absurd h (List.lt_irrefl [])
    | cons d t =>
      show [] < bytes (d :: t)
      rw [bytes_cons]
      cases hbytes : String.utf8EncodeChar d ++ bytes t with
      | nil => exact absurd (List.append_eq_nil_iff.1 hbytes).1 String.utf8EncodeChar_ne_nil
      | cons b rest => exact List.nil_lt_cons b rest
  | cons c s ih =>
    cases t with
    | nil => exact absurd h (List.not_lt_nil _)
    | cons d t =>
      rw [bytes_cons, bytes_cons]
      rcases List.cons_lt_cons_iff.1 h with hlt | ⟨rfl, hrest⟩
      · exact utf8EncodeChar_append_lt hlt _ _
      · exact List.append_left_lt (ih hrest)

theorem bytes_lt_iff {s t : Text} : bytes s < bytes t ↔ s < t := by
  refine ⟨fun h => ?_, bytes_lt_of_lt⟩
  by_contra hlt
  rcases Decidable.eq_or_ne s t with rfl | hne
  · exact List.lt_irrefl _ h
  · have hgt : t < s := (lt_or_lt_of_ne hne).resolve_left hlt
    exact List.lt_asymm h (bytes_lt_of_lt hgt)

theorem bytes_le_iff {s t : Text} : bytes s ≤ bytes t ↔ s.le t = true := by
  rw [← List.not_lt, bytes_lt_iff, le]
  simp

end ContractLint.Text
