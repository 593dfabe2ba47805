import ContractLint.Text.Blank
import Mathlib.Data.List.DropRight
import Mathlib.Data.List.TakeWhile
import Mathlib.Tactic.Common

/-!
# Occurrences in composed texts

Rewritten lines are put together from pieces of the lines they come from. The lemmas here say where
a needle can stand in such a text: not across a separator that it does not hold, and not in a
stretch that lacks its first character. Trimming takes an infix, so it adds no occurrence.
-/

namespace ContractLint.Text

/-! ## The first occurrence -/

theorem occursIn_eq_false_iff {needle t : Text} : occursIn needle t = false ↔ ¬needle <:+: t := by
  rw [← occursIn_iff_infix, Bool.not_eq_true]

theorem exists_cut_of_infix {needle t : Text} (h : needle <:+: t) :
    ∃ before after, cut needle t = some (before, after) := by
  have hocc : (cut needle t).isSome = true := occursIn_iff_infix.2 h
  obtain ⟨⟨before, after⟩, hcut⟩ := Option.isSome_iff_exists.1 hocc
  exact ⟨before, after, hcut⟩

/-- What stands before the first occurrence holds no other one. -/
theorem not_infix_of_cut {needle : Text} (hne : needle ≠ []) :
    ∀ {t before after : Text}, cut needle t = some (before, after) → ¬needle <:+: before
  | [], before, after, h => by
    simp [cut, hne] at h
  | c :: t, before, after, h => by
    simp only [cut] at h
    split at h
    · obtain ⟨rfl, rfl⟩ : [] = before ∧ (c :: t).drop needle.length = after := by simpa using h
      simpa using hne
    · next hp =>
      obtain ⟨⟨b, a⟩, hcut, hba⟩ := Option.map_eq_some_iff.1 h
      obtain ⟨rfl, rfl⟩ : c :: b = before ∧ a = after := by simpa using hba
      intro hin
      rcases List.infix_cons_iff.1 hin with hpre | htail
      · -- an occurrence at the front would have been the first one
        apply hp
        rw [List.isPrefixOf_iff_prefix, cut_eq_some_append hcut]
        exact hpre.trans ⟨needle ++ a, by simp⟩
      · exact not_infix_of_cut hne hcut htail

/-- The needle stands in the text behind `before`, and nowhere further left. -/
structure FirstAt (needle t before : Text) : Prop where
  occurs : before ++ needle <+: t
  first : ∀ b, b ++ needle <+: t → before.length ≤ b.length

theorem firstAt_of_cut {needle : Text} :
    ∀ {t before after : Text}, cut needle t = some (before, after) → FirstAt needle t before
  | [], before, after, h => by
    simp only [cut, List.isEmpty_iff] at h
    split at h
    · next hneedle =>
      cases h
      subst hneedle
      exact ⟨List.prefix_refl [], fun b _ => Nat.zero_le _⟩
    · cases h
  | c :: t, before, after, h => by
    refine ⟨⟨after, (cut_eq_some_append h).symm⟩, fun b hb => ?_⟩
    simp only [cut] at h
    split at h
    · obtain ⟨rfl, -⟩ : [] = before ∧ (c :: t).drop needle.length = after := by simpa using h
      exact Nat.zero_le _
    · next hp =>
      obtain ⟨⟨rest, a⟩, hcut, hba⟩ := Option.map_eq_some_iff.1 h
      obtain ⟨rfl, rfl⟩ : c :: rest = before ∧ a = after := by simpa using hba
      cases b with
      | nil => exact absurd (List.isPrefixOf_iff_prefix.2 hb) hp
      | cons d b =>
        obtain ⟨-, hb⟩ := List.cons_prefix_cons.1 hb
        exact Nat.succ_le_succ ((firstAt_of_cut hcut).first b hb)

theorem FirstAt.exists_cut {needle t before : Text} (h : FirstAt needle t before) :
    ∃ after, cut needle t = some (before, after) := by
  have hin : needle <:+: t := (List.suffix_append before needle).isInfix.trans h.occurs.isInfix
  obtain ⟨found, after, hcut⟩ := exists_cut_of_infix hin
  have hfirst := firstAt_of_cut hcut
  have hlength : found.length = before.length :=
    Nat.le_antisymm (hfirst.first before h.occurs) (h.first found hfirst.occurs)
  -- both are starts of the text
  have hprefix : found <+: before :=
    List.prefix_of_prefix_length_le ((List.prefix_append found needle).trans hfirst.occurs)
      ((List.prefix_append before needle).trans h.occurs) (Nat.le_of_eq hlength)
  obtain rfl := hprefix.eq_of_length hlength
  exact ⟨after, hcut⟩

/-- What follows the first occurrence has no part in where it is. -/
theorem cut_append_of_cut {needle : Text} :
    ∀ {t before after : Text}, cut needle t = some (before, after) →
      ∀ rest, cut needle (before ++ needle ++ rest) = some (before, rest)
  | [], before, after, h, rest => by
    simp only [cut, List.isEmpty_iff] at h
    split at h
    · next hneedle =>
      cases h
      subst hneedle
      cases rest <;> rfl
    · cases h
  | c :: t, before, after, h, rest => by
    simp only [cut] at h
    split at h
    · obtain ⟨rfl, -⟩ : [] = before ∧ (c :: t).drop needle.length = after := by simpa using h
      cases needle with
      | nil => cases rest <;> rfl
      | cons n needle => simp [cut]
    · next hp =>
      obtain ⟨⟨b, a⟩, hcut, hba⟩ := Option.map_eq_some_iff.1 h
      obtain ⟨rfl, rfl⟩ : c :: b = before ∧ a = after := by simpa using hba
      -- an occurrence at the front would not reach into what follows
      have hfront : needle.isPrefixOf (c :: (b ++ needle ++ rest)) = false := by
        refine Bool.eq_false_iff.2 fun hfront => hp ?_
        have hshort : needle <+: c :: b ++ needle := by
          refine List.prefix_of_prefix_length_le (List.isPrefixOf_iff_prefix.1 hfront)
            ⟨rest, by simp⟩ ?_
          simp only [List.length_append, List.length_cons]
          omega
        rw [List.isPrefixOf_iff_prefix, cut_eq_some_append hcut]
        exact hshort.trans ⟨a, by simp⟩
      rw [List.cons_append, List.cons_append, cut, hfront, cut_append_of_cut hcut rest]
      rfl

/-- A stretch without the needle's first character is passed over. -/
theorem cut_append_of_notMem {n : Char} {needle p : Text} (hp : n ∉ p) (t : Text) :
    cut (n :: needle) (p ++ t) =
      (cut (n :: needle) t).map fun (before, after) => (p ++ before, after) := by
  induction p with
  | nil => cases h : cut (n :: needle) t <;> simp [h]
  | cons c p ih =>
    obtain ⟨hc, hp⟩ : n ≠ c ∧ n ∉ p := by simpa using hp
    have hpre : (n :: needle).isPrefixOf (c :: (p ++ t)) = false := by
      simp [List.isPrefixOf, hc]
    rw [List.cons_append, cut, hpre, ih hp]
    cases cut (n :: needle) t <;> simp

/-! ## Separators -/

/-- A needle without the separator stands on one side of it. -/
theorem infix_append_cons {needle a b : Text} {sep : Char} (hsep : sep ∉ needle)
    (h : needle <:+: a ++ sep :: b) : needle <:+: a ∨ needle <:+: b := by
  rcases List.infix_append_iff.1 h with ha | hb | ⟨l, r, rfl, hl, hr⟩
  · exact .inl ha
  · rcases List.infix_cons_iff.1 hb with hpre | hb
    · cases needle with
      | nil => exact .inl List.nil_infix
      | cons n needle =>
        obtain ⟨rfl, _⟩ := List.cons_prefix_cons.1 hpre
        simp at hsep
    · exact .inr hb
  · -- an occurrence across the cut has its right half start with the separator
    cases r with
    | nil => exact .inl (by simpa using hl.isInfix)
    | cons n r =>
      obtain ⟨rfl, _⟩ := List.cons_prefix_cons.1 hr
      simp at hsep

theorem isPrefixOf_append_cons {needle t u : Text} {sep : Char} (hsep : sep ∉ needle) :
    needle.isPrefixOf (t ++ sep :: u) = needle.isPrefixOf t := by
  rw [Bool.eq_iff_iff, List.isPrefixOf_iff_prefix, List.isPrefixOf_iff_prefix]
  refine ⟨fun h => ?_, fun h => h.trans (List.prefix_append _ _)⟩
  rcases List.prefix_or_prefix_of_prefix h (List.prefix_append t (sep :: u)) with hshort | hlong
  · exact hshort
  · -- a longer needle would hold the separator
    obtain ⟨rest, rfl⟩ := hlong
    cases rest with
    | nil => simp
    | cons c rest =>
      obtain ⟨rfl, -⟩ := List.cons_prefix_cons.1 ((List.prefix_append_right_inj t).1 h)
      simp at hsep

/-- The first occurrence of a needle without the separator is left of it, or else right of it. -/
theorem cut_append_cons {needle : Text} {sep : Char} (hsep : sep ∉ needle) (hne : needle ≠ [])
    (t u : Text) :
    cut needle (t ++ sep :: u) =
      ((cut needle t).map fun (before, after) => (before, after ++ sep :: u)).or
        ((cut needle u).map fun (before, after) => (t ++ sep :: before, after)) := by
  induction t with
  | nil =>
    have hpre := isPrefixOf_append_cons (t := []) (u := u) hsep
    rw [List.nil_append] at hpre
    have hnil : needle.isPrefixOf [] = false := by
      cases needle with
      | nil => exact absurd rfl hne
      | cons c needle => rfl
    have hempty : cut needle [] = none := if_neg (by simpa using hne)
    simp only [List.nil_append, hempty]
    rw [cut, hpre, hnil]
    rfl
  | cons c t ih =>
    have hpre := isPrefixOf_append_cons (t := c :: t) (u := u) hsep
    rw [List.cons_append] at hpre ⊢
    rw [cut, hpre, cut, ih]
    split
    · next h =>
      have hlen := (List.isPrefixOf_iff_prefix.1 h).length_le
      rw [← List.cons_append, List.drop_append_of_le_length hlen]
      rfl
    · cases cut needle t with
      | some parts => rfl
      | none => cases cut needle u <;> rfl

theorem occursIn_append_cons {needle : Text} {sep : Char} (hsep : sep ∉ needle)
    (hne : needle ≠ []) (t u : Text) :
    occursIn needle (t ++ sep :: u) = (occursIn needle t || occursIn needle u) := by
  rw [occursIn, cut_append_cons hsep hne, occursIn, occursIn]
  cases cut needle t with
  | some parts => rfl
  | none => cases cut needle u <;> rfl

/-- A needle without the separator stands in one of the pieces that it joins. -/
theorem infix_intercalate {needle : Text} {sep : Char} (hsep : sep ∉ needle) (hne : needle ≠ []) :
    ∀ {pieces : List Text}, needle <:+: [sep].intercalate pieces → ∃ p ∈ pieces, needle <:+: p
  | [], h => by simp [List.intercalate, hne] at h
  | [p], h => ⟨p, by simp, by simpa [List.intercalate] using h⟩
  | p :: q :: pieces, h => by
    have hjoin : [sep].intercalate (p :: q :: pieces) =
        p ++ sep :: [sep].intercalate (q :: pieces) := by
      simp [List.intercalate]
    rw [hjoin] at h
    rcases infix_append_cons hsep h with hp | hrest
    · exact ⟨p, by simp, hp⟩
    · obtain ⟨r, hr, hin⟩ := infix_intercalate hsep hne hrest
      exact ⟨r, List.mem_cons_of_mem _ hr, hin⟩

theorem intercalate_concat {sep : Char} {texts : List Text} (h : texts ≠ []) (t : Text) :
    [sep].intercalate (texts ++ [t]) = [sep].intercalate texts ++ sep :: t := by
  induction texts with
  | nil => exact absurd rfl h
  | cons first rest ih =>
    cases rest with
    | nil => simp [List.intercalate]
    | cons second rest =>
      have hrest := ih (List.cons_ne_nil second rest)
      rw [List.cons_append] at hrest
      rw [List.cons_append, List.cons_append, List.intercalate_cons_cons, hrest,
        List.intercalate_cons_cons]
      simp

/-! ## Bytes -/

/-- Taking as many bytes as a text's first part has gives that part. -/
theorem takeBytes?_append (p q : Text) : takeBytes? (byteSize p) (p ++ q) = some p := by
  induction p with
  | nil => simp [takeBytes?]
  | cons c p ih =>
    -- the bytes are counted down by whole characters, so the count is not used up before `c`
    obtain ⟨n, hn⟩ : ∃ n, c.utf8Size + byteSize p = n + 1 :=
      Nat.exists_eq_succ_of_ne_zero (by have := Char.utf8Size_pos c; omega)
    have hrest : n + 1 - c.utf8Size = byteSize p := by omega
    rw [byteSize_cons, List.cons_append, hn, takeBytes?, if_pos (by omega), hrest, ih]
    rfl

/-- Bytes can be taken up to the end of any first part of a text, and up to no other place. -/
theorem takeBytes?_eq_some_iff {n : Nat} {t s : Text} :
    takeBytes? n t = some s ↔ s <+: t ∧ byteSize s = n := by
  constructor
  · intro h
    induction t generalizing n s with
    | nil =>
      cases n with
      | zero =>
        cases h
        exact ⟨List.nil_prefix, rfl⟩
      | succ n => cases h
    | cons c t ih =>
      cases n with
      | zero =>
        cases h
        exact ⟨List.nil_prefix, rfl⟩
      | succ n =>
        rw [takeBytes?] at h
        split at h
        · next hsize =>
          obtain ⟨rest, hrest, rfl⟩ := Option.map_eq_some_iff.1 h
          obtain ⟨hstarts, hbytes⟩ := ih hrest
          refine ⟨List.cons_prefix_cons.2 ⟨rfl, hstarts⟩, ?_⟩
          rw [byteSize_cons]
          omega
        · cases h
  · rintro ⟨⟨rest, rfl⟩, rfl⟩
    exact takeBytes?_append s rest

/-! ## Trimming -/

theorem isPrefix_dropEndWhile (t : Text) (p : Char → Bool) : t.dropEndWhile p <+: t := by
  have h : t.reverse.dropWhile p <:+ t.reverse := List.dropWhile_suffix p
  simpa [dropEndWhile] using List.reverse_prefix.2 h

theorem isPrefix_trimEnd (t : Text) : t.trimEnd <+: t := isPrefix_dropEndWhile t isBlank

theorem isSuffix_trimStart (t : Text) : t.trimStart <:+ t := List.dropWhile_suffix isBlank

theorem isInfix_trim (t : Text) : t.trim <:+: t :=
  (isPrefix_trimEnd t.trimStart).isInfix.trans (isSuffix_trimStart t).isInfix

theorem isBlank_of_mem_indent {t : Text} {c : Char} (h : c ∈ t.indent) : isBlank c = true :=
  List.mem_takeWhile_imp h

theorem trimStart_trimStart (t : Text) : t.trimStart.trimStart = t.trimStart :=
  List.dropWhile_idempotent isBlank t

/-- Leading blanks go, whatever follows them. -/
theorem trimStart_append_of_blank {p : Text} (hp : ∀ c ∈ p, isBlank c = true) (t : Text) :
    trimStart (p ++ t) = trimStart t := by
  rw [trimStart, List.dropWhile_append_of_pos hp]
  rfl

end ContractLint.Text
