import ContractLint.Sorting
import ContractLint.Text.Basic
import Mathlib.Tactic.Common

/-!
# Sorted lists and sorting

Insertion puts an element before the first one it may precede. So it keeps a sorted list sorted, and
an element that precedes all others goes to the front: sorting a list gives a sorted one in which
elements that compare equal stand as they came (`pairwise_sortBy_stable`), and a sorted list is its
own sorting (`sortBy_of_pairwise`). Sorting by what a function gives is sorting what it gives
(`sortBy_map`), and what a test leaves of a list is sorted as it stands among the others
(`sortBy_filter`).
-/

namespace ContractLint

variable {α : Type} {le : α → α → Bool}

theorem insertBy_of_forall {a : α} {l : List α} (h : ∀ b ∈ l, le a b = true) :
    insertBy le a l = a :: l := by
  cases l with
  | nil => rfl
  | cons b l => rw [insertBy, if_pos (h b (by simp))]

/-- **A sorted list is its own sorting.** -/
theorem sortBy_of_pairwise {l : List α} (h : l.Pairwise fun a b => le a b = true) :
    sortBy le l = l := by
  induction h with
  | nil => rfl
  | cons hhead _ ih => rw [sortBy_cons, ih, insertBy_of_forall hhead]

theorem filter_insertBy_of_dropped {keep : α → Bool} {a : α} (h : keep a = false) (l : List α) :
    (insertBy le a l).filter keep = l.filter keep := by
  induction l with
  | nil => simp [insertBy, h]
  | cons b l ih =>
    rw [insertBy]
    split
    · rw [List.filter_cons_of_neg (by simp [h])]
    · rw [List.filter_cons, ih, List.filter_cons]

/-- In a sorted list the place of an element goes by those that stay. -/
theorem filter_insertBy_of_kept (htrans : ∀ a b c, le a b = true → le b c = true → le a c = true)
    {keep : α → Bool} {a : α} (h : keep a = true) {l : List α}
    (hl : l.Pairwise fun a b => le a b = true) :
    (insertBy le a l).filter keep = insertBy le a (l.filter keep) := by
  induction hl with
  | nil => simp [insertBy, h]
  | @cons b l hhead _ ih =>
    rw [insertBy]
    split
    · next hab =>
      -- all that stands behind `b` stands behind `a` too, whether or not `b` stays
      rw [List.filter_cons_of_pos h, insertBy_of_forall]
      intro c hc
      rcases List.mem_cons.1 (List.mem_filter.1 hc).1 with rfl | hc
      · exact hab
      · exact htrans a b c hab (hhead c hc)
    · next hab =>
      cases hb : keep b with
      | false =>
        rw [List.filter_cons_of_neg (by simp [hb]), List.filter_cons_of_neg (by simp [hb]), ih]
      | true =>
        rw [List.filter_cons_of_pos hb, List.filter_cons_of_pos hb, ih, insertBy, if_neg hab]

section Stable

variable (htotal : ∀ a b, le a b = true ∨ le b a = true)
  (htrans : ∀ a b c, le a b = true → le b c = true → le a c = true)
include htotal htrans

/-- Insertion keeps a list sorted. If `R` tells which of two elements came first, an element that
came before all others does so still among those that compare equal. -/
theorem pairwise_insertBy {R : α → α → Prop} {a : α} {l : List α} (ha : ∀ b ∈ l, R a b)
    (h : l.Pairwise fun a b => le a b = true ∧ (le b a = true → R a b)) :
    (insertBy le a l).Pairwise fun a b => le a b = true ∧ (le b a = true → R a b) := by
  induction h with
  | nil => simp [insertBy]
  | @cons b l hhead htail ih =>
    rw [insertBy]
    split
    · next hab =>
      refine .cons (fun c hc => ⟨?_, fun _ => ha c hc⟩) (.cons hhead htail)
      rcases List.mem_cons.1 hc with rfl | hc
      · exact hab
      · exact htrans a b c hab (hhead c hc).1
    · next hab =>
      -- `a` goes behind `b` because it is greater, so they do not compare equal
      have hba : le b a = true := (htotal a b).resolve_left hab
      refine .cons (fun c hc => ?_) (ih fun c hc => ha c (by simp [hc]))
      rcases List.mem_cons.1 ((insertBy_perm le a l).mem_iff.1 hc) with rfl | hc
      · exact ⟨hba, fun hle => absurd hle hab⟩
      · exact hhead c hc

/-- **Sorting sorts and is stable**, by a comparison that is total and transitive: of two elements
that compare equal, the one that came first stands first. -/
theorem pairwise_sortBy_stable {R : α → α → Prop} {l : List α} (h : l.Pairwise R) :
    (sortBy le l).Pairwise fun a b => le a b = true ∧ (le b a = true → R a b) := by
  induction h with
  | nil => exact .nil
  | @cons a l ha _ ih =>
    refine pairwise_insertBy htotal htrans (fun b hb => ?_) ih
    exact ha b ((sortBy_perm le l).mem_iff.1 hb)

theorem pairwise_sortBy (l : List α) : (sortBy le l).Pairwise fun a b => le a b = true :=
  (pairwise_sortBy_stable htotal htrans (List.pairwise_of_forall fun _ _ => trivial)).imp And.left

/-- **Sorting commutes with leaving elements out.** -/
theorem sortBy_filter (keep : α → Bool) (l : List α) :
    sortBy le (l.filter keep) = (sortBy le l).filter keep := by
  induction l with
  | nil => rfl
  | cons a l ih =>
    have hsorted := pairwise_sortBy htotal htrans l
    cases hkeep : keep a with
    | false =>
      rw [List.filter_cons_of_neg (by simp [hkeep]), sortBy_cons, ih,
        filter_insertBy_of_dropped hkeep]
    | true =>
      rw [List.filter_cons_of_pos hkeep, sortBy_cons, sortBy_cons, ih,
        filter_insertBy_of_kept htrans hkeep hsorted]

end Stable

theorem sortBy_map {β : Type} (f : β → α) (l : List β) :
    sortBy le (l.map f) = (sortBy (fun a b => le (f a) (f b)) l).map f := by
  have hinsert (a : β) (l : List β) :
      insertBy le (f a) (l.map f) = (insertBy (fun a b => le (f a) (f b)) a l).map f := by
    induction l with
    | nil => rfl
    | cons b l ih =>
      rw [List.map_cons, insertBy, insertBy, ih]
      split <;> rfl
  induction l with
  | nil => rfl
  | cons a l ih => rw [List.map_cons, sortBy_cons, ih, hinsert, sortBy_cons]

/-! ## Texts -/

/-- Of two different texts one comes first. -/
theorem Text.lt_or_lt_of_ne {s t : Text} (h : s ≠ t) : s < t ∨ t < s := by
  by_contra hnone
  obtain ⟨hst, hts⟩ := not_or.1 hnone
  exact h (List.le_antisymm (List.not_lt.1 hts) (List.not_lt.1 hst))

end ContractLint
