import ContractLint.Proofs.Path.Below
import ContractLint.Proofs.Text.ByteOrder

/-!
# The order of paths by components and bytes

Paths are compared by their components, and names among them by their bytes. That order is stated
here as a lexicographic one; the comparison that paths are sorted by decides it (`Path.before_iff`).
A slash is no character of any name, so `a/b.sol` stands before `a-b.sol`, although `-` is less than
`/`.
-/

namespace ContractLint

namespace Component

/-- Names stand behind all other components and among themselves in the order of their bytes. -/
def Before (a b : Component) : Prop :=
  a.rank < b.rank ∨ ∃ s t, a = normal s ∧ b = normal t ∧ s.bytes < t.bytes

theorem lt_iff_before {a b : Component} : a.lt b = true ↔ a.Before b := by
  simp only [lt_iff, Before, Text.bytes_lt_iff]

theorem not_before_self (a : Component) : ¬a.Before a := by
  rw [← lt_iff_before, lt_irrefl]
  exact Bool.false_ne_true

theorem Before.trans {a b c : Component} (h : a.Before b) (h' : b.Before c) : a.Before c :=
  lt_iff_before.1 (lt_trans (lt_iff_before.2 h) (lt_iff_before.2 h'))

theorem listLe_iff {as bs : List Component} :
    listLe as bs = true ↔ as = bs ∨ List.Lex Before as bs := by
  induction as generalizing bs with
  | nil =>
    cases bs with
    | nil => simp [listLe]
    | cons b bs => exact iff_of_true rfl (.inr .nil)
  | cons a as ih =>
    cases bs with
    | nil =>
      constructor
      · intro h
        cases h
      · rintro (h | h) <;> cases h
    | cons b bs =>
      rw [listLe]
      split
      · next heq =>
        subst heq
        rw [ih, List.cons.injEq, List.cons_lex_cons_iff]
        simp [not_before_self]
      · next hne =>
        rw [lt_iff_before, List.cons.injEq, List.cons_lex_cons_iff]
        simp [hne]

end Component

namespace Path

/-- The first path stands before the second one: the first component in which they differ decides,
and a path stands before those that go on from it. -/
def Before (p q : Path) : Prop := List.Lex Component.Before p.components q.components

theorem Before.components_ne {p q : Path} (h : p.Before q) : p.components ≠ q.components := by
  intro hsame
  rw [Before, hsame] at h
  exact List.lex_irrefl Component.not_before_self _ h

theorem Before.trans {p q r : Path} (h : p.Before q) (h' : q.Before r) : p.Before r :=
  List.lex_trans (fun hab hbc => hab.trans hbc) h h'

theorem before_iff {p q : Path} : p.Before q ↔ p.le q = true ∧ q.le p = false := by
  constructor
  · intro h
    have hle : p.le q = true := Component.listLe_iff.2 (.inr h)
    refine ⟨hle, Bool.eq_false_iff.2 fun hback => h.components_ne ?_⟩
    exact Component.listLe_antisymm hle hback
  · rintro ⟨hle, hback⟩
    rcases Component.listLe_iff.1 hle with hsame | hlex
    · rw [le, ← hsame] at hback
      rw [le, ← hsame, hback] at hle
      cases hle
    · exact hlex

example : (Path.mk "a/b.sol").Before "a-b.sol" ∧ ¬(Path.mk "a-b.sol").Before "a/b.sol" := by
  simp only [before_iff]
  decide +kernel

end Path

end ContractLint
