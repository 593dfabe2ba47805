import ContractLint.Proofs.Coverage.GuardPlaces
import ContractLint.Proofs.Coverage.InlineEdits

/-!
# The line that a failed pass names

A pass that comes to the end of a file with a statement open reports the line on which the statement
opened. The scan for assertions and the inline style count the lines that they read. The guard style
counts those that it has written, so each guard that it put in above moves the number by one.
-/

namespace ContractLint.Coverage

/-- Whether an error names the line of the statement that is open at the end of the file. -/
def Unterminated.Names (b : StatementRule) (e : Unterminated) : Prop :=
  ∃ first above, b.Unclosed first above ∧ e = ⟨b.kind, first + 1⟩

/-- A file has one statement without end at most, so there is one line to name. -/
theorem StatementRule.Unclosed.names_iff {b : StatementRule} {first : Nat} {above : List Span}
    (h : b.Unclosed first above) {e : Unterminated} : e.Names b ↔ e = ⟨b.kind, first + 1⟩ := by
  constructor
  · rintro ⟨first', above', hunclosed, rfl⟩
    obtain ⟨rfl, -⟩ := h.unique hunclosed
    rfl
  · exact fun he => ⟨first, above, h, he⟩

theorem hideAssertions_error_iff {lines : List Text} {e : Unterminated} :
    hideAssertions lines = .error e ↔ e.Names (assertionRule lines) := by
  have hlocate : hideAssertions lines = .error e ↔ locateAssertions lines = .error e := by
    unfold hideAssertions
    cases locateAssertions lines <;> simp [Except.map]
  exact hlocate.trans locateAssertions_error_iff

/-- **What a failed guard pass names.** The number is right exactly if no guard was put in above. -/
theorem insertGuards_error_names_iff {lines : List Text} {first : Nat} {above : List Span}
    (h : (guardRule lines).Unclosed first above) {e : Unterminated}
    (he : e = ⟨.precondition, first + above.countP (fun c => !guardedAt lines c.first) + 1⟩) :
    e.Names (guardRule lines) ↔ ∀ c ∈ above, guardedAt lines c.first = true := by
  rw [h.names_iff, he]
  have hcount : above.countP (fun c => !guardedAt lines c.first) = 0 ↔
      ∀ c ∈ above, guardedAt lines c.first = true := by
    simp [List.countP_eq_zero]
  rw [← hcount]
  constructor
  · intro hline
    have hline := (Unterminated.mk.inj hline).2
    omega
  · intro hzero
    rw [hzero]
    rfl

/-- **Which line a failed pass names.** Each pass fails exactly if a statement is open at the end.
The scan for assertions and the inline style name its line. The guard style names a line as many
lines further down as it put guards above, so it is right only if all calls above had theirs. -/
theorem unterminated_names_line_iff (lines : List Text) (e : Unterminated) :
    (hideAssertions lines = .error e ↔ e.Names (assertionRule lines)) ∧
      (inlinePreconditions lines = .error e ↔ e.Names (inlineRule lines)) ∧
        (insertGuards lines = .error e ↔
          ∃ first above, (guardRule lines).Unclosed first above ∧
            e = ⟨.precondition, first + above.countP (fun c => !guardedAt lines c.first) + 1⟩ ∧
              (e.Names (guardRule lines) ↔ ∀ c ∈ above, guardedAt lines c.first = true)) := by
  refine ⟨hideAssertions_error_iff, inlinePreconditions_error_iff, ?_⟩
  rw [insertGuards_error_iff]
  constructor
  · rintro ⟨first, above, hunclosed, he⟩
    exact ⟨first, above, hunclosed, he, insertGuards_error_names_iff hunclosed he⟩
  · rintro ⟨first, above, hunclosed, he, -⟩
    exact ⟨first, above, hunclosed, he⟩

/-- The second line is left open. The guard style has put a guard above the first one by then, and
names a line that the file does not have. -/
theorem line_below_guard_misnamed :
    insertGuards ["Require.that(a);", "Require.that(b"] = .error ⟨.precondition, 3⟩ ∧
      Unterminated.Names (guardRule ["Require.that(a);", "Require.that(b"]) ⟨.precondition, 2⟩ ∧
        ¬Unterminated.Names (guardRule ["Require.that(a);", "Require.that(b"])
          ⟨.precondition, 3⟩ := by
  have hfirst : (guardRule ["Require.that(a);", "Require.that(b"]).Takes ⟨.precondition, 0, 0⟩ :=
    ⟨rfl, ⟨_, rfl, by decide +kernel⟩, Nat.le_refl 0, ⟨_, .head _, by decide +kernel⟩,
      fun i _ hlt => absurd hlt (Nat.not_lt_zero i)⟩
  have hunclosed : (guardRule ["Require.that(a);", "Require.that(b"]).Unclosed 1
      [⟨.precondition, 0, 0⟩] :=
    @unclosed_of_findCall _ ["Require.that(a);"] [] "Require.that(b" [] "b" rfl (by decide +kernel)
      (by decide +kernel) (by simp) _ ((StatementRule.Reached.zero _).take hfirst)
  refine ⟨by decide +kernel, hunclosed.names_iff.2 rfl, fun hnames => ?_⟩
  have hline := hunclosed.names_iff.1 hnames
  cases hline

end ContractLint.Coverage
