import ContractLint.Proofs.Coverage.Hiding
import Mathlib.Data.List.Pairwise

/-!
# Statements by their extent

A statement takes the lines from the one that opens it to the first one that closes it, and while it
is open no other one opens. So the statements of a file are settled by two things: the lines on
which one can open, and the lines that close one that opened on a given line. Each pass has such a
rule. What follows from having one is said here for all of them, and the scan for assertions is
measured by its rule.

## The architecture

* **`StatementRule`** — the two things that decide; `Takes` is a statement by the rule.
* **`Greedy`** — the statements among the first `n` lines: in order, apart from each other, and no
  line outside of them opens one. There is at most one such list (`Greedy.unique`).
* **`Unclosed`** — a statement without end below greedy ones. A file has one, or it has greedy
  statements up to its end, never both (`Unclosed.le_of_greedy`).
* **`Reached`** — the invariant of a scan at one line: greedy statements above, and perhaps an open
  one. The lemmas `skip`, `opening`, `stays` and `closing` are all that a line can do.
* **`locateAssertions_greedy`** — the scan for assertions finds the greedy spans of its rule, and
  fails at the statement without end.
-/

namespace ContractLint.Coverage

/-- What decides on the statements of a file. -/
structure StatementRule where
  kind : StatementKind
  /-- Whether a statement opens on line number `i`, if none is open there. -/
  opens : Nat → Prop
  /-- Whether line number `i` closes a statement that opened on line number `first`. -/
  closes (first i : Nat) : Prop

namespace StatementRule

/-- A statement by the rule: it opens on its first line, and its last line is the first one from
there on that closes it. -/
structure Takes (b : StatementRule) (s : Span) : Prop where
  kind : s.kind = b.kind
  opens : b.opens s.first
  first_le_last : s.first ≤ s.last
  closes : b.closes s.first s.last
  unclosed : ∀ i, s.first ≤ i → i < s.last → ¬b.closes s.first i

/-- The statements among the first `n` lines of a file, in order. Each ends above the next one, and
no line outside of all opens one. -/
structure Greedy (b : StatementRule) (n : Nat) (spans : List Span) : Prop where
  takes : ∀ s ∈ spans, b.Takes s
  ordered : spans.Pairwise (·.last < ·.first)
  last_lt : ∀ s ∈ spans, s.last < n
  outside : ∀ i < n, (∀ s ∈ spans, ¬s.Covers i) → ¬b.opens i

/-- A statement that opens below the statements `above` and is never closed. -/
structure Unclosed (b : StatementRule) (first : Nat) (above : List Span) : Prop where
  greedy : b.Greedy first above
  opens : b.opens first
  never : ∀ i, first ≤ i → ¬b.closes first i

variable {b : StatementRule}

/-! ## There is one way to take statements -/

theorem Takes.eq_of_first {s o : Span} (hs : b.Takes s) (ho : b.Takes o)
    (hfirst : s.first = o.first) : s = o := by
  have hlast : s.last = o.last := by
    rcases Nat.lt_trichotomy s.last o.last with hlt | heq | hlt
    · exact absurd (hfirst ▸ hs.closes) (ho.unclosed s.last (hfirst ▸ hs.first_le_last) hlt)
    · exact heq
    · exact absurd (hfirst ▸ ho.closes) (hs.unclosed o.last (hfirst ▸ ho.first_le_last) hlt)
  obtain ⟨kind, first, last⟩ := s
  obtain ⟨kind', first', last'⟩ := o
  obtain rfl : kind = kind' := hs.kind.trans ho.kind.symm
  obtain rfl : first = first' := hfirst
  obtain rfl : last = last' := hlast
  rfl

namespace Greedy

variable {n m : Nat} {spans other : List Span}

theorem exists_covers (h : b.Greedy n spans) {i : Nat} (hi : i < n) (hopens : b.opens i) :
    ∃ s ∈ spans, s.Covers i := by
  by_contra hnone
  refine h.outside i hi (fun s hs hcovers => ?_) hopens
  exact hnone ⟨s, hs, hcovers⟩

theorem eq_of_covers (h : b.Greedy n spans) {s o : Span} (hs : s ∈ spans) (ho : o ∈ spans)
    {i : Nat} (hi : s.Covers i) (hi' : o.Covers i) : s = o := by
  have hagree : spans.Pairwise fun s o => s.Covers i ∧ o.Covers i → s = o := by
    refine h.ordered.imp fun hlt ⟨hs, ho⟩ => ?_
    unfold Span.Covers at hs ho
    omega
  have hsymm : Std.Symm fun s o : Span => s.Covers i ∧ o.Covers i → s = o :=
    ⟨fun _ _ hso hos => (hso hos.symm).symm⟩
  exact hagree.forall_of_forall (fun _ _ _ => rfl) hs ho ⟨hi, hi'⟩

theorem pairwise_first (h : b.Greedy n spans) : spans.Pairwise (·.first < ·.first) := by
  refine h.ordered.imp_of_mem fun {s o} hs _ hlt => ?_
  have hle := (h.takes s hs).first_le_last
  omega

/-- Two lists of greedy statements share those that open above the end of both. -/
theorem mem_of_mem (h : b.Greedy n spans) (h' : b.Greedy m other) {s : Span} (hs : s ∈ spans)
    (hlt : s.first < m) : s ∈ other := by
  -- a statement that covers the first line of `s` opens further up, where the lists agree
  induction hk : s.first using Nat.strongRecOn generalizing s spans other n m with
  | _ k ih =>
  subst hk
  obtain ⟨o, ho, hcovers⟩ := h'.exists_covers hlt (h.takes s hs).opens
  have hself : s.Covers s.first := ⟨Nat.le_refl _, (h.takes s hs).first_le_last⟩
  rcases Nat.lt_or_eq_of_le hcovers.1 with hbefore | hsame
  · have hn : o.first < n := by
      have hlast := h.last_lt s hs
      have hle := hself.2
      omega
    have hmem := ih o.first hbefore h' h ho hn rfl
    rwa [h.eq_of_covers hs hmem hself hcovers]
  · rwa [(h.takes s hs).eq_of_first (h'.takes o ho) hsame.symm]

/-- **Greedy statements are unique.** -/
theorem unique (h : b.Greedy n spans) (h' : b.Greedy n other) : spans = other := by
  have hfirst {l : List Span} {s : Span} (hl : b.Greedy n l) (hs : s ∈ l) : s.first < n := by
    have hle := (hl.takes s hs).first_le_last
    have hlt := hl.last_lt s hs
    omega
  have hnodup {l : List Span} (hl : b.Greedy n l) : l.Nodup := by
    refine hl.pairwise_first.imp fun hlt heq => ?_
    rw [heq] at hlt
    exact Nat.lt_irrefl _ hlt
  have hperm : spans.Perm other := by
    rw [List.perm_ext_iff_of_nodup (hnodup h) (hnodup h')]
    exact fun s => ⟨fun hs => h.mem_of_mem h' hs (hfirst h hs),
      fun hs => h'.mem_of_mem h hs (hfirst h' hs)⟩
  refine hperm.eq_of_pairwise (fun s o _ _ hso hos => ?_) h.pairwise_first h'.pairwise_first
  omega

end Greedy

namespace Unclosed

variable {first first' n : Nat} {above above' spans : List Span}

/-- A statement without end opens behind all greedy ones. -/
theorem le_of_greedy (h : b.Unclosed first above) (hspans : b.Greedy n spans) : n ≤ first := by
  by_contra hlt
  obtain ⟨s, hs, hcovers⟩ := hspans.exists_covers (Nat.lt_of_not_le hlt) h.opens
  have htakes := hspans.takes s hs
  rcases Nat.lt_or_eq_of_le hcovers.1 with hbefore | hsame
  · -- `s` opens above, so it is one of `above` and ends there
    have hmem := hspans.mem_of_mem h.greedy hs hbefore
    have hlast := h.greedy.last_lt s hmem
    have hle := hcovers.2
    omega
  · exact h.never s.last hcovers.2 (hsame ▸ htakes.closes)

theorem unique (h : b.Unclosed first above) (h' : b.Unclosed first' above') :
    first = first' ∧ above = above' := by
  obtain rfl : first = first' :=
    Nat.le_antisymm (h'.le_of_greedy h.greedy) (h.le_of_greedy h'.greedy)
  exact ⟨rfl, h.greedy.unique h'.greedy⟩

end Unclosed

/-- **When a pass fails.** A pass that succeeds on greedy statements and reports one without end
fails exactly if there is one. -/
theorem error_iff_unclosed {α : Type} {n : Nat} {result : Except Unterminated α}
    {report : Nat → List Span → Unterminated} (hlines : ∀ i, b.opens i → i < n)
    (h : (∃ spans, b.Greedy n spans ∧ ∃ a, result = .ok a) ∨
      ∃ first above, b.Unclosed first above ∧ result = .error (report first above))
    {e : Unterminated} :
    result = .error e ↔ ∃ first above, b.Unclosed first above ∧ e = report first above := by
  constructor
  · intro he
    rcases h with ⟨_, _, a, hok⟩ | ⟨first, above, hunclosed, herror⟩
    · rw [hok] at he
      cases he
    · rw [herror] at he
      cases he
      exact ⟨first, above, hunclosed, rfl⟩
  · rintro ⟨first, above, hunclosed, rfl⟩
    rcases h with ⟨spans, hgreedy, -⟩ | ⟨first', above', hunclosed', herror⟩
    · have hle := hunclosed.le_of_greedy hgreedy
      have hlt := hlines first hunclosed.opens
      omega
    · obtain ⟨rfl, rfl⟩ := hunclosed.unique hunclosed'
      exact herror

/-! ## Taking statements line by line -/

/-- What is known of a scan that has come to line number `i`: the statements above, and where the
statement opened that is still open. -/
def Reached (b : StatementRule) (i : Nat) (above : List Span) : Option Nat → Prop
  | none => b.Greedy i above
  | some first =>
    b.Greedy first above ∧ b.opens first ∧ first ≤ i ∧ ∀ j, first ≤ j → j < i → ¬b.closes first j

namespace Reached

variable {i first : Nat} {above : List Span}

theorem zero (b : StatementRule) : b.Reached 0 [] none where
  takes := by simp
  ordered := .nil
  last_lt := by simp
  outside := by simp

theorem skip (h : b.Reached i above none) (hopens : ¬b.opens i) : b.Reached (i + 1) above none where
  takes := h.takes
  ordered := h.ordered
  last_lt s hs := Nat.lt_succ_of_lt (h.last_lt s hs)
  outside j hj hcovers := by
    rcases Nat.lt_or_eq_of_le (Nat.le_of_lt_succ hj) with hlt | rfl
    · exact h.outside j hlt hcovers
    · exact hopens

theorem opening (h : b.Reached i above none) (hopens : b.opens i) : b.Reached i above (some i) :=
  ⟨h, hopens, Nat.le_refl i, fun j hj hlt => by omega⟩

theorem stays (h : b.Reached i above (some first)) (hcloses : ¬b.closes first i) :
    b.Reached (i + 1) above (some first) := by
  obtain ⟨hgreedy, hopens, hle, hunclosed⟩ := h
  refine ⟨hgreedy, hopens, Nat.le_succ_of_le hle, fun j hj hlt => ?_⟩
  rcases Nat.lt_or_eq_of_le (Nat.le_of_lt_succ hlt) with hlt | rfl
  · exact hunclosed j hj hlt
  · exact hcloses

theorem closing (h : b.Reached i above (some first)) (hcloses : b.closes first i) :
    b.Reached (i + 1) (above ++ [⟨b.kind, first, i⟩]) none := by
  obtain ⟨hgreedy, hopens, hle, hunclosed⟩ := h
  have htakes : b.Takes ⟨b.kind, first, i⟩ := ⟨rfl, hopens, hle, hcloses, hunclosed⟩
  refine ⟨fun s hs => ?_, ?_, fun s hs => ?_, fun j hj hcovers => ?_⟩
  · rcases List.mem_append.1 hs with hs | hs
    · exact hgreedy.takes s hs
    · rwa [List.mem_singleton.1 hs]
  · refine List.pairwise_append.2 ⟨hgreedy.ordered, List.pairwise_singleton _ _, ?_⟩
    intro s hs o ho
    rw [List.mem_singleton.1 ho]
    exact hgreedy.last_lt s hs
  · rcases List.mem_append.1 hs with hs | hs
    · have hlt := hgreedy.last_lt s hs
      omega
    · rw [List.mem_singleton.1 hs]
      exact Nat.lt_succ_self i
  · -- a line that the new statement does not cover stands above it
    have hnew := hcovers ⟨b.kind, first, i⟩ (by simp)
    have hlt : j < first := by
      by_contra hge
      exact hnew ⟨Nat.le_of_not_lt hge, Nat.le_of_lt_succ hj⟩
    exact hgreedy.outside j hlt fun s hs => hcovers s (List.mem_append_left _ hs)

/-- A whole statement at once. -/
theorem take (h : b.Reached i above none) {last : Nat} (htakes : b.Takes ⟨b.kind, i, last⟩) :
    b.Reached (last + 1) (above ++ [⟨b.kind, i, last⟩]) none :=
  closing ⟨h, htakes.opens, htakes.first_le_last, htakes.unclosed⟩ htakes.closes

theorem unclosed (h : b.Reached i above (some first)) (hnever : ∀ j, i ≤ j → ¬b.closes first j) :
    b.Unclosed first above := by
  obtain ⟨hgreedy, hopens, -, hunclosed⟩ := h
  refine ⟨hgreedy, hopens, fun j hj => ?_⟩
  rcases Nat.lt_or_ge j i with hlt | hge
  · exact hunclosed j hj hlt
  · exact hnever j hge

end Reached

end StatementRule

/-! ## The scan for assertions -/

/-- The rule for assertions: one opens where `opensAssertion` says so, on a line that begins outside
of block comments, and the end of a call closes it. -/
def assertionRule (lines : List Text) : StatementRule where
  kind := .assertion
  opens i := ∃ line, lines[i]? = some line ∧ Comment.advanceAll false (lines.take i) = false ∧
    opensAssertion line = true
  closes _ i := ∃ line, lines[i]? = some line ∧ callClose.occursIn line = true

/-- **The scan from a line on**: it goes on to the greedy statements of the file, or to one without
end. -/
theorem locateFrom_reached {lines before rest : List Text} (hlines : lines = before ++ rest)
    {above : List Span} {start : Option Nat}
    (h : (assertionRule lines).Reached before.length above start) :
    (∃ spans, (assertionRule lines).Greedy lines.length (above ++ spans) ∧
        locateFrom before.length (Comment.advanceAll false before) start rest = .ok spans) ∨
      ∃ first all, (assertionRule lines).Unclosed first all ∧
        locateFrom before.length (Comment.advanceAll false before) start rest =
          .error ⟨.assertion, first + 1⟩ := by
  induction rest generalizing before above start with
  | nil =>
    rw [List.append_nil] at hlines
    subst hlines
    cases start with
    | none => exact .inl ⟨[], by rwa [List.append_nil], rfl⟩
    | some first =>
      refine .inr ⟨first, above, h.unclosed ?_, rfl⟩
      rintro j hj ⟨line, hline, -⟩
      rw [List.getElem?_eq_none hj] at hline
      cases hline
  | cons line rest ih =>
    have hline : lines[before.length]? = some line := by simp [hlines]
    have htake : lines.take before.length = before := by simp [hlines]
    have hnext : lines = (before ++ [line]) ++ rest := by simp [hlines]
    have hlen : before.length + 1 = (before ++ [line]).length := by simp
    have hcloses (first : Nat) :
        (assertionRule lines).closes first before.length ↔ callClose.occursIn line = true := by
      simp [assertionRule, hline]
    -- the statement that is open once the line has been looked at
    obtain ⟨open?, hopen?, hreached, hnone⟩ : ∃ open?,
        (if start.isNone && !Comment.advanceAll false before && opensAssertion line then
          some before.length else start) = open? ∧
        (assertionRule lines).Reached before.length above open? ∧
        (open? = none → ¬(assertionRule lines).opens before.length) := by
      refine ⟨_, rfl, ?_⟩
      have hopens : (assertionRule lines).opens before.length ↔
          Comment.advanceAll false before = false ∧ opensAssertion line = true := by
        simp [assertionRule, hline, htake]
      cases start with
      | some first => exact ⟨h, nofun⟩
      | none =>
        split
        · next hcond => exact ⟨h.opening (hopens.2 (by simpa using hcond)), nofun⟩
        · next hcond => exact ⟨h, fun _ => by simpa [hopens] using hcond⟩
    rw [locateFrom, hopen?, ← Comment.advanceAll_concat, hlen]
    cases open? with
    | none => exact ih hnext (hlen ▸ hreached.skip (hnone rfl))
    | some first =>
      by_cases hclose : callClose.occursIn line = true
      · simp only [if_pos hclose]
        rcases ih hnext (hlen ▸ hreached.closing ((hcloses first).2 hclose)) with
          ⟨spans, hgreedy, hok⟩ | ⟨first', all, hunclosed, herror⟩
        · refine .inl ⟨⟨.assertion, first, before.length⟩ :: spans, ?_, by rw [hok]; rfl⟩
          rwa [List.append_assoc] at hgreedy
        · exact .inr ⟨first', all, hunclosed, by rw [herror]; rfl⟩
      · simp only [if_neg hclose]
        exact ih hnext (hlen ▸ hreached.stays fun hc => hclose ((hcloses first).1 hc))

theorem locateAssertions_cases (lines : List Text) :
    (∃ spans, (assertionRule lines).Greedy lines.length spans ∧
        locateAssertions lines = .ok spans) ∨
      ∃ first above, (assertionRule lines).Unclosed first above ∧
        locateAssertions lines = .error ⟨.assertion, first + 1⟩ :=
  @locateFrom_reached lines [] lines rfl [] none (.zero _)

theorem locateAssertions_error_iff {lines : List Text} {e : Unterminated} :
    locateAssertions lines = .error e ↔
      ∃ first above, (assertionRule lines).Unclosed first above ∧ e = ⟨.assertion, first + 1⟩ := by
  apply StatementRule.error_iff_unclosed (n := lines.length)
  · rintro i ⟨line, hline, -⟩
    exact (List.getElem?_eq_some_iff.1 hline).1
  · rcases locateAssertions_cases lines with ⟨spans, hgreedy, hok⟩ | hunclosed
    · exact .inl ⟨spans, hgreedy, spans, hok⟩
    · exact .inr hunclosed

/-- **The scan for assertions is greedy.** It succeeds with the one list of greedy spans that its
rule admits. It fails, at the line of the statement, exactly if a statement below greedy ones opens
and no line from there on closes it. -/
theorem locateAssertions_greedy (lines : List Text) :
    (∀ spans, locateAssertions lines = .ok spans ↔
        (assertionRule lines).Greedy lines.length spans ∧
          ∀ other, (assertionRule lines).Greedy lines.length other → other = spans) ∧
      ∀ e, locateAssertions lines = .error e ↔
        ∃ first above, (assertionRule lines).Unclosed first above ∧
          e = ⟨.assertion, first + 1⟩ := by
  refine ⟨fun spans => ⟨fun hok => ?_, fun ⟨hgreedy, _⟩ => ?_⟩,
    fun e => locateAssertions_error_iff⟩
  · rcases locateAssertions_cases lines with ⟨found, hgreedy, hfound⟩ | ⟨_, _, _, herror⟩
    · rw [hfound] at hok
      cases hok
      exact ⟨hgreedy, fun other hother => hother.unique hgreedy⟩
    · rw [herror] at hok
      cases hok
  · rcases locateAssertions_cases lines with ⟨found, hfound, hok⟩ | ⟨first, above, hunclosed, -⟩
    · rw [hok, hfound.unique hgreedy]
    · -- greedy spans up to the end leave no line for a statement without end
      obtain ⟨line, hline, -⟩ := hunclosed.opens
      have hlt := (List.getElem?_eq_some_iff.1 hline).1
      have hle := hunclosed.le_of_greedy hgreedy
      omega

end ContractLint.Coverage
