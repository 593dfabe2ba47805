import ContractLint.Coverage.Assertion
import Mathlib.Tactic.Common

/-!
# A file cut into its assertions

The scan for assertions counts lines and carries an open statement along, and hiding edits lines by
number. Both are easier to follow on the file cut into parts: single lines, and assertions with all
their lines.

## The architecture

* **`Assertion`** — the lines of one statement, from the one that opens it to the first that holds
  `);`. The conditions on them are fields, so a value is a statement that the scan would take.
* **`Scanned`** — the parts of a file are those that a scan makes, from a given comment state on.
* **`exists_scanned_of_locateFrom`** — a scan that succeeds cuts the file into parts, and its spans
  are the places of the assertions among them.
* **`foldl_hideSpan`** — hiding the spans one after the other replaces each assertion by its hidden
  form and leaves all other lines alone.
-/

namespace ContractLint.Coverage

/-- An assertion as it stands in a file: the line that holds its end, and the lines above it. -/
structure Assertion where
  body : List Text
  closing : Text
  opens : (body ++ [closing]).head?.any opensAssertion = true
  body_open : ∀ line ∈ body, callClose.occursIn line = false
  closes : callClose.occursIn closing = true

namespace Assertion

/-- The lines of the statement. -/
def lines (a : Assertion) : List Text := a.body ++ [a.closing]

/-- The lines of the statement once it is hidden. -/
def hidden (a : Assertion) : List Text :=
  match a.body with
  | [] => [closeHidden (openHidden a.closing)]
  | first :: middle => openHidden first :: middle ++ [closeHidden a.closing]

@[simp] theorem length_lines (a : Assertion) : a.lines.length = a.body.length + 1 := by
  simp [lines]

@[simp] theorem length_hidden (a : Assertion) : a.hidden.length = a.body.length + 1 := by
  cases h : a.body <;> simp [hidden, h]

end Assertion

/-- A line outside all assertions, or an assertion. -/
inductive Part where
  | plain (line : Text)
  | assertion (a : Assertion)

namespace Part

/-- The lines of a part. -/
def lines : Part → List Text
  | plain line => [line]
  | assertion a => a.lines

/-- The lines of a part once assertions are hidden. -/
def hidden : Part → List Text
  | plain line => [line]
  | assertion a => a.hidden

@[simp] theorem length_hidden (p : Part) : p.hidden.length = p.lines.length := by
  cases p <;> simp [hidden, lines]

/-- The spans of the assertions in parts that start at line number `i`. -/
def spansFrom (i : Nat) : List Part → List Span
  | [] => []
  | plain _ :: rest => spansFrom (i + 1) rest
  | assertion a :: rest =>
    ⟨.assertion, i, i + a.body.length⟩ :: spansFrom (i + a.body.length + 1) rest

end Part

/-- The parts that a scan cuts a file into, where `inBlock` tells whether a block comment is open at
the start: a line is plain if it begins in a comment or opens nothing, and an assertion begins
outside of comments. -/
inductive Scanned : Bool → List Part → Prop where
  | nil (inBlock : Bool) : Scanned inBlock []
  | plain {inBlock : Bool} {line : Text} {rest : List Part}
      (hskip : inBlock = true ∨ opensAssertion line = false)
      (hrest : Scanned (Comment.advance inBlock line) rest) :
      Scanned inBlock (.plain line :: rest)
  | assertion {a : Assertion} {rest : List Part}
      (hrest : Scanned (Comment.advanceAll false a.lines) rest) :
      Scanned false (.assertion a :: rest)

/-! ## The scan makes parts -/

/-- While a statement is open, the scan only looks for its end, and goes on behind it. -/
theorem locateFrom_some {i : Nat} {inBlock : Bool} {first : Nat} {lines : List Text}
    {spans : List Span} (h : locateFrom i inBlock (some first) lines = .ok spans) :
    ∃ body closing rest after,
      lines = body ++ closing :: rest ∧ (∀ line ∈ body, callClose.occursIn line = false) ∧
        callClose.occursIn closing = true ∧
          locateFrom (i + body.length + 1) (Comment.advanceAll inBlock (body ++ [closing])) none
              rest = .ok after ∧
            spans = ⟨.assertion, first, i + body.length⟩ :: after := by
  induction lines generalizing i inBlock spans with
  | nil => simp [locateFrom] at h
  | cons line rest ih =>
    simp only [locateFrom, Option.isNone_some, Bool.false_and, Bool.false_eq_true, if_false] at h
    split at h
    · -- the statement ends on this line
      next hclose =>
      cases hafter : locateFrom (i + 1) (Comment.advance inBlock line) none rest with
      | error e => rw [hafter] at h; cases h
      | ok after =>
        rw [hafter] at h
        cases h
        exact ⟨[], line, rest, after, rfl, by simp, hclose, hafter, rfl⟩
    · next hopen =>
      obtain ⟨body, closing, rest', after, rfl, hbody, hclose, hafter, rfl⟩ := ih h
      refine ⟨line :: body, closing, rest', after, rfl, ?_, hclose, ?_, ?_⟩
      · simpa [hopen] using hbody
      · simpa [Comment.advanceAll, Nat.add_assoc, Nat.add_comm 1] using hafter
      · simp [Nat.add_assoc, Nat.add_comm 1]

/-- **A scan that succeeds cuts the file into parts**, and its spans are the assertions' places. -/
theorem exists_scanned_of_locateFrom {i : Nat} {inBlock : Bool} {lines : List Text}
    {spans : List Span} (h : locateFrom i inBlock none lines = .ok spans) :
    ∃ parts, Scanned inBlock parts ∧ lines = parts.flatMap Part.lines ∧
      spans = Part.spansFrom i parts := by
  -- an assertion takes several lines at once, so the induction is on the length
  induction hn : lines.length using Nat.strongRecOn generalizing i inBlock lines spans with
  | _ n ih =>
  cases lines with
  | nil => exact ⟨[], .nil inBlock, rfl, by cases h; rfl⟩
  | cons line rest =>
    by_cases hopens : inBlock = false ∧ opensAssertion line = true
    · obtain ⟨rfl, hopens⟩ := hopens
      have hsome : locateFrom i false (some i) (line :: rest) = .ok spans := by
        simpa [locateFrom, hopens] using h
      obtain ⟨body, closing, rest', after, hlines, hbody, hclose, hafter, rfl⟩ :=
        locateFrom_some hsome
      have hhead : (body ++ [closing]).head?.any opensAssertion = true := by
        cases body with
        | nil => obtain ⟨rfl, rfl⟩ := List.cons.inj hlines; simpa using hopens
        | cons first middle => obtain ⟨rfl, rfl⟩ := List.cons.inj hlines; simpa using hopens
      have hlt : rest'.length < n := by
        rw [← hn, hlines, List.length_append, List.length_cons]
        omega
      obtain ⟨parts, hscan, rfl, rfl⟩ := ih _ hlt hafter rfl
      refine ⟨.assertion ⟨body, closing, hhead, hbody, hclose⟩ :: parts, .assertion hscan, ?_, rfl⟩
      simp [hlines, Part.lines, Assertion.lines]
    · have hskip : inBlock = true ∨ opensAssertion line = false := by
        cases inBlock <;> simp_all
      have hnone : locateFrom (i + 1) (Comment.advance inBlock line) none rest = .ok spans := by
        rw [locateFrom] at h
        rcases hskip with rfl | hskip
        · simpa using h
        · simpa [hskip] using h
      have hlt : rest.length < n := by
        rw [← hn, List.length_cons]
        omega
      obtain ⟨parts, hscan, rfl, rfl⟩ := ih _ hlt hnone rfl
      exact ⟨.plain line :: parts, .plain hskip hscan, rfl, rfl⟩

/-! ## Hiding by parts -/

theorem modify_append_length {α : Type} (before : List α) (a : α) (after : List α) (f : α → α)
    {i : Nat} (hi : i = before.length) :
    (before ++ a :: after).modify i f = before ++ f a :: after := by
  subst hi
  induction before with
  | nil => rfl
  | cons b before ih => simp [ih]

/-- Hiding a span that is an assertion's place replaces the assertion by its hidden form. -/
theorem hideSpan_assertion (before after : List Text) (a : Assertion) :
    hideSpan (before ++ a.lines ++ after)
        ⟨.assertion, before.length, before.length + a.body.length⟩ =
      before ++ a.hidden ++ after := by
  obtain ⟨body, closing, hopens, hbody, hcloses⟩ := a
  cases body with
  | nil =>
    simp only [hideSpan, Assertion.lines, Assertion.hidden, List.nil_append, List.append_assoc,
      List.cons_append, List.length_nil, Nat.add_zero]
    rw [modify_append_length before closing after openHidden rfl,
      modify_append_length before (openHidden closing) after closeHidden rfl]
  | cons first middle =>
    simp only [hideSpan, Assertion.lines, Assertion.hidden, List.append_assoc, List.cons_append,
      List.nil_append]
    rw [modify_append_length before first _ openHidden rfl]
    -- the closing line is no longer found by the same split, so move the bracket
    have hsplit : before ++ openHidden first :: (middle ++ closing :: after) =
        (before ++ openHidden first :: middle) ++ closing :: after := by simp
    rw [hsplit, modify_append_length _ closing after closeHidden (by simp)]
    simp

/-- **Hiding the spans hides each assertion and nothing else.** -/
theorem foldl_hideSpan (before : List Text) (parts : List Part) :
    (Part.spansFrom before.length parts).foldl hideSpan (before ++ parts.flatMap Part.lines) =
      before ++ parts.flatMap Part.hidden := by
  induction parts generalizing before with
  | nil => rfl
  | cons p parts ih =>
    cases p with
    | plain line =>
      have h := ih (before ++ [line])
      simpa [Part.spansFrom, Part.lines, Part.hidden] using h
    | assertion a =>
      have hspan := hideSpan_assertion before (parts.flatMap Part.lines) a
      have h := ih (before ++ a.hidden)
      simp only [Part.spansFrom, Part.lines, Part.hidden, List.flatMap_cons, List.foldl_cons,
        ← List.append_assoc, hspan]
      simpa [Nat.add_assoc] using h

theorem exists_locate_of_hideAssertions {lines : List Text} {r : Revision}
    (h : hideAssertions lines = .ok r) : ∃ spans, locateAssertions lines = .ok spans := by
  unfold hideAssertions at h
  cases hspans : locateAssertions lines with
  | error e =>
    rw [hspans] at h
    cases h
  | ok spans => exact ⟨spans, rfl⟩

/-- **The result of hiding, by parts.** -/
theorem exists_scanned_of_hideAssertions {lines : List Text} {spans : List Span} {r : Revision}
    (hspans : locateAssertions lines = .ok spans) (hr : hideAssertions lines = .ok r) :
    ∃ parts, Scanned false parts ∧ lines = parts.flatMap Part.lines ∧
      spans = Part.spansFrom 0 parts ∧ r.lines = parts.flatMap Part.hidden := by
  obtain ⟨parts, hscan, hlines, rfl⟩ := exists_scanned_of_locateFrom hspans
  refine ⟨parts, hscan, hlines, rfl, ?_⟩
  rw [hideAssertions, hspans] at hr
  cases hr
  simpa [hlines] using foldl_hideSpan [] parts

end ContractLint.Coverage
