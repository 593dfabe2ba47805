import ContractLint.Proofs.Source.RoundTrip
import Mathlib.Data.List.Infix

/-!
# Files with mixed line endings

Reading a text forgets how each line ended, and writing gives all lines one ending. So a text comes
back as it was if its lines all end alike, and otherwise with a carriage return before every line
feed.

## The architecture

* **`withReturns`** — a text with its line feeds all behind carriage returns.
* **`returnFeeds_flatMap`, `toText_flatMap`** — the same on ended lines: putting in carriage returns
  puts `\r\n` in the place of each ending, and reading and writing the ending of the file.
* **`FeedsReturned`, `FeedsBare`** — texts whose lines end alike.
* **`toText_ofText`** — what comes back.
-/

namespace ContractLint

/-! ## Line feeds and carriage returns -/

namespace Text

/-- The text with a carriage return put before each line feed that has none, where `before` is the
character in front of the text. -/
def returnFeeds (before : Option Char) : Text → Text
  | [] => []
  | c :: t =>
    if c = '\n' ∧ before ≠ some '\r' then '\r' :: '\n' :: returnFeeds (some c) t
    else c :: returnFeeds (some c) t

/-- The text with every line feed behind a carriage return. -/
def withReturns (t : Text) : Text := returnFeeds none t

/-- Every line feed is behind a carriage return. -/
def FeedsReturned (t : Text) : Prop :=
  ∀ before after, t = before ++ '\n' :: after → before.getLast? = some '\r'

/-- No line feed is behind a carriage return. -/
def FeedsBare (t : Text) : Prop :=
  ∀ before after, t = before ++ '\n' :: after → before.getLast? ≠ some '\r'

theorem FeedsReturned.of_append {s t : Text} (h : FeedsReturned (s ++ t)) : s.FeedsReturned :=
  fun before after hs => h before (after ++ t) (by rw [hs, List.append_assoc, List.cons_append])

theorem getLast?_cons_or (c : Char) (t : Text) (before : Option Char) :
    (c :: t).getLast?.or before = t.getLast?.or (some c) := by
  rw [List.getLast?_cons]
  cases t.getLast? <;> rfl

theorem returnFeeds_append (before : Option Char) (s t : Text) :
    returnFeeds before (s ++ t) = returnFeeds before s ++ returnFeeds (s.getLast?.or before) t := by
  induction s generalizing before with
  | nil => rfl
  | cons c s ih =>
    rw [List.cons_append, returnFeeds, returnFeeds, ih, getLast?_cons_or]
    split <;> rfl

theorem returnFeeds_of_newline_notMem (before : Option Char) {t : Text} (h : '\n' ∉ t) :
    returnFeeds before t = t := by
  induction t generalizing before with
  | nil => rfl
  | cons c t ih =>
    obtain ⟨hc, hrest⟩ : '\n' ≠ c ∧ '\n' ∉ t := by simpa using h
    rw [returnFeeds, if_neg fun hfeed => hc hfeed.1.symm, ih (some c) hrest]

/-- Only a line feed without a carriage return is changed. -/
theorem returnFeeds_eq_self_iff (before : Option Char) (t : Text) :
    returnFeeds before t = t ↔
      ∀ s u, t = s ++ '\n' :: u → s.getLast?.or before = some '\r' := by
  induction t generalizing before with
  | nil => simp [returnFeeds]
  | cons c t ih =>
    rw [returnFeeds]
    split
    · next hfeed =>
      obtain ⟨rfl, hbefore⟩ := hfeed
      refine iff_of_false (by simp) fun h => hbefore ?_
      exact h [] t rfl
    · next hkept =>
      rw [List.cons.injEq, ih (some c)]
      simp only [true_and]
      constructor
      · intro h s u heq
        cases s with
        | nil =>
          obtain ⟨rfl, rfl⟩ := List.cons.inj heq
          by_contra hne
          exact hkept ⟨rfl, hne⟩
        | cons d s =>
          obtain ⟨rfl, hrest⟩ := List.cons.inj heq
          rw [getLast?_cons_or]
          exact h s u hrest
      · intro h s u heq
        rw [← getLast?_cons_or c s before]
        exact h (c :: s) u (by rw [heq, List.cons_append])

theorem withReturns_eq_self_iff (t : Text) : t.withReturns = t ↔ t.FeedsReturned := by
  rw [withReturns, returnFeeds_eq_self_iff, FeedsReturned]
  simp only [Option.or_none]

/-- A second time there is nothing to put in. -/
theorem returnFeeds_returnFeeds (before : Option Char) (t : Text) :
    returnFeeds before (returnFeeds before t) = returnFeeds before t := by
  induction t generalizing before with
  | nil => rfl
  | cons c t ih =>
    rw [returnFeeds]
    split
    · next hfeed =>
      rw [hfeed.1]
      simp [returnFeeds, ih]
    · next hkept => rw [returnFeeds, if_neg hkept, ih]

theorem feedsReturned_withReturns (t : Text) : t.withReturns.FeedsReturned :=
  (withReturns_eq_self_iff _).1 (returnFeeds_returnFeeds none t)

theorem not_crlf_infix_iff (t : Text) : ¬LineEnding.crlf.text <:+: t ↔ t.FeedsBare := by
  constructor
  · rintro h before after rfl hlast
    obtain ⟨init, rfl⟩ := List.getLast?_eq_some_iff.1 hlast
    exact h ⟨init, after, by simp [LineEnding.text]⟩
  · rintro h ⟨before, after, rfl⟩
    exact h (before ++ ['\r']) after (by simp [LineEnding.text]) (by simp)

end Text

/-! ## One ending for all lines -/

/-- Putting returns before line feeds gives every line the same ending. -/
theorem returnFeeds_flatMap {before : Option Char} (hbefore : before ≠ some '\r')
    (ended : List EndedLine) {rest : Text} (hrest : '\n' ∉ rest) :
    Text.returnFeeds before (ended.flatMap EndedLine.text ++ rest) =
      ended.flatMap (fun l => l.line ++ LineEnding.crlf.text) ++ rest := by
  induction ended generalizing before with
  | nil => exact Text.returnFeeds_of_newline_notMem before hrest
  | cons l ended ih =>
    have hnext := @ih (some '\n') (by simp)
    rw [List.flatMap_cons, List.flatMap_cons, List.append_assoc, List.append_assoc, EndedLine.text,
      List.append_assoc, List.append_assoc, Text.returnFeeds_append,
      Text.returnFeeds_of_newline_notMem before l.terminates.1, ← hnext]
    refine congrArg (l.line ++ ·) ?_
    cases hending : l.ending with
    | lf =>
      -- no carriage return stands before the ending, neither on the line nor in front of it
      have hbare : l.line.getLast?.or before ≠ some '\r' := by
        have hlast := l.terminates.2 hending
        cases hline : l.line.getLast? with
        | none => exact hbefore
        | some c => simpa [hline] using hlast
      simp [LineEnding.text, Text.returnFeeds, hbare]
    | crlf => simp [LineEnding.text, Text.returnFeeds]

/-- Without `\r\n` every line has the other ending already. -/
theorem flatMap_lf_of_not_crlf {ended : List EndedLine} {rest : Text}
    (h : ¬LineEnding.crlf.text <:+: ended.flatMap EndedLine.text ++ rest) :
    ended.flatMap (fun l => l.line ++ LineEnding.lf.text) = ended.flatMap EndedLine.text :=
  List.flatMap_congr fun l hl => by rw [EndedLine.text, EndedLine.ending_eq_lf h hl]

namespace Source

/-- **A text that is read and written** has the ending of the file in the place of each ending. -/
theorem toText_flatMap (p : Path) (ended : List EndedLine) {rest : Text} (hrest : '\n' ∉ rest) :
    (ofText p (ended.flatMap EndedLine.text ++ rest)).toText =
      ended.flatMap (fun l => l.line ++
        (ofText p (ended.flatMap EndedLine.text ++ rest)).ending.text) ++ rest := by
  set t := ended.flatMap EndedLine.text ++ rest with ht
  have hlines : (ofText p t).lines = ended.map EndedLine.line ++ rest.lines := by
    rw [ofText_lines, ht, EndedLine.lines_flatMap]
  by_cases hempty : rest = []
  · -- the last line is terminated, if there is one
    subst hempty
    rw [List.append_nil] at ht ⊢
    rw [Text.lines, List.append_nil] at hlines
    by_cases hnone : ended = []
    · subst hnone
      rfl
    · have hfinal : (ofText p t).finalNewline = true := by
        simp [ofText, ht, EndedLine.getLast?_flatMap hnone]
      rw [toText_of_finalNewline hfinal, hlines, List.flatMap_map]
  · have hfinal : (ofText p t).finalNewline = false := by
      have hlast : rest.getLast? ≠ some '\n' := fun h => hrest (List.mem_of_getLast? h)
      simpa [ofText, ht, List.getLast?_append_of_ne_nil _ hempty] using hlast
    rw [Text.lines_of_newline_notMem hrest hempty] at hlines
    rw [toText_of_not_finalNewline hfinal hlines, List.flatMap_map]

/-- A text without `\r\n` comes back as it was. -/
theorem toText_ofText_of_not_crlf (p : Path) {t : Text} (h : ¬LineEnding.crlf.text <:+: t) :
    (ofText p t).toText = t := by
  obtain ⟨ended, rest, rfl, hrest⟩ := EndedLine.exists_flatMap_append t
  rw [toText_flatMap p ended hrest, ending_ofText_of_not_crlf h, flatMap_lf_of_not_crlf h]

/-- Any other text comes back with a carriage return before every line feed. -/
theorem toText_ofText_of_crlf (p : Path) {t : Text} (h : LineEnding.crlf.text <:+: t) :
    (ofText p t).toText = t.withReturns := by
  obtain ⟨ended, rest, rfl, hrest⟩ := EndedLine.exists_flatMap_append t
  rw [toText_flatMap p ended hrest, ending_ofText_of_crlf h]
  exact (returnFeeds_flatMap (by simp) ended hrest).symm

/-- What comes back is the text itself if its lines end alike. -/
theorem toText_ofText_eq_self_iff (p : Path) (t : Text) :
    (ofText p t).toText = t ↔ t.FeedsReturned ∨ t.FeedsBare := by
  rw [← Text.not_crlf_infix_iff, ← Text.withReturns_eq_self_iff]
  by_cases h : LineEnding.crlf.text <:+: t
  · rw [toText_ofText_of_crlf p h]
    simp [h]
  · simp [toText_ofText_of_not_crlf p h, h]

/-- **Reading and writing changes mixed line endings only.** A text without `\r\n` comes back as it
was, and any other one with a carriage return before every line feed. So a text comes back as it was
exactly if its line feeds are all behind carriage returns or none of them is, and what came back
does not change any more. -/
theorem toText_ofText (p q : Path) (t : Text) :
    (ofText p t).toText = (if LineEnding.crlf.text <:+: t then t.withReturns else t) ∧
      ((ofText p t).toText = t ↔ t.FeedsReturned ∨ t.FeedsBare) ∧
      (ofText q (ofText p t).toText).toText = (ofText p t).toText := by
  refine ⟨?_, toText_ofText_eq_self_iff p t, ?_⟩
  · split
    · next h => exact toText_ofText_of_crlf p h
    · next h => exact toText_ofText_of_not_crlf p h
  · refine (toText_ofText_eq_self_iff q _).2 ?_
    by_cases h : LineEnding.crlf.text <:+: t
    · rw [toText_ofText_of_crlf p h]
      exact .inl (Text.feedsReturned_withReturns t)
    · rw [toText_ofText_of_not_crlf p h]
      exact .inr ((Text.not_crlf_infix_iff t).1 h)

-- carriage returns that end no line stay as they are
example : (ofText "a.sol" "a\nb\r\r\n\nc\r").toText = ("a\r\nb\r\r\n\r\nc\r" : Text) := by
  decide +kernel

end Source

end ContractLint
