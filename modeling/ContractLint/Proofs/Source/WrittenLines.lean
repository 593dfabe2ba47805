import ContractLint.Proofs.Source.RoundTrip

/-!
# Lines that are read back

A line with a line feed in it is read as several, a carriage return right before a line feed is
taken for part of the ending, and an empty last line that nothing ends is not seen. These are all
reasons for which lines that are written are not read back as they were.

## The architecture

* **`upToLast_iff`** — the condition for writing (`lines_toText`), said of the lines before and
  behind each.
* **`terminates_of_lines_eq`** — lines that are read back satisfy it, one line off the front at a
  time.
* **`lines_rewritten_iff`** — the condition is exact.
-/

namespace ContractLint

theorem upToLast_iff {P Q : Text → Prop} {lines : List Text} :
    UpToLast P Q lines ↔
      (∀ before line after, lines = before ++ line :: after → after ≠ [] → P line) ∧
        ∀ line, lines.getLast? = some line → Q line := by
  induction lines with
  | nil => simp [UpToLast]
  | cons first rest ih =>
    cases rest with
    | nil =>
      simp only [UpToLast, List.getLast?_singleton, Option.some.injEq, forall_eq']
      refine ⟨fun h => ⟨fun before line after heq hne => ?_, h⟩, And.right⟩
      -- a single line has none behind it
      have hlength := congrArg List.length heq
      have hpos := List.length_pos_of_ne_nil hne
      simp only [List.length_append, List.length_cons, List.length_nil] at hlength
      omega
    | cons next rest =>
      rw [upToLast_cons first (by simp), ih, List.getLast?_cons_cons, ← and_assoc]
      refine and_congr_left fun _ => ⟨?_, fun h => ⟨h [] first _ rfl (by simp), ?_⟩⟩
      · rintro ⟨hfirst, hrest⟩ before line after heq hne
        cases before with
        | nil =>
          obtain ⟨rfl, -⟩ := List.cons.inj heq
          exact hfirst
        | cons _ before => exact hrest before line after (List.cons.inj heq).2 hne
      · intro before line after heq hne
        exact h (first :: before) line after (by rw [heq, List.cons_append]) hne

/-- No line of a text holds a line feed. -/
theorem newline_notMem_of_mem_lines {t line : Text} (h : line ∈ t.lines) : '\n' ∉ line := by
  have hlines := upToLast_lines (e := .crlf) (t := t) (by simp)
  exact newline_notMem_of_upToLast (hlines.mono fun _ hlast => hlast.1) line h

/-- A line that is read off the front of a text can be terminated. -/
theorem terminates_of_lines_append {e : LineEnding} {line t : Text} {rest : List Text}
    (hnewline : '\n' ∉ line) (h : Text.lines (line ++ (e.text ++ t)) = line :: rest) :
    e.Terminates line := by
  refine ⟨hnewline, ?_⟩
  rintro rfl hlast
  obtain ⟨init, rfl⟩ := List.getLast?_eq_some_iff.1 hlast
  -- the carriage return is read as part of the ending, so the line is shorter
  have hinit : LineEnding.crlf.Terminates init := ⟨fun hmem => hnewline (by simp [hmem]), by simp⟩
  have hread := LineEnding.lines_append_text hinit t
  rw [List.append_assoc] at h
  rw [show ['\r'] ++ (LineEnding.lf.text ++ t) = LineEnding.crlf.text ++ t from rfl, hread] at h
  simpa using (List.cons.inj h).1

/-- Lines that are read off the front of a text can be terminated. -/
theorem terminates_of_lines_eq {e : LineEnding} {lines rest : List Text} {t : Text}
    (hnewline : ∀ line ∈ lines, '\n' ∉ line)
    (h : Text.lines (lines.flatMap (· ++ e.text) ++ t) = lines ++ rest) :
    (∀ line ∈ lines, e.Terminates line) ∧ t.lines = rest := by
  induction lines with
  | nil => exact ⟨by simp, h⟩
  | cons line lines ih =>
    obtain ⟨hline, hlines⟩ := List.forall_mem_cons.1 hnewline
    rw [List.flatMap_cons, List.append_assoc, List.append_assoc, List.cons_append] at h
    have hterm := terminates_of_lines_append hline h
    rw [LineEnding.lines_append_text hterm] at h
    obtain ⟨hrest, ht⟩ := ih hlines (List.cons.inj h).2
    exact ⟨List.forall_mem_cons.2 ⟨hterm, hrest⟩, ht⟩

namespace Source

/-- The condition for writing is exact. -/
theorem lines_toText_iff (s : Source) :
    s.toText.lines = s.lines ↔
      UpToLast s.ending.Terminates (s.ending.Last s.finalNewline) s.lines := by
  refine ⟨fun h => ?_, lines_toText⟩
  have hnewline : ∀ line ∈ s.lines, '\n' ∉ line := fun line hline =>
    newline_notMem_of_mem_lines (h ▸ hline)
  cases hfinal : s.finalNewline with
  | true =>
    rw [toText_of_finalNewline hfinal] at h
    have hread : Text.lines (s.lines.flatMap (· ++ s.ending.text) ++ []) = s.lines ++ [] := by
      rw [List.append_nil, List.append_nil, h]
    exact upToLast_self.2 (terminates_of_lines_eq hnewline hread).1
  | false =>
    rcases List.eq_nil_or_concat' s.lines with hnil | ⟨init, last, hlines⟩
    · rw [hnil]
      trivial
    · rw [toText_of_not_finalNewline hfinal hlines, hlines] at h
      rw [hlines] at hnewline ⊢
      obtain ⟨hinit, hlast⟩ := terminates_of_lines_eq
        (fun line hline => hnewline line (by simp [hline])) h
      refine (upToLast_append (by simp)).2 ⟨hinit, hnewline last (by simp), ?_⟩
      rintro rfl
      cases hlast

/-- **When written lines are read back.** The lines that are put into a file come back as they are
exactly if none of them holds a line feed, none that is followed by a bare line feed ends in a
carriage return, and the last one is not empty if nothing ends it. -/
theorem lines_rewritten_iff (p q : Path) (t : Text) (lines : List Text) :
    (ofText q ((ofText p t).withLines lines).toText).lines = lines ↔
      (∀ line ∈ lines, '\n' ∉ line) ∧
      ((ofText p t).ending = .lf → ∀ before line after, lines = before ++ line :: after →
        after ≠ [] ∨ ((ofText p t).withLines lines).finalNewline = true →
          line.getLast? ≠ some '\r') ∧
      (((ofText p t).withLines lines).finalNewline = false → lines.getLast? ≠ some []) := by
  set s := (ofText p t).withLines lines
  have hconcat {before after : List Text} {line : Text} (hlines : lines = before ++ line :: after)
      (hafter : after = []) : lines.getLast? = some line := by
    rw [hlines, hafter, List.getLast?_concat]
  refine (lines_toText_iff s).trans ?_
  show UpToLast s.ending.Terminates (s.ending.Last s.finalNewline) lines ↔ _
  constructor
  · intro h
    obtain ⟨hinit, hlast⟩ := upToLast_iff.1 h
    refine ⟨newline_notMem_of_upToLast h, fun he before line after hlines hended => ?_,
      fun hfinal hempty => ?_⟩
    · by_cases hafter : after = []
      · have hline := hlast line (hconcat hlines hafter)
        rw [LineEnding.Last, if_pos (hended.resolve_left (not_not_intro hafter))] at hline
        exact hline.2 he
      · exact (hinit before line after hlines hafter).2 he
    · have hline := hlast [] hempty
      rw [LineEnding.Last, hfinal] at hline
      exact hline.2 rfl
  · rintro ⟨hnewline, hreturn, hempty⟩
    refine upToLast_iff.2 ⟨fun before line after hlines hafter => ?_, fun line hline => ?_⟩
    · have hmem : line ∈ lines := by
        rw [hlines]
        simp
      exact ⟨hnewline line hmem, fun he => hreturn he before line after hlines (.inl hafter)⟩
    · have hmem : line ∈ lines := List.mem_of_getLast? hline
      obtain ⟨init, hlines⟩ := List.getLast?_eq_some_iff.1 hline
      cases hfinal : s.finalNewline with
      | true => exact ⟨hnewline line hmem, fun he => hreturn he init line [] hlines (.inr hfinal)⟩
      | false =>
        refine ⟨hnewline line hmem, ?_⟩
        rintro rfl
        exact hempty hfinal hline

-- a file that had no lines gets a final line ending, so an empty line is read back from it
example : (ofText "a.sol" ((ofText "a.sol" "").withLines [[]]).toText).lines = [[]] := by
  decide +kernel

end Source

end ContractLint
