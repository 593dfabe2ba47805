import ContractLint.Source
import ContractLint.Proofs.Text.Occurrence
import Mathlib.Data.List.Basic

/-!
# Writing lines and reading them back

Reading a text forgets how each line ended, and writing gives all lines one ending. What is written
is read back line by line if each line can be told from its ending: it holds no line feed, and
before a bare line feed it does not end in a carriage return, which would be taken for part of the
ending.

## The architecture

* **`LineEnding.Terminates`** — the lines that an ending can follow. `lines_append_text` reads one
  such line and its ending off the front of a text.
* **`EndedLine`** — a line with the ending behind it. A text is made of ended lines and a rest without
  a line feed (`EndedLine.exists_flatMap_append`).
* **`UpToLast`** — a condition on all lines but the last, and one on the last. In a file without a
  final line ending the last line is under other conditions than the rest.
* **`upToLast_lines`** — the lines of a text that was read satisfy the conditions for writing.
* **`lines_toText`** — lines that satisfy them are read back as they are.
-/

namespace ContractLint

/-! ## Reading from the front -/

namespace Text

theorem lines_newline (t : Text) : lines ('\n' :: t) = [] :: lines t := by
  rw [lines]

theorem lines_return_newline (t : Text) : lines ('\r' :: '\n' :: t) = [] :: lines t := by
  rw [lines]

/-- A character that does not start a line ending belongs to the first line. -/
theorem lines_cons {c : Char} {t : Text} (hnewline : c ≠ '\n')
    (hreturn : c = '\r' → t.head? ≠ some '\n') :
    lines (c :: t) =
      match lines t with
      | [] => [[c]]
      | line :: rest => (c :: line) :: rest := by
  refine lines.eq_4 c t hnewline ?_
  rintro u rfl rfl
  exact hreturn rfl rfl

end Text

namespace LineEnding

/-- The lines that can stand before the ending: without a line feed, and without a carriage return
at the end that a bare line feed would take along. -/
def Terminates (e : LineEnding) (line : Text) : Prop :=
  '\n' ∉ line ∧ (e = .lf → line.getLast? ≠ some '\r')

/-- A terminated line is read off the front of a text. -/
theorem lines_append_text {e : LineEnding} {line : Text} (h : e.Terminates line) (t : Text) :
    Text.lines (line ++ (e.text ++ t)) = line :: Text.lines t := by
  obtain ⟨hnewline, hreturn⟩ := h
  induction line with
  | nil =>
    cases e with
    | lf => exact Text.lines_newline t
    | crlf => exact Text.lines_return_newline t
  | cons c line ih =>
    obtain ⟨hc, hrest⟩ : '\n' ≠ c ∧ '\n' ∉ line := by simpa using hnewline
    have hline : Text.lines (line ++ (e.text ++ t)) = line :: Text.lines t := by
      refine ih hrest fun he hlast => hreturn he ?_
      cases line with
      | nil => cases hlast
      | cons d line => simpa using hlast
    -- a carriage return is only read with a line feed right behind it
    have hhead : c = '\r' → (line ++ (e.text ++ t)).head? ≠ some '\n' := by
      rintro rfl
      cases line with
      | nil =>
        cases e with
        | lf => exact absurd rfl (hreturn rfl)
        | crlf => simp [LineEnding.text]
      | cons d line =>
        intro h
        simp only [List.cons_append, List.head?_cons, Option.some.injEq] at h
        simp [h] at hrest
    rw [List.cons_append, Text.lines_cons hc.symm hhead, hline]

theorem Terminates.trimStart {e : LineEnding} {line : Text} (h : e.Terminates line) :
    e.Terminates line.trimStart := by
  obtain ⟨before, hline⟩ := Text.isSuffix_trimStart line
  refine ⟨fun hmem => h.1 (by rw [← hline]; simp [hmem]), fun he hlast => h.2 he ?_⟩
  rw [← hline, List.getLast?_append, hlast]
  rfl

/-- A character can be put in front of a line, unless it is a carriage return that would become part
of the ending. -/
theorem Terminates.cons {e : LineEnding} {line : Text} (h : e.Terminates line) {c : Char}
    (hc : c ≠ '\n') : e.Terminates (c :: line) ∨ c = '\r' ∧ line = [] ∧ e = .lf := by
  have hnewline : '\n' ∉ c :: line := by simp [Ne.symm hc, h.1]
  cases line with
  | nil =>
    by_cases hreturn : c = '\r' ∧ e = .lf
    · exact .inr ⟨hreturn.1, rfl, hreturn.2⟩
    · exact .inl ⟨hnewline, fun he hlast => hreturn ⟨by simpa using hlast, he⟩⟩
  | cons d line =>
    refine .inl ⟨hnewline, fun he => ?_⟩
    rw [List.getLast?_cons_cons]
    exact h.2 he

end LineEnding

/-- The rest of a text without a line feed is one line, unless it is empty. -/
theorem Text.lines_of_newline_notMem {t : Text} (h : '\n' ∉ t) (hne : t ≠ []) : t.lines = [t] := by
  induction t with
  | nil => exact absurd rfl hne
  | cons c t ih =>
    obtain ⟨hc, hrest⟩ : '\n' ≠ c ∧ '\n' ∉ t := by simpa using h
    have hhead : t.head? ≠ some '\n' := fun hhead => hrest (List.mem_of_mem_head? hhead)
    rw [Text.lines_cons hc.symm fun _ => hhead]
    cases t with
    | nil => rfl
    | cons d t => rw [ih hrest (List.cons_ne_nil _ _)]

/-! ## Lines with their endings -/

/-- A line with the ending behind it. -/
structure EndedLine where
  line : Text
  ending : LineEnding
  terminates : ending.Terminates line

namespace EndedLine

/-- The line and its ending as they stand in a text. -/
def text (l : EndedLine) : Text := l.line ++ l.ending.text

/-- **A text is made of ended lines** and what follows the last line feed. -/
theorem exists_flatMap_append (t : Text) :
    ∃ (ended : List EndedLine) (rest : Text), t = ended.flatMap text ++ rest ∧ '\n' ∉ rest := by
  have hnil (e : LineEnding) : e.Terminates [] := ⟨by simp, by simp⟩
  induction t with
  | nil => exact ⟨[], [], rfl, by simp⟩
  | cons c t ih =>
    obtain ⟨ended, rest, rfl, hrest⟩ := ih
    by_cases hc : c = '\n'
    · subst hc
      exact ⟨⟨[], .lf, hnil .lf⟩ :: ended, rest, rfl, hrest⟩
    · cases ended with
      | nil => exact ⟨[], c :: rest, rfl, by simp [Ne.symm hc, hrest]⟩
      | cons l ended =>
        rcases l.terminates.cons hc with hterm | ⟨rfl, hline, hlf⟩
        · exact ⟨⟨c :: l.line, l.ending, hterm⟩ :: ended, rest, by simp [text], hrest⟩
        · refine ⟨⟨[], .crlf, hnil .crlf⟩ :: ended, rest, ?_, hrest⟩
          simp [text, LineEnding.text, hline, hlf]

theorem lines_flatMap (ended : List EndedLine) (rest : Text) :
    Text.lines (ended.flatMap text ++ rest) = ended.map line ++ rest.lines := by
  induction ended with
  | nil => rfl
  | cons l ended ih =>
    rw [List.flatMap_cons, List.append_assoc, text, List.append_assoc,
      LineEnding.lines_append_text l.terminates, ih]
    rfl

theorem getLast?_flatMap {ended : List EndedLine} (h : ended ≠ []) :
    (ended.flatMap text).getLast? = some '\n' := by
  obtain ⟨init, last, rfl⟩ := (List.eq_nil_or_concat' ended).resolve_left h
  have hending : last.ending.text.getLast? = some '\n' := by
    cases last.ending <;> rfl
  simp [text, hending]

/-- In a text without `\r\n` no line has that ending. -/
theorem ending_eq_lf {ended : List EndedLine} {rest : Text}
    (h : ¬LineEnding.crlf.text <:+: ended.flatMap text ++ rest) {l : EndedLine} (hl : l ∈ ended) :
    l.ending = .lf := by
  cases hending : l.ending with
  | lf => rfl
  | crlf =>
    have hline : l.text <:+: ended.flatMap text :=
      List.infix_of_mem_flatten (List.mem_map_of_mem hl)
    refine absurd (List.IsInfix.trans ?_ (hline.trans (List.prefix_append _ rest).isInfix)) h
    rw [text, hending]
    exact (List.suffix_append _ _).isInfix

end EndedLine

/-! ## Conditions on all lines but the last -/

/-- Every line but the last satisfies `P`, and the last one `Q`. -/
def UpToLast (P Q : Text → Prop) : List Text → Prop
  | [] => True
  | [line] => Q line
  | line :: next :: rest => P line ∧ UpToLast P Q (next :: rest)

section UpToLast

variable {P Q : Text → Prop} {lines rest : List Text}

theorem upToLast_cons (line : Text) (h : rest ≠ []) :
    UpToLast P Q (line :: rest) ↔ P line ∧ UpToLast P Q rest := by
  cases rest with
  | nil => exact absurd rfl h
  | cons next rest => exact Iff.rfl

theorem upToLast_append (h : rest ≠ []) :
    UpToLast P Q (lines ++ rest) ↔ (∀ line ∈ lines, P line) ∧ UpToLast P Q rest := by
  induction lines with
  | nil => simp
  | cons line lines ih =>
    rw [List.cons_append, upToLast_cons line (by simp [h]), ih, List.forall_mem_cons, and_assoc]

theorem upToLast_self : UpToLast P P lines ↔ ∀ line ∈ lines, P line := by
  induction lines with
  | nil => simp [UpToLast]
  | cons line lines ih =>
    cases lines with
    | nil => simp [UpToLast]
    | cons next lines =>
      rw [upToLast_cons line (by simp), ih]
      exact List.forall_mem_cons.symm

theorem UpToLast.forall_mem {R : Text → Prop} (h : UpToLast P Q lines)
    (hP : ∀ line, P line → R line)
    (hQ : ∀ line, Q line → R line) : ∀ line ∈ lines, R line := by
  induction lines with
  | nil => simp
  | cons line lines ih =>
    cases lines with
    | nil => simpa using hQ line h
    | cons next lines =>
      rw [upToLast_cons line (by simp)] at h
      exact List.forall_mem_cons.2 ⟨hP line h.1, ih h.2⟩

theorem UpToLast.mono {Q' : Text → Prop} (h : UpToLast P Q lines) (hQ : ∀ line, Q line → Q' line) :
    UpToLast P Q' lines := by
  induction lines with
  | nil => trivial
  | cons line lines ih =>
    cases lines with
    | nil => exact hQ line h
    | cons next lines => exact ⟨h.1, ih h.2⟩

end UpToLast

/-! ## Lines that were read -/

/-- The lines that can stand at the end of a file without a line ending behind them. -/
def CanTrail (line : Text) : Prop := '\n' ∉ line ∧ line ≠ []

/-- What the last line of a file has to satisfy. -/
def LineEnding.Last (e : LineEnding) (finalNewline : Bool) (line : Text) : Prop :=
  if finalNewline then e.Terminates line else CanTrail line

theorem newline_notMem_of_upToLast {e : LineEnding} {finalNewline : Bool} {lines : List Text}
    (h : UpToLast e.Terminates (e.Last finalNewline) lines) : ∀ line ∈ lines, '\n' ∉ line := by
  refine h.forall_mem (fun _ hline => hline.1) fun line hline => ?_
  cases finalNewline with
  | true => exact hline.1
  | false => exact hline.1

/-- **The lines of a text can be written back**, with the ending that the file is given. A last line
that is not terminated ends as the text does. -/
theorem upToLast_lines {e : LineEnding} {t : Text} (he : e = .lf → ¬LineEnding.crlf.text <:+: t) :
    UpToLast e.Terminates (fun line => e.Last (t.getLast? == some '\n') line ∧
      (t.getLast? ≠ some '\n' → line.getLast? = t.getLast?)) t.lines := by
  obtain ⟨ended, rest, rfl, hrest⟩ := EndedLine.exists_flatMap_append t
  -- a line that has the other ending can have this one, because that is not the bare line feed
  have hterm : ∀ line ∈ ended.map EndedLine.line, e.Terminates line := by
    intro line hline
    obtain ⟨l, hl, rfl⟩ := List.mem_map.1 hline
    exact ⟨l.terminates.1, fun hlf => l.terminates.2 (EndedLine.ending_eq_lf (he hlf) hl)⟩
  rw [EndedLine.lines_flatMap]
  by_cases hempty : rest = []
  · subst hempty
    rw [Text.lines, List.append_nil, List.append_nil]
    by_cases hnone : ended = []
    · subst hnone
      trivial
    · rw [EndedLine.getLast?_flatMap hnone]
      exact (upToLast_self.2 hterm).mono fun line hline => ⟨hline, fun hne => absurd rfl hne⟩
  · have hlast : (ended.flatMap EndedLine.text ++ rest).getLast? = rest.getLast? :=
      List.getLast?_append_of_ne_nil _ hempty
    have hfinal : (rest.getLast? == some '\n') = false := by
      simpa using fun h => hrest (List.mem_of_getLast? h)
    rw [Text.lines_of_newline_notMem hrest hempty, hlast, hfinal]
    exact (upToLast_append (by simp)).2 ⟨hterm, ⟨hrest, hempty⟩, fun _ => rfl⟩

/-- Of a text that does not end in a carriage return, every line can be terminated. -/
theorem terminates_of_mem_lines {e : LineEnding} {t : Text}
    (he : e = .lf → ¬LineEnding.crlf.text <:+: t) (hreturn : t.getLast? ≠ some '\r') :
    ∀ line ∈ t.lines, e.Terminates line := by
  refine (upToLast_lines he).forall_mem (fun _ hline => hline) fun line hline => ?_
  by_cases hfinal : t.getLast? = some '\n'
  · rw [show (t.getLast? == some '\n') = true by simp [hfinal]] at hline
    exact hline.1
  · rw [show (t.getLast? == some '\n') = false by simpa using hfinal] at hline
    have htrail : CanTrail line := hline.1
    exact ⟨htrail.1, fun _ => hline.2 hfinal ▸ hreturn⟩

/-! ## Lines that are written -/

/-- Terminated lines are read off the front of a text. -/
theorem lines_flatMap_append {e : LineEnding} {lines : List Text}
    (h : ∀ line ∈ lines, e.Terminates line) (t : Text) :
    Text.lines (lines.flatMap (· ++ e.text) ++ t) = lines ++ Text.lines t := by
  induction lines with
  | nil => rfl
  | cons line lines ih =>
    rw [List.flatMap_cons, List.append_assoc, List.append_assoc,
      LineEnding.lines_append_text (h line (by simp)), ih fun l hl => h l (by simp [hl])]
    rfl

namespace Source

@[simp] theorem ofText_lines (p : Path) (t : Text) : (ofText p t).lines = t.lines := rfl

@[simp] theorem withLines_lines (s : Source) (lines : List Text) :
    (s.withLines lines).lines = lines := rfl

/-- A file with a final line ending is its lines, each with its ending. -/
theorem toText_of_finalNewline {s : Source} (h : s.finalNewline = true) :
    s.toText = s.lines.flatMap (· ++ s.ending.text) := by
  have hjoin (lines : List Text) (hne : lines ≠ []) :
      s.ending.text.intercalate lines ++ s.ending.text = lines.flatMap (· ++ s.ending.text) := by
    induction lines with
    | nil => exact absurd rfl hne
    | cons line lines ih =>
      cases lines with
      | nil => simp [List.intercalate]
      | cons next lines =>
        rw [List.flatMap_cons, ← ih (by simp)]
        simp [List.intercalate]
  cases hlines : s.lines with
  | nil => simp [toText, hlines, List.intercalate]
  | cons line lines =>
    rw [toText, h, hlines]
    exact hjoin (line :: lines) (by simp)

/-- A file without a final line ending ends in its last line. -/
theorem toText_of_not_finalNewline {s : Source} (h : s.finalNewline = false) {init : List Text}
    {last : Text} (hlines : s.lines = init ++ [last]) :
    s.toText = init.flatMap (· ++ s.ending.text) ++ last := by
  rw [toText, h, hlines]
  clear hlines h
  induction init with
  | nil => simp [List.intercalate]
  | cons line init ih =>
    cases init with
    | nil => simp [List.intercalate]
    | cons next init =>
      rw [List.flatMap_cons, List.append_assoc, ← ih]
      simp [List.intercalate]

/-- **What is written is read back.** -/
theorem lines_toText {s : Source}
    (h : UpToLast s.ending.Terminates (s.ending.Last s.finalNewline) s.lines) :
    s.toText.lines = s.lines := by
  cases hfinal : s.finalNewline with
  | true =>
    rw [hfinal] at h
    have hall : ∀ line ∈ s.lines, s.ending.Terminates line :=
      h.forall_mem (fun _ hl => hl) fun _ hl => hl
    have hlines := lines_flatMap_append hall []
    rw [List.append_nil] at hlines
    rw [toText_of_finalNewline hfinal, hlines]
    exact List.append_nil _
  | false =>
    rcases List.eq_nil_or_concat' s.lines with hnil | ⟨init, last, hlines⟩
    · simp [toText, hnil, hfinal, List.intercalate, Text.lines]
    · rw [hlines, upToLast_append (by simp), hfinal] at h
      have hlast : CanTrail last := h.2
      rw [toText_of_not_finalNewline hfinal hlines, lines_flatMap_append h.1, hlines,
        Text.lines_of_newline_notMem hlast.1 hlast.2]

theorem not_crlf_infix_of_ofText (p : Path) (t : Text) :
    (ofText p t).ending = .lf → ¬LineEnding.crlf.text <:+: t := by
  intro hlf hin
  have hocc := Text.occursIn_iff_infix.2 hin
  simp [ofText, hocc] at hlf

/-- The lines of a text that was read can be written back. -/
theorem upToLast_ofText (p : Path) (t : Text) :
    UpToLast (ofText p t).ending.Terminates
      ((ofText p t).ending.Last (ofText p t).finalNewline) (ofText p t).lines := by
  exact (upToLast_lines (not_crlf_infix_of_ofText p t)).mono fun _ hline => hline.1

/-! ## A file in memory and the same file read back

Two things can be different: an empty last line without an ending is not read, and without any line
ending in the text there is none to be seen. -/

/-- A file in memory and what is read from the text that it is written as. -/
structure Reread (s u : Source) : Prop where
  path : u.path = s.path
  lines : s.lines = u.lines ∨ s.lines = u.lines ++ [[]]
  ending : u.ending = s.ending ∨ u.lines.length ≤ 1

theorem lines_or_of_terminates {s : Source} (h : ∀ line ∈ s.lines, s.ending.Terminates line) :
    s.lines = s.toText.lines ∨ s.lines = s.toText.lines ++ [[]] := by
  cases hfinal : s.finalNewline with
  | true =>
    refine .inl (lines_toText ?_).symm
    rw [hfinal]
    exact upToLast_self.2 h
  | false =>
    rcases List.eq_nil_or_concat' s.lines with hnil | ⟨init, last, hlines⟩
    · refine .inl (lines_toText ?_).symm
      rw [hnil]
      trivial
    · rw [hlines] at h
      rw [toText_of_not_finalNewline hfinal hlines,
        lines_flatMap_append fun line hline => h line (by simp [hline]), hlines]
      by_cases hlast : last = []
      · subst hlast
        exact .inr (by simp [Text.lines])
      · exact .inl (by rw [Text.lines_of_newline_notMem (h last (by simp)).1 hlast])

/-- No `\r\n` is written in a file with bare line feeds. -/
theorem not_crlf_infix_append {line t : Text} (h : LineEnding.lf.Terminates line)
    (ht : ¬LineEnding.crlf.text <:+: t) :
    ¬LineEnding.crlf.text <:+: line ++ (LineEnding.lf.text ++ t) := by
  intro hin
  rcases List.infix_append_iff.1 hin with hline | hrest | ⟨left, right, hparts, hleft, hright⟩
  · exact h.1 (hline.subset (by decide))
  · rcases List.infix_cons_iff.1 hrest with hpre | hrest
    · exact absurd (List.cons_prefix_cons.1 hpre).1 (by decide)
    · exact ht hrest
  · -- the two characters stand on both sides of the end of the line
    match left, hparts with
    | [], hparts =>
      rw [List.nil_append] at hparts
      rw [← hparts] at hright
      exact absurd (List.cons_prefix_cons.1 hright).1 (by decide)
    | c :: [], hparts =>
      obtain ⟨init, rfl⟩ := hleft
      obtain ⟨rfl, -⟩ := List.cons.inj hparts
      exact h.2 rfl (List.getLast?_concat ..)
    | c :: d :: left, hparts =>
      have hd : d = '\n' := (List.cons.inj (List.cons.inj hparts).2).1.symm
      exact h.1 (hleft.subset (by simp [hd]))

theorem not_crlf_infix_flatMap {lines : List Text}
    (h : ∀ line ∈ lines, LineEnding.lf.Terminates line) {t : Text}
    (ht : ¬LineEnding.crlf.text <:+: t) :
    ¬LineEnding.crlf.text <:+: lines.flatMap (· ++ LineEnding.lf.text) ++ t := by
  induction lines with
  | nil => exact ht
  | cons line lines ih =>
    rw [List.flatMap_cons, List.append_assoc, List.append_assoc]
    exact not_crlf_infix_append (h line (by simp)) (ih fun l hl => h l (by simp [hl]))

theorem ending_ofText_of_not_crlf {p : Path} {t : Text} (h : ¬LineEnding.crlf.text <:+: t) :
    (ofText p t).ending = .lf := by
  have hocc := Text.occursIn_eq_false_iff.2 h
  simp [ofText, hocc]

theorem ending_ofText_of_crlf {p : Path} {t : Text} (h : LineEnding.crlf.text <:+: t) :
    (ofText p t).ending = .crlf := by
  have hocc := Text.occursIn_iff_infix.2 h
  simp [ofText, hocc]

/-- A written file shows its line ending, if it has any. -/
theorem ending_ofText_toText {s : Source} (h : ∀ line ∈ s.lines, s.ending.Terminates line) :
    (ofText s.path s.toText).ending = s.ending ∨ s.lines.length ≤ 1 := by
  have hinfix (line : Text) (rest : List Text) (t : Text) :
      s.ending.text <:+: (line :: rest).flatMap (· ++ s.ending.text) ++ t :=
    ⟨line, rest.flatMap (· ++ s.ending.text) ++ t, by simp⟩
  -- with bare line feeds no `\r\n` is written, and otherwise the first ending is one
  cases hending : s.ending with
  | lf =>
    refine .inl (ending_ofText_of_not_crlf ?_)
    rw [hending] at h
    have hnil : ¬LineEnding.crlf.text <:+: ([] : Text) := by simp [LineEnding.text]
    cases hfinal : s.finalNewline with
    | true =>
      have hwritten := not_crlf_infix_flatMap h hnil
      rw [toText_of_finalNewline hfinal, hending]
      simpa using hwritten
    | false =>
      rcases List.eq_nil_or_concat' s.lines with hempty | ⟨init, last, hlines⟩
      · simpa [toText, hempty, List.intercalate] using hnil
      · rw [toText_of_not_finalNewline hfinal hlines, hending]
        refine not_crlf_infix_flatMap (fun l hl => h l (by simp [hlines, hl])) fun hin => ?_
        exact (h last (by simp [hlines])).1 (hin.subset (by decide))
  | crlf =>
    cases hfinal : s.finalNewline with
    | true =>
      cases hlines : s.lines with
      | nil => exact .inr (by simp)
      | cons line rest =>
        have hin := hinfix line rest []
        rw [List.append_nil, ← hlines, ← toText_of_finalNewline hfinal, hending] at hin
        exact .inl (ending_ofText_of_crlf hin)
    | false =>
      rcases List.eq_nil_or_concat' s.lines with hempty | ⟨init, last, hlines⟩
      · exact .inr (by simp [hempty])
      · cases init with
        | nil => exact .inr (by simp [hlines])
        | cons line rest =>
          have hin := hinfix line rest last
          rw [← toText_of_not_finalNewline hfinal hlines, hending] at hin
          exact .inl (ending_ofText_of_crlf hin)

/-- **What is read back from a written file.** -/
theorem reread_ofText_toText {s : Source} (h : ∀ line ∈ s.lines, s.ending.Terminates line) :
    Reread s (ofText s.path s.toText) := by
  have hlines := lines_or_of_terminates h
  refine ⟨rfl, hlines, (ending_ofText_toText h).imp_right fun hshort => ?_⟩
  show s.toText.lines.length ≤ 1
  rcases hlines with hsame | hempty
  · rw [hsame] at hshort
    exact hshort
  · rw [hempty, List.length_append] at hshort
    omega

end Source

end ContractLint
