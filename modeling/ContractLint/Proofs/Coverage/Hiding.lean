import ContractLint.Proofs.Comment.Automaton
import ContractLint.Proofs.Coverage.AssertionParts

/-!
# Comments around hidden assertions

Hiding puts `/*` before a statement and `*/` after it. Block comments do not nest, so what this does
to the file depends on the delimiters inside the statement.

## The architecture

* **`Span.Placed`** — the place of one hidden statement: which lines it takes and what became of
  each. All statements about a single span start from it (`placed_of_mem`).
* **lead, code and tail** — a hidden line is what stands before the statement, the statement's own
  text, and the rest (`hideLine_eq`). The automaton reads them one after the other.
* **`hidden_iff`** — a statement is hidden as a whole exactly if it holds no `*/` of its own, and
  the `/*` put before it does not run into a `/`.
* **`advanceAll_hidden`** — if no statement holds a delimiter, the comment state around the
  statements is what it was.
-/

namespace ContractLint.Coverage

/-! ## Lines of a span -/

namespace Span

/-- Whether line number `i` belongs to the span. -/
def Covers (s : Span) (i : Nat) : Prop := s.first ≤ i ∧ i ≤ s.last

instance (s : Span) (i : Nat) : Decidable (s.Covers i) := inferInstanceAs (Decidable (_ ∧ _))

/-- The lines of the span. -/
def lines (s : Span) (lines : List Text) : List Text :=
  (lines.drop s.first).take (s.last + 1 - s.first)

/-- What hiding the span does to its line number `i`. -/
def hideLine (s : Span) (i : Nat) (line : Text) : Text :=
  let opened := if i = s.first then openHidden line else line
  if i = s.last then closeHidden opened else opened

/-- What stands before the statement on line number `i` once it is hidden. -/
def lead (s : Span) (i : Nat) (line : Text) : Text :=
  if i = s.first then List.replicate (line.indentWidth - 2) ' ' ++ Comment.opener else []

/-- The part of line number `i` that belongs to the statement: the first line without its
indentation, the last one up to the end of the call. -/
def code (s : Span) (i : Nat) (line : Text) : Text :=
  let text := if i = s.first then line.trimStart else line
  if i = s.last then
    match Text.cut callClose text with
    | some (before, _) => before ++ callClose
    | none => text
  else text

/-- What stands behind the statement on line number `i` once it is hidden. -/
def tail (s : Span) (i : Nat) (line : Text) : Text :=
  if i = s.last then
    match Text.cut callClose line with
    | some (_, after) => Comment.closer ++ after
    | none => []
  else []

end Span

/-- Blanks hold no end of a call, so it is found in the code of a line. -/
theorem cut_callClose_trimStart (line : Text) :
    Text.cut callClose line =
      (Text.cut callClose line.trimStart).map fun (before, after) =>
        (line.indent ++ before, after) := by
  have hblank : ')' ∉ line.indent := fun h => absurd (Text.isBlank_of_mem_indent h) (by decide)
  conv_lhs => rw [← Text.indent_append_trimStart line]
  exact Text.cut_append_of_notMem hblank line.trimStart

/-- The end of a call on a line, by the place that it has in the code. -/
theorem exists_cut_trimStart {line : Text} (h : callClose.occursIn line = true) :
    ∃ before after, Text.cut callClose line.trimStart = some (before, after) ∧
      Text.cut callClose line = some (line.indent ++ before, after) := by
  obtain ⟨before, after, hcut⟩ := Text.exists_cut_of_infix (Text.occursIn_iff_infix.1 h)
  rw [cut_callClose_trimStart] at hcut
  obtain ⟨⟨before, after⟩, htrim, -⟩ := Option.map_eq_some_iff.1 hcut
  refine ⟨before, after, htrim, ?_⟩
  rw [cut_callClose_trimStart, htrim]
  rfl

theorem cut_callClose_openHidden (line : Text) :
    Text.cut callClose (openHidden line) =
      (Text.cut callClose line.trimStart).map fun (before, after) =>
        (List.replicate (line.indentWidth - 2) ' ' ++ Comment.opener ++ before, after) := by
  have hlead : ')' ∉ List.replicate (line.indentWidth - 2) ' ' ++ Comment.opener := by
    simp [Comment.opener]
  exact Text.cut_append_of_notMem hlead line.trimStart

theorem closeHidden_of_cut {line before after : Text}
    (h : Text.cut callClose line = some (before, after)) :
    closeHidden line = before ++ callClose ++ Comment.closer ++ after := by
  rw [closeHidden, h]

/-- A hidden line is its lead, its code and its tail. -/
theorem Span.hideLine_eq (s : Span) {i : Nat} {line : Text}
    (hclose : i = s.last → callClose.occursIn line = true) :
    s.hideLine i line = s.lead i line ++ s.code i line ++ s.tail i line := by
  unfold Span.hideLine Span.lead Span.code Span.tail
  by_cases hlast : i = s.last
  · obtain ⟨before, after, htrim, hcut⟩ := exists_cut_trimStart (hclose hlast)
    by_cases hfirst : i = s.first
    · have hopen := cut_callClose_openHidden line
      rw [htrim] at hopen
      simp only [if_pos hlast, if_pos hfirst, hcut, htrim, closeHidden_of_cut hopen]
      simp
    · simp only [if_pos hlast, if_neg hfirst, hcut, closeHidden_of_cut hcut]
      simp
  · by_cases hfirst : i = s.first
    · simp [if_neg hlast, if_pos hfirst, openHidden]
    · simp [if_neg hlast, if_neg hfirst]

/-! ## The place of a hidden statement -/

/-- A span that was hidden, in the file before and after. -/
structure Span.Placed (s : Span) (lines out : List Text) : Prop where
  first_le_last : s.first ≤ s.last
  last_lt : s.last < lines.length
  opens : ∀ line, lines[s.first]? = some line → opensAssertion line = true
  closes : ∀ line, lines[s.last]? = some line → callClose.occursIn line = true
  hidden : ∀ i, s.Covers i → out[i]? = lines[i]?.map (s.hideLine i)

theorem Part.mem_spansFrom {i : Nat} {parts : List Part} {s : Span}
    (h : s ∈ spansFrom i parts) :
    ∃ before a after, parts = before ++ .assertion a :: after ∧
      s = ⟨.assertion, i + (before.flatMap Part.lines).length,
        i + (before.flatMap Part.lines).length + a.body.length⟩ := by
  induction parts generalizing i with
  | nil => simp [spansFrom] at h
  | cons p parts ih =>
    cases p with
    | plain line =>
      obtain ⟨before, a, after, rfl, rfl⟩ := ih h
      refine ⟨.plain line :: before, a, after, rfl, ?_⟩
      simp only [List.flatMap_cons, List.length_append, Part.lines, List.length_singleton,
        Span.mk.injEq, true_and]
      omega
    | assertion a =>
      rcases List.mem_cons.1 h with rfl | h
      · exact ⟨[], a, parts, rfl, rfl⟩
      · obtain ⟨before, b, after, rfl, rfl⟩ := ih h
        refine ⟨.assertion a :: before, b, after, rfl, ?_⟩
        simp only [List.flatMap_cons, List.length_append, Part.lines, Assertion.length_lines,
          Span.mk.injEq, true_and]
        omega

theorem Assertion.getElem?_hidden (a : Assertion) (first j : Nat) :
    a.hidden[j]? = a.lines[j]?.map
      (Span.hideLine ⟨.assertion, first, first + a.body.length⟩ (first + j)) := by
  obtain ⟨body, closing, hopens, hbody, hcloses⟩ := a
  cases body with
  | nil =>
    cases j with
    | zero => simp [hidden, lines, Span.hideLine]
    | succ j => simp [hidden, lines]
  | cons line middle =>
    cases j with
    | zero => simp [hidden, lines, Span.hideLine]
    | succ j =>
      -- past the first line only the closing one changes
      have hline : Span.hideLine ⟨.assertion, first, first + (line :: middle).length⟩
          (first + (j + 1)) = fun l => if j = middle.length then closeHidden l else l := by
        funext l
        simp [Span.hideLine]
      rw [hline]
      simp only [hidden, lines, List.cons_append, List.getElem?_cons_succ]
      rcases Nat.lt_trichotomy j middle.length with hj | rfl | hj
      · rw [List.getElem?_append_left hj, List.getElem?_append_left hj]
        simp [Nat.ne_of_lt hj]
      · simp
      · rw [List.getElem?_eq_none (by simp; omega), List.getElem?_eq_none (by simp; omega)]
        rfl

theorem Part.length_flatMap_hidden (parts : List Part) :
    (parts.flatMap Part.hidden).length = (parts.flatMap Part.lines).length := by
  simp [List.length_flatMap]

/-- Every span that is found is the place of a hidden statement. -/
theorem placed_of_mem {lines : List Text} {spans : List Span} {r : Revision} {s : Span}
    (hspans : locateAssertions lines = .ok spans) (hr : hideAssertions lines = .ok r)
    (hs : s ∈ spans) : s.Placed lines r.lines := by
  obtain ⟨parts, -, rfl, rfl, hout⟩ := exists_scanned_of_hideAssertions hspans hr
  obtain ⟨before, a, after, rfl, rfl⟩ := Part.mem_spansFrom hs
  rw [hout]
  simp only [Nat.zero_add, List.flatMap_append, List.flatMap_cons, Part.lines, Part.hidden]
  set first := (before.flatMap Part.lines).length with hfirst
  have hlen : (before.flatMap Part.hidden).length = first := Part.length_flatMap_hidden before
  -- line `first + j` of the file is line `j` of the assertion
  have hline (j : Nat) (hj : j ≤ a.body.length) :
      (before.flatMap Part.lines ++ (a.lines ++ after.flatMap Part.lines))[first + j]?
        = a.lines[j]? := by
    rw [List.getElem?_append_right (by omega), ← hfirst, Nat.add_sub_cancel_left,
      List.getElem?_append_left (by simp; omega)]
  have hlast : first + a.body.length <
      (before.flatMap Part.lines ++ (a.lines ++ after.flatMap Part.lines)).length := by
    simp only [List.length_append, Assertion.length_lines, ← hfirst]
    omega
  refine ⟨Nat.le_add_right .., hlast, fun line h => ?_, fun line h => ?_, fun i hi => ?_⟩
  · have hhead : a.lines.head? = some line := by
      rw [List.head?_eq_getElem?, ← hline 0 (Nat.zero_le _)]
      exact h
    have hopens : a.lines.head?.any opensAssertion = true := a.opens
    simpa [hhead] using hopens
  · rw [hline a.body.length (le_refl _), Assertion.lines, List.getElem?_concat_length] at h
    cases h
    exact a.closes
  · obtain ⟨j, rfl⟩ := Nat.exists_eq_add_of_le hi.1
    have hj : j ≤ a.body.length := by simpa using hi.2
    show (before.flatMap Part.hidden ++ (a.hidden ++ after.flatMap Part.hidden))[first + j]? =
      (before.flatMap Part.lines ++ (a.lines ++ after.flatMap Part.lines))[first + j]?.map
        (Span.hideLine ⟨.assertion, first, first + a.body.length⟩ (first + j))
    rw [hline j hj, List.getElem?_append_right (by omega), hlen, Nat.add_sub_cancel_left,
      List.getElem?_append_left (by simp; omega), a.getElem?_hidden first j]

/-! ## A statement hidden as a whole

The automaton enters the block comment with the lead and stays in it until the first `*/`. If the
file already has a comment open there, the `/*` of the lead is part of that comment, and its star
together with a `/` at the start of the statement would end it. -/

/-- The statement of a span is hidden: on each of its lines the statement's text stands behind the
lead, and every character of it is inside a comment. -/
def Span.Hidden (s : Span) (lines out : List Text) : Prop :=
  ∀ i line, s.Covers i → lines[i]? = some line →
    ∃ rest, out[i]? = some (s.lead i line ++ s.code i line ++ rest) ∧
      ∀ before c after, s.code i line = before ++ c :: after →
        Comment.hidesAt? (Comment.advanceAll false (out.take i))
          (s.lead i line ++ s.code i line ++ rest) (Text.byteSize (s.lead i line ++ before)) =
            some true

theorem hidesAt?_append (inBlock : Bool) (p q : Text) :
    Comment.hidesAt? inBlock (p ++ q) (Text.byteSize p) = some (Comment.hides inBlock p) := by
  rw [Comment.hidesAt?, Text.takeBytes?_append]
  rfl

/-- The lead opens a comment, or its `/*` is read inside the one that is open. -/
theorem run_lead_append (inBlock : Bool) {t : Text} (n : Nat) (hfree : ¬Comment.closer <:+: t)
    (hhead : inBlock = true → t.head? ≠ some '/') :
    Lexer.run (Lexer.start inBlock) (List.replicate n ' ' ++ Comment.opener ++ t) = .block ∨
      Lexer.run (Lexer.start inBlock) (List.replicate n ' ' ++ Comment.opener ++ t) = .star := by
  have hblanks (s : Lexer) (hs : s.step ' ' = s) : Lexer.run s (List.replicate n ' ') = s := by
    induction n with
    | zero => rfl
    | succ n ih => rw [List.replicate_succ, Lexer.run_cons, hs, ih]
  rw [Lexer.run_append, Lexer.run_append]
  cases inBlock with
  | false =>
    rw [Lexer.start_false, hblanks .code rfl]
    exact Comment.run_block_of_not_closer hfree
  | true =>
    rw [Lexer.start_true, hblanks .block rfl]
    show Lexer.run .star t = .block ∨ Lexer.run .star t = .star
    cases t with
    | nil => exact .inr rfl
    | cons c t =>
      -- the star of the lead and a first character that is not `/` make no delimiter
      have hc : c ≠ '/' := by simpa using hhead rfl
      have hstep : Lexer.star.step c = Lexer.block.step c := by simp [Lexer.step, hc]
      rw [Lexer.run_cons, hstep, ← Lexer.run_cons]
      exact Comment.run_block_of_not_closer hfree

namespace Span.Placed

variable {s : Span} {lines out : List Text} {i : Nat} {line : Text}

theorem getElem?_out (h : s.Placed lines out) (hi : s.Covers i) (hline : lines[i]? = some line) :
    out[i]? = some (s.lead i line ++ s.code i line ++ s.tail i line) := by
  rw [h.hidden i hi, hline, Option.map_some, s.hideLine_eq]
  rintro rfl
  exact h.closes line hline

theorem exists_line (h : s.Placed lines out) (hi : s.Covers i) : ∃ line, lines[i]? = some line := by
  have hlt : i < lines.length := Nat.lt_of_le_of_lt hi.2 h.last_lt
  exact ⟨lines[i], List.getElem?_eq_getElem hlt⟩

/-- The statement's text on its last line ends with the end of the call. -/
theorem exists_code_last (h : s.Placed lines out) (hline : lines[s.last]? = some line) :
    ∃ before, s.code s.last line = before ++ callClose := by
  obtain ⟨before, after, htrim, hcut⟩ := exists_cut_trimStart (h.closes line hline)
  unfold Span.code
  rw [if_pos rfl]
  by_cases hfirst : s.last = s.first
  · exact ⟨before, by simp only [if_pos hfirst, htrim]⟩
  · exact ⟨line.indent ++ before, by simp only [if_neg hfirst, hcut]⟩

/-- Reading a line of the statement up to a place in its text, inside the comment. -/
theorem run_lead (s : Span) {inBlock : Bool} {t : Text} (line : Text)
    (hfree : ¬Comment.closer <:+: t) (hstate : i ≠ s.first → inBlock = true)
    (hhead : i = s.first → inBlock = true → t.head? ≠ some '/') :
    Lexer.run (Lexer.start inBlock) (s.lead i line ++ t) = .block ∨
      Lexer.run (Lexer.start inBlock) (s.lead i line ++ t) = .star := by
  unfold Span.lead
  split
  · next hi => exact run_lead_append _ _ hfree (hhead hi)
  · next hi =>
    rw [hstate hi]
    exact Comment.run_block_of_not_closer hfree

/-- A line of the statement without `*/` leaves the comment open for the next one. -/
theorem advanceAll_take_succ_of_free (h : s.Placed lines out) (hfirst : s.first ≤ i)
    (hlast : i < s.last) (hline : lines[i]? = some line)
    (hfree : ¬Comment.closer <:+: s.code i line)
    (hstate : i ≠ s.first → Comment.advanceAll false (out.take i) = true)
    (hhead : i = s.first → Comment.advanceAll false (out.take i) = true →
      (s.code i line).head? ≠ some '/') :
    Comment.advanceAll false (out.take (i + 1)) = true := by
  have htail : s.tail i line = [] := by rw [Span.tail, if_neg (by omega)]
  have hout := h.getElem?_out ⟨hfirst, by omega⟩ hline
  rw [Comment.advanceAll_take_succ false hout, htail, List.append_nil, Comment.advance_eq_run]
  rcases run_lead s line hfree hstate hhead with hrun | hrun <;> rw [hrun] <;> rfl

/-- As long as the statement holds no `*/`, its further lines begin inside the comment. -/
theorem advanceAll_take (h : s.Placed lines out)
    (hhead : ∀ line, lines[s.first]? = some line → (s.code s.first line).head? = some '/' →
      Comment.advanceAll false (out.take s.first) = false)
    (hfree : ∀ j line, s.first ≤ j → j < i → lines[j]? = some line →
      ¬Comment.closer <:+: s.code j line)
    (hlt : s.first < i) (hle : i ≤ s.last) :
    Comment.advanceAll false (out.take i) = true := by
  induction i, hlt using Nat.le_induction with
  | base =>
    obtain ⟨line, hline⟩ := h.exists_line ⟨le_refl _, h.first_le_last⟩
    refine h.advanceAll_take_succ_of_free (le_refl _) hle hline
      (hfree _ line (le_refl _) (Nat.lt_succ_self _) hline) (fun hne => absurd rfl hne) ?_
    intro _ hopen hslash
    rw [hhead line hline hslash] at hopen
    cases hopen
  | succ j hj ih =>
    obtain ⟨line, hline⟩ := h.exists_line (i := j) ⟨by omega, by omega⟩
    have hbefore := ih (fun k line hk hkj => hfree k line hk (by omega)) (by omega)
    exact h.advanceAll_take_succ_of_free (by omega) (by omega) hline
      (hfree j line (by omega) (by omega) hline) (fun _ => hbefore) (fun hj => by omega)

/-- A statement with a character of its own at the start of a line that begins as code is not
hidden. -/
theorem not_hidden_of_code_cons (hcov : s.Covers i) (hline : lines[i]? = some line)
    (hlead : s.lead i line = []) {c : Char} {after : Text} (hc : s.code i line = c :: after)
    (hcode : Comment.advanceAll false (out.take i) = false) : ¬s.Hidden lines out := by
  intro hhidden
  obtain ⟨rest, -, hall⟩ := hhidden i line hcov hline
  have hfirst := hall [] c after hc
  rw [hlead, hcode] at hfirst
  simp [Comment.hidesAt?, Text.takeBytes?, Comment.hides_eq_run, Lexer.region] at hfirst

/-- Once a line of the statement begins as code, the statement is not hidden: the next character of
it is not. -/
theorem not_hidden_of_code (h : s.Placed lines out) (hlt : s.first < i) (hle : i ≤ s.last)
    (hcode : Comment.advanceAll false (out.take i) = false) : ¬s.Hidden lines out := by
  -- the last line of a statement is never empty, so going down over empty lines ends
  induction hd : s.last - i generalizing i with
  | zero =>
    obtain rfl : i = s.last := by omega
    have hcov : s.Covers s.last := ⟨h.first_le_last, le_refl _⟩
    obtain ⟨line, hline⟩ := h.exists_line hcov
    obtain ⟨before, hbefore⟩ := h.exists_code_last hline
    have hlead : s.lead s.last line = [] := by rw [Span.lead, if_neg (by omega)]
    obtain ⟨c, after, hc⟩ : ∃ c after, s.code s.last line = c :: after := by
      rw [hbefore]
      cases before <;> simp [callClose]
    exact not_hidden_of_code_cons hcov hline hlead hc hcode
  | succ d ih =>
    have hcov : s.Covers i := ⟨by omega, hle⟩
    obtain ⟨line, hline⟩ := h.exists_line hcov
    have hlead : s.lead i line = [] := by rw [Span.lead, if_neg (by omega)]
    cases hc : s.code i line with
    | nil =>
      have htail : s.tail i line = [] := by rw [Span.tail, if_neg (by omega)]
      have hempty := h.getElem?_out hcov hline
      rw [hlead, hc, htail] at hempty
      refine ih (i := i + 1) (by omega) (by omega) ?_ (by omega)
      rw [Comment.advanceAll_take_succ false hempty, hcode]
      exact Comment.advance_false_of_not_opener (by simp [Comment.opener])
    | cons c after => exact not_hidden_of_code_cons hcov hline hlead hc hcode

/-- If the automaton is back in code behind some of the statement's text, and the statement goes on,
then it is not hidden. -/
theorem not_hidden_of_run_code (h : s.Placed lines out) (hcov : s.Covers i)
    (hline : lines[i]? = some line) {x y : Text} (hsplit : s.code i line = x ++ y)
    (hrun : Lexer.run (Lexer.start (Comment.advanceAll false (out.take i)))
      (s.lead i line ++ x) = .code)
    (hy : i = s.last → y ≠ []) : ¬s.Hidden lines out := by
  cases y with
  | nil =>
    -- the statement goes on with the next line, which begins as code
    have hlast : i ≠ s.last := fun hi => hy hi rfl
    have hlt : i < s.last := Nat.lt_of_le_of_ne hcov.2 hlast
    have htail : s.tail i line = [] := by rw [Span.tail, if_neg hlast]
    refine h.not_hidden_of_code (i := i + 1) (Nat.lt_succ_of_le hcov.1) hlt ?_
    rw [Comment.advanceAll_take_succ false (h.getElem?_out hcov hline), htail, List.append_nil,
      hsplit, List.append_nil, Comment.advance_eq_run, hrun]
    rfl
  | cons c y =>
    intro hhidden
    obtain ⟨rest, -, hall⟩ := hhidden i line hcov hline
    have hplace := hall x c y hsplit
    rw [hsplit, ← List.append_assoc, List.append_assoc _ (c :: y), hidesAt?_append,
      Comment.hides_eq_run, hrun] at hplace
    cases hplace

/-- While no `*/` has been read, every place in the statement's text is inside the comment. -/
theorem run_code_prefix (h : s.Placed lines out)
    (hhead : ∀ line, lines[s.first]? = some line → (s.code s.first line).head? = some '/' →
      Comment.advanceAll false (out.take s.first) = false)
    (hfree : ∀ j line, s.first ≤ j → j < i → lines[j]? = some line →
      ¬Comment.closer <:+: s.code j line)
    (hcov : s.Covers i) (hline : lines[i]? = some line) {x y : Text}
    (hsplit : s.code i line = x ++ y) (hx : ¬Comment.closer <:+: x) :
    Lexer.run (Lexer.start (Comment.advanceAll false (out.take i))) (s.lead i line ++ x) = .block ∨
      Lexer.run (Lexer.start (Comment.advanceAll false (out.take i))) (s.lead i line ++ x) =
        .star := by
  refine run_lead s line hx (fun hne => ?_) ?_
  · have hlt : s.first < i := Nat.lt_of_le_of_ne hcov.1 (Ne.symm hne)
    exact h.advanceAll_take hhead hfree hlt hcov.2
  · rintro rfl hopen hslash
    have hc : (s.code s.first line).head? = some '/' := by
      rw [hsplit, List.head?_append, hslash]
      rfl
    rw [hhead line hline hc] at hopen
    cases hopen

/-- A hidden statement that starts with `/` does not stand in a comment that was open before. -/
theorem advanceAll_first_of_hidden (h : s.Placed lines out) (hhidden : s.Hidden lines out)
    (hline : lines[s.first]? = some line) (hslash : (s.code s.first line).head? = some '/') :
    Comment.advanceAll false (out.take s.first) = false := by
  by_contra hopen
  rw [Bool.not_eq_false] at hopen
  obtain ⟨y, hy⟩ : ∃ y, s.code s.first line = ['/'] ++ y := by
    cases hc : s.code s.first line with
    | nil => simp [hc] at hslash
    | cons c y => exact ⟨y, by simpa [hc] using hslash⟩
  refine h.not_hidden_of_run_code ⟨le_refl _, h.first_le_last⟩ hline hy ?_ ?_ hhidden
  · -- in an open comment the lead ends in a star, and the slash closes the comment
    have hstar : Lexer.run .block (s.lead s.first line) = .star := by
      rw [Span.lead, if_pos rfl, Lexer.run_append]
      generalize line.indentWidth - 2 = n
      induction n with
      | zero => rfl
      | succ n ih => exact ih
    rw [hopen, Lexer.start_true, Lexer.run_append, hstar]
    rfl
  · rintro hlast rfl
    obtain ⟨before, hbefore⟩ := h.exists_code_last (hlast ▸ hline)
    rw [← hlast, hy] at hbefore
    have hlen := congrArg List.length hbefore
    simp [callClose] at hlen

/-- A hidden statement holds no `*/`. -/
theorem not_closer_of_hidden (h : s.Placed lines out) (hhidden : s.Hidden lines out)
    (hcov : s.Covers i) (hline : lines[i]? = some line) :
    ¬Comment.closer <:+: s.code i line := by
  -- the first line with a `*/` is read from inside the comment, so go by the least
  induction i using Nat.strongRecOn generalizing line with
  | _ i ih =>
  intro hin
  obtain ⟨x, y, hcut⟩ := Text.exists_cut_of_infix hin
  have hx : ¬Comment.closer <:+: x := Text.not_infix_of_cut (by simp [Comment.closer]) hcut
  have hsplit := Text.cut_eq_some_append hcut
  have hrun := h.run_code_prefix (fun _ => h.advanceAll_first_of_hidden hhidden)
    (fun j line hj hji hline => ih j hji ⟨hj, Nat.le_trans (Nat.le_of_lt hji) hcov.2⟩ hline)
    hcov hline (by rw [hsplit, List.append_assoc]) hx
  refine h.not_hidden_of_run_code hcov hline hsplit ?_ ?_ hhidden
  · rw [← List.append_assoc, Lexer.run_append]
    rcases hrun with hrun | hrun <;> rw [hrun] <;> rfl
  · rintro rfl rfl
    obtain ⟨before, hbefore⟩ := h.exists_code_last hline
    rw [hsplit] at hbefore
    have hend := congrArg List.getLast? hbefore
    simp [callClose, Comment.closer] at hend

/-- **When a statement is hidden as a whole**, for one span. -/
theorem hidden_iff (h : s.Placed lines out) :
    s.Hidden lines out ↔
      (∀ i line, s.Covers i → lines[i]? = some line → ¬Comment.closer <:+: s.code i line) ∧
        ∀ line, lines[s.first]? = some line → (s.code s.first line).head? = some '/' →
          Comment.advanceAll false (out.take s.first) = false := by
  constructor
  · intro hhidden
    exact ⟨fun i line => h.not_closer_of_hidden hhidden,
      fun line => h.advanceAll_first_of_hidden hhidden⟩
  · rintro ⟨hfree, hhead⟩ i line hcov hline
    refine ⟨s.tail i line, h.getElem?_out hcov hline, fun before c after hsplit => ?_⟩
    have hbefore : ¬Comment.closer <:+: before := fun hcl =>
      hfree i line hcov hline (hcl.trans ⟨[], c :: after, by simp [hsplit]⟩)
    have hrun := h.run_code_prefix hhead
      (fun j line hj hji => hfree j line ⟨hj, Nat.le_trans (Nat.le_of_lt hji) hcov.2⟩)
      hcov hline hsplit hbefore
    rw [hsplit, ← List.append_assoc, List.append_assoc _ (c :: after), hidesAt?_append,
      Comment.hides_eq_run]
    rcases hrun with hrun | hrun <;> rw [hrun] <;> rfl

end Span.Placed

/-- **When hiding covers the whole statement.** Each span's statement is hidden from its first
character to the end of the call exactly if its text holds no `*/` and, should it start with `/`, no
block comment is open in the result where it starts. -/
theorem statement_hidden_iff {lines : List Text} {spans : List Span} {r : Revision} {s : Span}
    (hspans : locateAssertions lines = .ok spans) (hr : hideAssertions lines = .ok r)
    (hs : s ∈ spans) :
    s.Hidden lines r.lines ↔
      (∀ i line, s.Covers i → lines[i]? = some line →
        Comment.closer.occursIn (s.code i line) = false) ∧
        ∀ line, lines[s.first]? = some line → (s.code s.first line).head? = some '/' →
          Comment.advanceAll false (r.lines.take s.first) = false := by
  simp only [Text.occursIn_eq_false_iff]
  exact (placed_of_mem hspans hr hs).hidden_iff

/-- A statement over several lines, below one that its own comment tears open. -/
theorem statement_hidden_multiline :
    Span.Hidden ⟨.assertion, 1, 3⟩
      ["assert(a /* b */ > 0);", "    assert(", "        x // y", "    );"]
      ["/*assert(a /* b */ > 0);*/", "  /*assert(", "        x // y", "    );*/"] := by
  have hspans : locateAssertions
      ["assert(a /* b */ > 0);", "    assert(", "        x // y", "    );"] =
        .ok [⟨.assertion, 0, 0⟩, ⟨.assertion, 1, 3⟩] := by decide +kernel
  have hr : hideAssertions
      ["assert(a /* b */ > 0);", "    assert(", "        x // y", "    );"] =
        .ok ⟨["/*assert(a /* b */ > 0);*/", "  /*assert(", "        x // y", "    );*/"], 2⟩ := by
    decide +kernel
  refine (statement_hidden_iff hspans hr (by simp)).2 ⟨?_, ?_⟩
  · rintro i line ⟨hfirst, hlast⟩ hline
    obtain rfl | rfl | rfl : i = 1 ∨ i = 2 ∨ i = 3 := by
      simp only at hfirst hlast
      omega
    all_goals
      cases hline
      decide +kernel
  · rintro line hline
    cases hline
    decide +kernel

/-- A comment inside a statement ends the one around it: what follows is not hidden. -/
theorem statement_not_hidden_inner_comment :
    locateAssertions ["assert(a /* b */ > 0);"] = .ok [⟨.assertion, 0, 0⟩] ∧
      hideAssertions ["assert(a /* b */ > 0);"] = .ok ⟨["/*assert(a /* b */ > 0);*/"], 1⟩ ∧
        ¬Span.Hidden ⟨.assertion, 0, 0⟩ ["assert(a /* b */ > 0);"]
          ["/*assert(a /* b */ > 0);*/"] := by
  refine ⟨by decide +kernel, by decide +kernel, fun hhidden => ?_⟩
  obtain ⟨rest, -, hall⟩ := hhidden 0 _ (by decide) rfl
  set span : Span := ⟨.assertion, 0, 0⟩
  have hcode : span.code 0 "assert(a /* b */ > 0);" = "assert(a /* b */" ++ ' ' :: "> 0);" := by
    decide +kernel
  have hplace := hall _ _ _ hcode
  -- the place of the character is decided by what stands before it
  rw [hcode, ← List.append_assoc, List.append_assoc _ (' ' :: _), hidesAt?_append] at hplace
  revert hplace
  decide +kernel

/-! ## The comment state around statements

A statement without delimiters starts and ends outside of comments, before and after hiding. So the
two files are in step wherever a part begins. -/

/-- A line that closes the hiding comment leaves none open, if it holds no delimiter of its own. -/
theorem advance_closed {inBlock : Bool} {p after : Text}
    (hrun : Lexer.run (Lexer.start inBlock) p = .block ∨
      Lexer.run (Lexer.start inBlock) p = .star)
    (hafter : ¬Comment.opener <:+: after) :
    Comment.advance inBlock (p ++ Comment.closer ++ after) = false := by
  have hcode : Lexer.run (Lexer.start inBlock) (p ++ Comment.closer) = .code := by
    rw [Lexer.run_append]
    rcases hrun with hrun | hrun <;> rw [hrun] <;> rfl
  rw [Comment.advance_eq_run, Lexer.run_append, hcode]
  simpa using Comment.run_code_of_not_opener hafter

theorem advance_openHidden {line : Text} (hfree : ¬Comment.closer <:+: line) :
    Comment.advance false (openHidden line) = true := by
  have htrim : ¬Comment.closer <:+: line.trimStart := fun h =>
    hfree (h.trans (Text.isSuffix_trimStart line).isInfix)
  rw [Comment.advance_eq_run, openHidden]
  rcases run_lead_append false _ htrim (by simp) with hrun | hrun <;> rw [hrun] <;> rfl

theorem advance_closeHidden {line : Text} (hfree : Comment.blockFree line = true)
    (hclose : callClose.occursIn line = true) :
    Comment.advance true (closeHidden line) = false := by
  obtain ⟨hopener, hcloser⟩ := Comment.blockFree_iff.1 hfree
  obtain ⟨before, after, hcut⟩ := Text.exists_cut_of_infix (Text.occursIn_iff_infix.1 hclose)
  have hline := Text.cut_eq_some_append hcut
  rw [closeHidden_of_cut hcut]
  refine advance_closed (Comment.run_block_of_not_closer fun h => hcloser ?_) fun h => hopener ?_
  · exact h.trans ⟨[], after, by rw [hline]; simp⟩
  · exact h.trans ⟨before ++ callClose, [], by rw [hline]; simp⟩

theorem advance_closeHidden_openHidden {line : Text} (hfree : Comment.blockFree line = true)
    (hclose : callClose.occursIn line = true) :
    Comment.advance false (closeHidden (openHidden line)) = false := by
  obtain ⟨hopener, hcloser⟩ := Comment.blockFree_iff.1 hfree
  obtain ⟨before, after, htrim, -⟩ := exists_cut_trimStart hclose
  have hcode := Text.cut_eq_some_append htrim
  have hin : line.trimStart <:+: line := (Text.isSuffix_trimStart line).isInfix
  have hopen := cut_callClose_openHidden line
  rw [htrim] at hopen
  rw [closeHidden_of_cut hopen, List.append_assoc _ before]
  apply advance_closed
  · refine run_lead_append false _ (fun h => hcloser ?_) (by simp)
    exact (h.trans ⟨[], after, by rw [hcode]; simp⟩).trans hin
  · intro h
    exact hopener ((h.trans ⟨before ++ callClose, [], by rw [hcode]; simp⟩).trans hin)

/-- A hidden statement without delimiters of its own leaves no comment open. -/
theorem Assertion.advanceAll_hidden (a : Assertion)
    (hfree : ∀ line ∈ a.lines, Comment.blockFree line = true) :
    Comment.advanceAll false a.hidden = false := by
  obtain ⟨body, closing, hopens, hbody, hcloses⟩ := a
  cases body with
  | nil => exact advance_closeHidden_openHidden (hfree closing (by simp [lines])) hcloses
  | cons first middle =>
    have hfirst : Comment.advance false (openHidden first) = true :=
      advance_openHidden (Comment.blockFree_iff.1 (hfree first (by simp [lines]))).2
    have hmiddle : Comment.advanceAll true middle = true :=
      Comment.advanceAll_true_of_not_closer fun line hline =>
        (Comment.blockFree_iff.1 (hfree line (by simp [lines, hline]))).2
    have hclosing : Comment.advance true (closeHidden closing) = false :=
      advance_closeHidden (hfree closing (by simp [lines])) hcloses
    rw [hidden, Comment.advanceAll_append]
    simp only [Comment.advanceAll_cons, Comment.advanceAll_nil, hfirst, hmiddle, hclosing]

/-- **The two files stay in step**: after any number of parts the comment state is the same. -/
theorem Scanned.advanceAll_hidden {inBlock : Bool} {parts : List Part} (h : Scanned inBlock parts)
    (hfree : ∀ a, .assertion a ∈ parts → ∀ line ∈ a.lines, Comment.blockFree line = true) :
    Comment.advanceAll inBlock (parts.flatMap Part.hidden) =
      Comment.advanceAll inBlock (parts.flatMap Part.lines) := by
  induction h with
  | nil => rfl
  | plain _ _ ih => exact ih fun a ha => hfree a (by simp [ha])
  | @assertion a rest _ ih =>
    have hlines : Comment.advanceAll false a.lines = false :=
      Comment.advanceAll_false_of_blockFree (hfree a (by simp))
    have hrest := ih fun b hb => hfree b (by simp [hb])
    rw [hlines] at hrest
    rw [List.flatMap_cons, List.flatMap_cons, Comment.advanceAll_append, Comment.advanceAll_append,
      Part.lines, Part.hidden, a.advanceAll_hidden (hfree a (by simp)), hlines]
    exact hrest

theorem Scanned.of_append {inBlock : Bool} {before after : List Part}
    (h : Scanned inBlock (before ++ after)) : Scanned inBlock before := by
  induction before generalizing inBlock with
  | nil => exact .nil inBlock
  | cons p before ih =>
    cases h with
    | plain hskip hrest => exact .plain hskip (ih hrest)
    | assertion hrest => exact .assertion (ih hrest)

/-- A line outside all spans is a part of its own, or lies behind the last part. -/
theorem Part.exists_plain_of_not_covers {n i : Nat} {parts : List Part} (hi : n ≤ i)
    (h : ∀ s ∈ spansFrom n parts, ¬s.Covers i) :
    (∃ before line after, parts = before ++ .plain line :: after ∧
      i = n + (before.flatMap Part.lines).length) ∨
        n + (parts.flatMap Part.lines).length ≤ i := by
  induction parts generalizing n with
  | nil => exact .inr (by simpa using hi)
  | cons p parts ih =>
    cases p with
    | plain line =>
      rcases Nat.eq_or_lt_of_le hi with rfl | hlt
      · exact .inl ⟨[], line, parts, rfl, rfl⟩
      · rcases ih hlt h with ⟨before, l, after, rfl, rfl⟩ | hbehind
        · refine .inl ⟨.plain line :: before, l, after, rfl, ?_⟩
          simp only [List.flatMap_cons, List.length_append, Part.lines, List.length_singleton]
          omega
        · refine .inr ?_
          simp only [List.flatMap_cons, List.length_append, Part.lines, List.length_singleton]
          omega
    | assertion a =>
      have hbehind : n + a.body.length + 1 ≤ i := by
        by_contra hin
        exact h _ (List.mem_cons_self ..) ⟨hi, by simp only; omega⟩
      rcases ih hbehind fun s hs => h s (List.mem_cons_of_mem _ hs) with
        ⟨before, l, after, rfl, rfl⟩ | hlast
      · refine .inl ⟨.assertion a :: before, l, after, rfl, ?_⟩
        simp only [List.flatMap_cons, List.length_append, Part.lines, Assertion.length_lines]
        omega
      · refine .inr ?_
        simp only [List.flatMap_cons, List.length_append, Part.lines, Assertion.length_lines]
        omega

/-- The lines of a span are those of its assertion. -/
theorem Span.lines_append (before after : List Text) (a : Assertion) :
    Span.lines ⟨.assertion, before.length, before.length + a.body.length⟩
      (before ++ (a.lines ++ after)) = a.lines := by
  have hlen : before.length + a.body.length + 1 - before.length = a.lines.length := by
    rw [Assertion.length_lines]
    omega
  rw [Span.lines, List.drop_left, hlen, List.take_left]

/-- A condition on the lines of all spans is one on the lines of all assertions. -/
theorem Part.forall_assertion_of_forall_span {P : Text → Prop} {parts : List Part}
    (h : ∀ s ∈ spansFrom 0 parts, ∀ line ∈ s.lines (parts.flatMap Part.lines), P line) :
    ∀ a, .assertion a ∈ parts → ∀ line ∈ a.lines, P line := by
  intro a ha line hline
  obtain ⟨before, after, rfl⟩ := List.append_of_mem ha
  have hspan (n : Nat) (before : List Part) :
      ⟨.assertion, n + (before.flatMap Part.lines).length,
          n + (before.flatMap Part.lines).length + a.body.length⟩ ∈
        spansFrom n (before ++ .assertion a :: after) := by
    induction before generalizing n with
    | nil => exact List.mem_cons_self ..
    | cons p before ih =>
      cases p with
      | plain l =>
        have hin := ih (n + 1)
        simpa [spansFrom, Part.lines, Nat.add_assoc, Nat.add_comm 1] using hin
      | assertion b =>
        have hin := ih (n + b.body.length + 1)
        refine List.mem_cons_of_mem _ ?_
        simpa [Part.lines, Nat.add_assoc, Nat.add_comm 1] using hin
  have hmem := hspan 0 before
  rw [Nat.zero_add] at hmem
  refine h _ hmem line ?_
  rw [List.flatMap_append, List.flatMap_cons, Part.lines, Span.lines_append]
  exact hline

/-- **Hiding leaves the comment state of all other code alone.** If no line of a span holds a block
comment delimiter, then a line outside of all spans stays where it is, and the comment state at its
start and all places on it are what they were. -/
theorem comment_state_outside_spans {lines : List Text} {spans : List Span} {r : Revision}
    (hspans : locateAssertions lines = .ok spans) (hr : hideAssertions lines = .ok r)
    (hfree : ∀ s ∈ spans, ∀ line ∈ s.lines lines, Comment.blockFree line = true) :
    r.lines.length = lines.length ∧
      ∀ i, (∀ s ∈ spans, ¬s.Covers i) →
        r.lines[i]? = lines[i]? ∧
          Comment.advanceAll false (r.lines.take i) = Comment.advanceAll false (lines.take i) ∧
            ∀ line, lines[i]? = some line → ∀ pos,
              Comment.hidesAt? (Comment.advanceAll false (r.lines.take i)) line pos =
                Comment.hidesAt? (Comment.advanceAll false (lines.take i)) line pos := by
  obtain ⟨parts, hscan, rfl, rfl, hout⟩ := exists_scanned_of_hideAssertions hspans hr
  have hfree := Part.forall_assertion_of_forall_span hfree
  rw [hout]
  refine ⟨Part.length_flatMap_hidden parts, fun i hi => ?_⟩
  have hstep : (parts.flatMap Part.hidden)[i]? = (parts.flatMap Part.lines)[i]? ∧
      Comment.advanceAll false ((parts.flatMap Part.hidden).take i) =
        Comment.advanceAll false ((parts.flatMap Part.lines).take i) := by
    rcases Part.exists_plain_of_not_covers (Nat.zero_le i) hi with
      ⟨before, line, after, rfl, rfl⟩ | hbehind
    · have hlen := Part.length_flatMap_hidden before
      have hbefore := (Scanned.of_append hscan).advanceAll_hidden
        fun a ha => hfree a (by simp [ha])
      simp only [List.flatMap_append, List.flatMap_cons, Nat.zero_add]
      constructor
      · rw [List.getElem?_append_right (by omega), List.getElem?_append_right (le_refl _), hlen]
        simp [Part.hidden, Part.lines]
      · rw [← hlen, List.take_left, hlen, List.take_left]
        exact hbefore
    · have hlen := Part.length_flatMap_hidden parts
      rw [Nat.zero_add] at hbehind
      rw [List.getElem?_eq_none (by omega), List.getElem?_eq_none hbehind,
        List.take_of_length_le (by omega), List.take_of_length_le hbehind]
      exact ⟨rfl, hscan.advanceAll_hidden hfree⟩
  refine ⟨hstep.1, hstep.2, fun line _ pos => ?_⟩
  rw [hstep.2]

/-- The comment opened below a hidden statement is still open on the line after. -/
theorem comment_state_below_statement :
    Comment.advanceAll false ["  /*assert(", "      x > 0);*/ // y", "/* z"] =
      Comment.advanceAll false ["    assert(", "      x > 0); // y", "/* z"] ∧
        Comment.advanceAll false ["    assert(", "      x > 0); // y", "/* z"] = true := by
  have hspans : locateAssertions ["    assert(", "      x > 0); // y", "/* z", "w */"] =
      .ok [⟨.assertion, 0, 1⟩] := by decide +kernel
  have hr : hideAssertions ["    assert(", "      x > 0); // y", "/* z", "w */"] =
      .ok ⟨["  /*assert(", "      x > 0);*/ // y", "/* z", "w */"], 1⟩ := by decide +kernel
  have hstate := (comment_state_outside_spans hspans hr (by decide +kernel)).2 3 (by decide)
  exact ⟨hstate.2.1, by decide +kernel⟩

end ContractLint.Coverage
