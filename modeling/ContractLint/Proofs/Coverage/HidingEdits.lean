import ContractLint.Proofs.Coverage.Fixpoint

/-!
# The two edits that hide a statement

Hiding a statement puts `/*` before it and `*/` behind it, and nothing else in the file changes. On
a statement of one line the second edit is made on a line that the first one has changed already.

## The architecture

* **`withoutOpener?`, `withoutCloser?`** — the edits taken back. Each gives nothing if the delimiter
  does not stand where the edit would have put it.
* **`restoreLine?_hideLine`** — a hidden line with its edits taken back is the line that it was, with
  other blanks before the statement.
* **`Span.Edited`** — all that hiding does to the lines of one span.
* **`hiding_edits_undone`** — a file in which the assertions are hidden, span by span and outside of
  all spans.
-/

namespace ContractLint.Coverage

/-! ## Taking back the edits of one line -/

/-- A line without the `/*` that follows its leading blanks. -/
def withoutOpener? (line : Text) : Option Text :=
  if Comment.opener.isPrefixOf line.trimStart then
    some (line.indent ++ line.trimStart.drop Comment.opener.length)
  else none

/-- A line without the `*/` that follows its first `);`. -/
def withoutCloser? (line : Text) : Option Text :=
  match Text.cut callClose line with
  | some (before, after) =>
    if Comment.closer.isPrefixOf after then
      some (before ++ callClose ++ after.drop Comment.closer.length)
    else none
  | none => none

/-- Line number `i` of a hidden statement with the edits of the span taken back. -/
def Span.restoreLine? (s : Span) (i : Nat) (line : Text) : Option Text :=
  (if i = s.last then withoutCloser? line else some line).bind fun unclosed =>
    if i = s.first then withoutOpener? unclosed else some unclosed

section Opener

variable {p : Text} (hp : ∀ c ∈ p, Text.isBlank c = true)
include hp

theorem trimStart_append_opener (t : Text) :
    Text.trimStart (p ++ (Comment.opener ++ t)) = Comment.opener ++ t := by
  rw [Text.trimStart_append_of_blank hp]
  rfl

theorem indent_append_opener (t : Text) : Text.indent (p ++ (Comment.opener ++ t)) = p := by
  rw [Text.indent, List.takeWhile_append_of_pos hp]
  show p ++ [] = p
  exact List.append_nil p

theorem withoutOpener?_append (t : Text) :
    withoutOpener? (p ++ (Comment.opener ++ t)) = some (p ++ t) := by
  have hpre : Comment.opener.isPrefixOf (Comment.opener ++ t) = true := by simp
  rw [withoutOpener?, trimStart_append_opener hp, indent_append_opener hp, if_pos hpre,
    List.drop_left]

end Opener

theorem withoutCloser?_closeHidden {line : Text} (h : callClose.occursIn line = true) :
    withoutCloser? (closeHidden line) = some line := by
  obtain ⟨before, after, hcut⟩ := Text.exists_cut_of_infix (Text.occursIn_iff_infix.1 h)
  have hpre : Comment.closer.isPrefixOf (Comment.closer ++ after) = true := by simp
  -- the first `);` is where it was, and the delimiter behind it
  rw [closeHidden_of_cut hcut, withoutCloser?, List.append_assoc _ Comment.closer,
    Text.cut_append_of_cut hcut]
  dsimp only
  rw [if_pos hpre, List.drop_left, ← Text.cut_eq_some_append hcut]

theorem occursIn_openHidden {line : Text} (h : callClose.occursIn line = true) :
    callClose.occursIn (openHidden line) = true := by
  obtain ⟨before, after, htrim, -⟩ := exists_cut_trimStart h
  rw [Text.occursIn, cut_callClose_openHidden, htrim]
  rfl

/-- **The edits of one line can be taken back.** -/
theorem Span.restoreLine?_hideLine (s : Span) {i : Nat} {line : Text}
    (hclose : i = s.last → callClose.occursIn line = true) :
    s.restoreLine? i (s.hideLine i line) =
      some (if i = s.first then List.replicate (line.indentWidth - 2) ' ' ++ line.trimStart
        else line) := by
  have hopener : withoutOpener? (openHidden line) =
      some (List.replicate (line.indentWidth - 2) ' ' ++ line.trimStart) := by
    rw [openHidden, List.append_assoc]
    exact withoutOpener?_append (fun _ => isBlank_of_mem_spaces) line.trimStart
  unfold Span.restoreLine? Span.hideLine
  by_cases hlast : i = s.last
  · have hcloses := hclose hlast
    by_cases hfirst : i = s.first
    · simp only [if_pos hlast, if_pos hfirst,
        withoutCloser?_closeHidden (occursIn_openHidden hcloses), Option.bind_some, hopener]
    · simp only [if_pos hlast, if_neg hfirst, withoutCloser?_closeHidden hcloses, Option.bind_some]
  · by_cases hfirst : i = s.first
    · simp only [if_neg hlast, if_pos hfirst, Option.bind_some, hopener]
    · simp only [if_neg hlast, if_neg hfirst, Option.bind_some]

/-! ## The lines of a span -/

/-- What hiding has done to a file in the lines of one span. -/
structure Span.Edited (s : Span) (lines out : List Text) : Prop where
  /-- The lines between the first and the last one are as they were. -/
  between : ∀ i, s.first < i → i < s.last → out[i]? = lines[i]?
  /-- With the edits taken back each line is as it was, up to the blanks before the statement. -/
  restored : ∀ i line, s.Covers i → lines[i]? = some line →
    ∃ new old, out[i]? = some new ∧ s.restoreLine? i new = some old ∧
      old.trimStart = line.trimStart ∧ (i ≠ s.first → old = line)
  /-- The statement stands right behind spaces and `/*`, and if there was room for these, as many
  bytes from the start of the line as before. -/
  column : ∀ line, lines[s.first]? = some line →
    ∃ new rest, out[s.first]? = some new ∧
      new = new.indent ++ Comment.opener ++ s.code s.first line ++ rest ∧
      (∀ c ∈ new.indent, c = ' ') ∧
      (2 ≤ line.indentWidth → Text.byteSize (new.indent ++ Comment.opener) = line.indentWidth)

theorem byteSize_spaces (n : Nat) : Text.byteSize (List.replicate n ' ') = n := by
  induction n with
  | zero => rfl
  | succ n ih =>
    rw [List.replicate_succ, Text.byteSize_cons, ih]
    show 1 + n = n + 1
    omega

theorem Span.Placed.edited {s : Span} {lines out : List Text} (h : s.Placed lines out) :
    s.Edited lines out where
  between i hfirst hlast := by
    rw [h.hidden i ⟨Nat.le_of_lt hfirst, Nat.le_of_lt hlast⟩]
    have hline : s.hideLine i = id := by
      funext line
      simp [Span.hideLine, Nat.ne_of_gt hfirst, Nat.ne_of_lt hlast]
    rw [hline, Option.map_id]
    rfl
  restored i line hi hline := by
    have hclose : i = s.last → callClose.occursIn line = true := by
      rintro rfl
      exact h.closes line hline
    have hnew : out[i]? = some (s.hideLine i line) := by
      rw [h.hidden i hi, hline]
      rfl
    refine ⟨_, _, hnew, s.restoreLine?_hideLine hclose, ?_, fun hfirst => ?_⟩
    · split
      · rw [Text.trimStart_append_of_blank fun _ => isBlank_of_mem_spaces, Text.trimStart_trimStart]
      · rfl
    · rw [if_neg hfirst]
  column line hline := by
    have hnew : s.lead s.first line ++ s.code s.first line ++ s.tail s.first line =
        List.replicate (line.indentWidth - 2) ' ' ++
          (Comment.opener ++ (s.code s.first line ++ s.tail s.first line)) := by
      rw [Span.lead, if_pos rfl]
      simp only [List.append_assoc]
    have hindent : Text.indent (s.lead s.first line ++ s.code s.first line ++ s.tail s.first line) =
        List.replicate (line.indentWidth - 2) ' ' := by
      rw [hnew, indent_append_opener fun _ => isBlank_of_mem_spaces]
    refine ⟨_, s.tail s.first line, h.getElem?_out ⟨Nat.le_refl _, h.first_le_last⟩ hline, ?_,
      ?_, fun hroom => ?_⟩
    · rw [hindent, hnew]
      simp only [List.append_assoc]
    · rw [hindent]
      exact fun c => List.eq_of_mem_replicate
    · rw [hindent, Text.byteSize_append, byteSize_spaces]
      show line.indentWidth - 2 + 2 = line.indentWidth
      omega

/-! ## The whole file -/

theorem getElem?_hidden_of_not_covers {parts : List Part} {i : Nat}
    (h : ∀ s ∈ Part.spansFrom 0 parts, ¬s.Covers i) :
    (parts.flatMap Part.hidden)[i]? = (parts.flatMap Part.lines)[i]? := by
  rcases Part.exists_plain_of_not_covers (Nat.zero_le i) h with
    ⟨before, line, after, rfl, rfl⟩ | hbehind
  · have hlen := Part.length_flatMap_hidden before
    simp only [List.flatMap_append, List.flatMap_cons, Nat.zero_add]
    rw [List.getElem?_append_right (by omega), List.getElem?_append_right (le_refl _), hlen]
    simp [Part.hidden, Part.lines]
  · have hlen := Part.length_flatMap_hidden parts
    rw [Nat.zero_add] at hbehind
    rw [List.getElem?_eq_none (by omega), List.getElem?_eq_none hbehind]

/-- **Hiding makes two edits in each span, and no others.** The file has as many lines as before, and
as many spans as are counted. A line outside of all spans is as it was, and those of a span are as it
was edited. -/
theorem hiding_edits_undone {lines : List Text} {r : Revision} (h : hideAssertions lines = .ok r) :
    ∃ spans, locateAssertions lines = .ok spans ∧ r.changed = spans.length ∧
      r.lines.length = lines.length ∧
      (∀ i, (∀ s ∈ spans, ¬s.Covers i) → r.lines[i]? = lines[i]?) ∧
      ∀ s ∈ spans, s.first ≤ s.last ∧ s.last < lines.length ∧ s.Edited lines r.lines := by
  obtain ⟨spans, hspans⟩ := exists_locate_of_hideAssertions h
  have hchanged : r.changed = spans.length := by
    rw [hideAssertions, hspans] at h
    cases h
    rfl
  refine ⟨spans, hspans, hchanged, ?_, fun i hi => ?_, fun s hs => ?_⟩
  · obtain ⟨parts, -, rfl, -, hout⟩ := exists_scanned_of_hideAssertions hspans h
    rw [hout]
    exact Part.length_flatMap_hidden parts
  · obtain ⟨parts, -, rfl, rfl, hout⟩ := exists_scanned_of_hideAssertions hspans h
    rw [hout]
    exact getElem?_hidden_of_not_covers hi
  · have hplaced := placed_of_mem hspans h hs
    exact ⟨hplaced.first_le_last, hplaced.last_lt, hplaced.edited⟩

/-- A statement behind a wide blank, one that takes three lines, and a line between them. -/
theorem hiding_edits_undone_two_statements :
    ∃ spans, locateAssertions ["\u3000 assert(a); f();", "  g();", "assert(", "  b", "); h();"] =
        .ok spans ∧ 2 = spans.length ∧
      ∀ s ∈ spans, s.Edited ["\u3000 assert(a); f();", "  g();", "assert(", "  b", "); h();"]
        ["  /*assert(a);*/ f();", "  g();", "/*assert(", "  b", ");*/ h();"] := by
  have h : hideAssertions ["\u3000 assert(a); f();", "  g();", "assert(", "  b", "); h();"] =
      .ok ⟨["  /*assert(a);*/ f();", "  g();", "/*assert(", "  b", ");*/ h();"], 2⟩ := by
    decide +kernel
  obtain ⟨spans, hspans, hchanged, -, -, hedited⟩ := hiding_edits_undone h
  exact ⟨spans, hspans, hchanged, fun s hs => (hedited s hs).2.2⟩

end ContractLint.Coverage
