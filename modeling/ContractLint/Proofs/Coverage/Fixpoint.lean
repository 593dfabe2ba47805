import ContractLint.Coverage.Run
import ContractLint.Proofs.Coverage.CallParts
import ContractLint.Proofs.Coverage.Hiding

/-!
# Prepared lines stay as they are

Preparing a file puts comments around its assertions and guards above its precondition calls. A
second pass reads all of that again: the delimiters move the comment state, and the guards are lines
like any other. This module shows that it finds nothing left to do.

## The architecture

* **`Quiet`** — lines in which no statement is to be hidden. Hidden statements are quiet
  (`Scanned.quiet_hidden`), and quiet lines are left alone (`hideAssertions_of_quiet`).
* **the guard line** — a word that is not part of its fixed text stands in a guard only if the
  condition holds it (`GuardWord.infix_guardLine`). So the guard of a clear call holds no call and
  opens no statement (`Call.findCall_guardText`, `Call.opensAssertion_guardText`), and no guard
  leaves a comment open (`advance_guardLine`).
* **`withGuards`** — with the guards put in, the file is cut into the same calls as before, each
  below its guard, and it is quiet if it was.
* **`prepare_settled`** — the three together: what was prepared once is settled.
-/

namespace ContractLint.Coverage

/-! ## Lines without assertions -/

/-- Lines in which no statement is to be hidden, where `inBlock` tells whether a block comment is
open at the start. -/
inductive Quiet : Bool → List Text → Prop where
  | nil (inBlock : Bool) : Quiet inBlock []
  | cons {inBlock : Bool} {line : Text} {rest : List Text}
      (hskip : inBlock = true ∨ opensAssertion line = false)
      (hrest : Quiet (Comment.advance inBlock line) rest) : Quiet inBlock (line :: rest)

theorem quiet_append_iff {inBlock : Bool} {lines rest : List Text} :
    Quiet inBlock (lines ++ rest) ↔
      Quiet inBlock lines ∧ Quiet (Comment.advanceAll inBlock lines) rest := by
  induction lines generalizing inBlock with
  | nil => exact ⟨fun h => ⟨.nil _, h⟩, fun h => h.2⟩
  | cons line lines ih =>
    constructor
    · intro h
      cases h with
      | cons hskip hrest => exact ⟨.cons hskip (ih.1 hrest).1, (ih.1 hrest).2⟩
    · rintro ⟨h, hrest⟩
      cases h with
      | cons hskip hlines => exact .cons hskip (ih.2 ⟨hlines, hrest⟩)

/-- A scan of quiet lines finds nothing. -/
theorem locateFrom_of_quiet {inBlock : Bool} {lines : List Text} (h : Quiet inBlock lines)
    (i : Nat) : locateFrom i inBlock none lines = .ok [] := by
  induction h generalizing i with
  | nil => rfl
  | @cons inBlock line rest hskip _ ih =>
    rw [locateFrom]
    rcases hskip with rfl | hskip
    · simpa using ih (i + 1)
    · simpa [hskip] using ih (i + 1)

/-- **Quiet lines are left alone.** -/
theorem hideAssertions_of_quiet {lines : List Text} (h : Quiet false lines) :
    hideAssertions lines = .ok ⟨lines, 0⟩ := by
  rw [hideAssertions, locateAssertions, locateFrom_of_quiet h]
  rfl

/-- Inside a block comment that no line closes, every line is quiet. -/
theorem quiet_true_of_not_closer {lines : List Text}
    (h : ∀ line ∈ lines, ¬Comment.closer <:+: line) : Quiet true lines := by
  induction lines with
  | nil => exact .nil true
  | cons line lines ih =>
    refine .cons (.inl rfl) ?_
    rw [Comment.advance_true_of_not_closer (h line (by simp))]
    exact ih fun l hl => h l (by simp [hl])

/-! ## Hidden statements are quiet -/

theorem opensAssertion_of_opener {p : Text} (hp : ∀ c ∈ p, Text.isBlank c = true) (t : Text) :
    opensAssertion (p ++ (Comment.opener ++ t)) = false := by
  have htrim : Text.trimStart (p ++ (Comment.opener ++ t)) = Comment.opener ++ t := by
    rw [Text.trimStart_append_of_blank hp]
    rfl
  have hpre : Comment.opener.isPrefixOf (Comment.opener ++ t) = true := by simp
  rw [opensAssertion, htrim, hpre]
  rfl

theorem isBlank_of_mem_spaces {n : Nat} {c : Char} (h : c ∈ List.replicate n ' ') :
    Text.isBlank c = true := by
  rw [List.eq_of_mem_replicate h]
  decide

theorem opensAssertion_openHidden (line : Text) : opensAssertion (openHidden line) = false := by
  rw [openHidden, List.append_assoc]
  exact opensAssertion_of_opener (fun _ => isBlank_of_mem_spaces) line.trimStart

theorem opensAssertion_closeHidden_openHidden (line : Text) :
    opensAssertion (closeHidden (openHidden line)) = false := by
  cases hcut : Text.cut callClose line.trimStart with
  | none =>
    have hopen := cut_callClose_openHidden line
    rw [hcut] at hopen
    rw [closeHidden, hopen]
    exact opensAssertion_openHidden line
  | some parts =>
    have hopen := cut_callClose_openHidden line
    rw [hcut] at hopen
    rw [closeHidden_of_cut hopen]
    simp only [List.append_assoc]
    exact opensAssertion_of_opener (fun _ => isBlank_of_mem_spaces) _

/-- A hidden statement without delimiters of its own is quiet. -/
theorem Assertion.quiet_hidden (a : Assertion)
    (hfree : ∀ line ∈ a.lines, Comment.blockFree line = true) : Quiet false a.hidden := by
  obtain ⟨body, closing, hopens, hbody, hcloses⟩ := a
  have hcloser (line : Text) (hline : line ∈ body) : ¬Comment.closer <:+: line :=
    (Comment.blockFree_iff.1 (hfree line (by simp [lines, hline]))).2
  cases body with
  | nil => exact .cons (.inr (opensAssertion_closeHidden_openHidden closing)) (.nil _)
  | cons first middle =>
    have hmiddle : ∀ line ∈ middle, ¬Comment.closer <:+: line := fun line hline =>
      hcloser line (by simp [hline])
    refine .cons (.inr (opensAssertion_openHidden first)) ?_
    -- from here to the closing line the comment put before the statement is open
    rw [advance_openHidden (hcloser first (by simp)), List.append_eq, quiet_append_iff,
      Comment.advanceAll_true_of_not_closer hmiddle]
    exact ⟨quiet_true_of_not_closer hmiddle, .cons (.inl rfl) (.nil _)⟩

/-- **Once its assertions are hidden, a file is quiet.** -/
theorem Scanned.quiet_hidden {inBlock : Bool} {parts : List Part} (h : Scanned inBlock parts)
    (hfree : ∀ a, .assertion a ∈ parts → ∀ line ∈ a.lines, Comment.blockFree line = true) :
    Quiet inBlock (parts.flatMap Part.hidden) := by
  induction h with
  | nil => exact .nil _
  | plain hskip _ ih => exact .cons hskip (ih fun a ha => hfree a (by simp [ha]))
  | @assertion a rest _ ih =>
    have ha := hfree a (by simp)
    have hlines : Comment.advanceAll false a.lines = false :=
      Comment.advanceAll_false_of_blockFree ha
    have hrest := ih fun b hb => hfree b (by simp [hb])
    rw [List.flatMap_cons, Part.hidden, quiet_append_iff, a.advanceAll_hidden ha]
    rw [hlines] at hrest
    exact ⟨a.quiet_hidden ha, hrest⟩

/-! ## The guard line

A guard is put together from blanks, the pieces of a condition and fixed text. A word that holds
neither a space nor a bracket stands in the condition, or in the fixed text. -/

/-- The guard of a condition up to its body. -/
def guardHead (indent condition : Text) : Text := indent ++ "if (" ++ condition ++ ")"

/-- The condition as a guard states it: on one line, without the comma that ended the argument. -/
def guardCondition (pieces : List Text) : Text :=
  Text.trimEnd (Text.dropEndWhile (Text.trimEnd ([' '].intercalate pieces)) (· == ','))

theorem guardLine_eq (indent : Text) (pieces : List Text) :
    guardLine indent pieces =
      guardHead indent (guardCondition pieces) ++ ' ' :: guardBody := by
  simp [guardLine, guardHead, guardCondition]

theorem exists_guardLine_eq (indent : Text) (pieces : List Text) :
    ∃ condition, condition <+: [' '].intercalate pieces ∧
      guardLine indent pieces = guardHead indent condition ++ ' ' :: guardBody := by
  refine ⟨guardCondition pieces, ?_, guardLine_eq indent pieces⟩
  exact (Text.isPrefix_trimEnd _).trans
    ((Text.isPrefix_dropEndWhile _ _).trans (Text.isPrefix_trimEnd _))

/-- Words that stand in a guard only if they stand in its condition or its body. -/
structure GuardWord (word : Text) : Prop where
  no_space : ' ' ∉ word
  no_bracket : ')' ∉ word
  head : ∃ c rest, word = c :: rest ∧ Text.isBlank c = false ∧ c ≠ 'i' ∧ c ≠ 'f' ∧ c ≠ '('

theorem guardWord_disableMarker : GuardWord disableMarker :=
  ⟨by decide, by decide, 'c', _, rfl, by decide⟩

theorem guardWord_preconditionCall : GuardWord preconditionCall :=
  ⟨by decide, by decide, 'R', _, rfl, by decide⟩

namespace GuardWord

variable {word : Text} (hw : GuardWord word)
include hw

theorem ne_nil : word ≠ [] := by
  obtain ⟨c, rest, rfl, -⟩ := hw.head
  exact List.cons_ne_nil c rest

theorem infix_condition {indent condition : Text} (hindent : ∀ c ∈ indent, Text.isBlank c = true)
    (h : word <:+: guardHead indent condition) : word <:+: condition := by
  obtain ⟨c, rest, rfl, hblank, hi, hf, hp⟩ := hw.head
  have hhead : guardHead indent condition =
      (indent ++ ['i', 'f']) ++ ' ' :: ('(' :: condition ++ ')' :: []) := by
    simp [guardHead]
  rw [hhead] at h
  rcases Text.infix_append_cons hw.no_space h with hleft | hright
  · -- the word would start with a blank or a letter of `if`
    have hmem : c ∈ indent ++ ['i', 'f'] := hleft.subset (List.mem_cons_self ..)
    rcases List.mem_append.1 hmem with hin | hin
    · rw [hindent c hin] at hblank
      cases hblank
    · simp [hi, hf] at hin
  · rcases Text.infix_append_cons hw.no_bracket hright with hin | hin
    · rcases List.infix_cons_iff.1 hin with hpre | hin
      · exact absurd (List.cons_prefix_cons.1 hpre).1 hp
      · exact hin
    · simp at hin

/-- A word stands in a guard only if its body or its condition holds it. -/
theorem infix_guardLine {indent : Text} {pieces : List Text}
    (hindent : ∀ c ∈ indent, Text.isBlank c = true) (hbody : word.occursIn guardBody = false)
    (h : word <:+: guardLine indent pieces) : word <:+: [' '].intercalate pieces := by
  obtain ⟨condition, hcond, hline⟩ := exists_guardLine_eq indent pieces
  rw [hline] at h
  rcases Text.infix_append_cons hw.no_space h with hin | hin
  · exact (hw.infix_condition hindent hin).trans hcond.isInfix
  · exact absurd hin (Text.occursIn_eq_false_iff.1 hbody)

end GuardWord

/-- A guard is one. -/
theorem isGuard_guardLine (indent : Text) (pieces : List Text) :
    isGuard (guardLine indent pieces) = true := by
  obtain ⟨condition, -, hline⟩ := exists_guardLine_eq indent pieces
  have hsuffix : guardBody <:+ guardLine indent pieces :=
    ⟨guardHead indent condition ++ [' '], by rw [hline]; simp⟩
  -- the body ends in a brace, so no blank is taken from the end
  have htrim : (guardLine indent pieces).trimEnd = guardLine indent pieces := by
    obtain ⟨start, hstart⟩ := hsuffix
    rw [← hstart, Text.trimEnd, Text.dropEndWhile, List.reverse_append]
    have hdrop : (guardBody.reverse ++ start.reverse).dropWhile Text.isBlank =
        guardBody.reverse ++ start.reverse := rfl
    rw [hdrop, List.reverse_append, List.reverse_reverse, List.reverse_reverse]
  rw [isGuard, htrim]
  exact List.isSuffixOf_iff_suffix.2 hsuffix

/-- A guard leaves no comment open, whatever its condition holds and wherever it stands. -/
theorem advance_guardLine (inBlock : Bool) (indent : Text) (pieces : List Text) :
    Comment.advance inBlock (guardLine indent pieces) = false := by
  rw [Comment.advance_eq_run, guardLine_eq, Lexer.run_append]
  -- the body ends a comment that is open and one that it opens, and a line comment covers it
  cases Lexer.run (Lexer.start inBlock) (guardHead indent (guardCondition pieces)) with
  | code => decide
  | slash => decide
  | block => decide
  | star => decide
  | line => rw [Lexer.run_line]; rfl

/-! ## Guards of calls without comments -/

/-- A call that a second pass reads as the first one did: no line of it holds a block comment
delimiter, and its condition holds no further call. -/
structure Call.Clear (c : Call) : Prop where
  free : ∀ line ∈ c.lines, Comment.blockFree line = true
  single : preconditionCall.occursIn ([' '].intercalate c.pieces) = false

/-- In quiet lines without delimiters nothing is marked to be hidden. -/
theorem not_marker_of_quiet {lines : List Text} (h : Quiet false lines)
    (hfree : ∀ line ∈ lines, Comment.blockFree line = true) :
    ∀ line ∈ lines, ¬disableMarker <:+: line := by
  induction lines with
  | nil => simp
  | cons line lines ih =>
    obtain ⟨hopener, -⟩ := Comment.blockFree_iff.1 (hfree line (by simp))
    cases h with
    | cons hskip hrest =>
      rw [Comment.advance_false_of_not_opener hopener] at hrest
      intro l hl
      rcases List.mem_cons.1 hl with rfl | hl
      · have hpre : Comment.opener.isPrefixOf l.trimStart = false := by
          refine Bool.eq_false_iff.2 fun hpre => hopener ?_
          have hcode : l.trimStart <:+: l := (Text.isSuffix_trimStart l).isInfix
          exact (List.isPrefixOf_iff_prefix.1 hpre).isInfix.trans hcode
        have hopens : opensAssertion l = false := by simpa using hskip
        rw [opensAssertion, hpre] at hopens
        have hmark : disableMarker.occursIn l = false := by
          simp only [Bool.not_false, Bool.true_and, Bool.or_eq_false_iff] at hopens
          exact hopens.2
        exact Text.occursIn_eq_false_iff.1 hmark
      · exact ih hrest (fun l hl => hfree l (by simp [hl])) l hl

namespace Call

variable {c : Call} {inBlock : Bool} {before : Text}

/-- What follows the call is part of its line. -/
theorem args_infix_opening (hfound : findCall inBlock c.opening = some (before, c.args)) :
    c.args <:+: c.opening := by
  have hcut : Text.cut preconditionCall c.opening = some (before, c.args) :=
    (Option.filter_eq_some_iff.1 hfound).1
  rw [Text.cut_eq_some_append hcut]
  exact ⟨before ++ preconditionCall, [], by simp⟩

/-- Each piece of the condition is part of a line. -/
theorem exists_infix_line (hfound : findCall inBlock c.opening = some (before, c.args)) {p : Text}
    (hp : p ∈ c.pieces) : ∃ line ∈ c.lines, p <:+: line := by
  obtain ⟨t, ht, rfl⟩ : ∃ t ∈ conditionsFrom (.condition 0) c.args c.more, t.trim = p :=
    List.mem_map.1 (List.mem_filter.1 hp).1
  obtain ⟨line, hline, hin⟩ := exists_infix_of_mem_conditionsFrom ht
  have hpiece : t.trim <:+: line := (Text.isInfix_trim t).trans hin
  rcases List.mem_cons.1 hline with rfl | hline
  · exact ⟨c.opening, by simp [lines], hpiece.trans (args_infix_opening hfound)⟩
  · exact ⟨line, by simp [lines, hline], hpiece⟩

/-- A call on a line without delimiters stands outside of comments. -/
theorem inBlock_eq_false (hfound : findCall inBlock c.opening = some (before, c.args))
    (hclear : c.Clear) : inBlock = false := by
  obtain ⟨hcut, hhides⟩ := Option.filter_eq_some_iff.1 hfound
  cases inBlock with
  | false => rfl
  | true =>
    have hclose : Comment.closer <:+: before :=
      Comment.closer_infix_of_not_hides (by simpa using hhides)
    have hline : before <:+: c.opening := by
      rw [Text.cut_eq_some_append hcut]
      exact ⟨[], preconditionCall ++ c.args, by simp⟩
    have hfree := (Comment.blockFree_iff.1 (hclear.free c.opening (by simp [lines]))).2
    exact absurd (hclose.trans hline) hfree

theorem isBlank_indent (c : Call) : ∀ ch ∈ c.opening.indent, Text.isBlank ch = true :=
  fun _ => Text.isBlank_of_mem_indent

theorem advance_guardText (c : Call) (inBlock : Bool) :
    Comment.advance inBlock c.guardText = false :=
  advance_guardLine inBlock c.opening.indent c.pieces

/-- The guard of a call holds no call. -/
theorem findCall_guardText (hclear : c.Clear) : findCall false c.guardText = none := by
  have hnone : preconditionCall.occursIn c.guardText = false := by
    refine Text.occursIn_eq_false_iff.2 fun h => Text.occursIn_eq_false_iff.1 hclear.single ?_
    exact guardWord_preconditionCall.infix_guardLine c.isBlank_indent (by decide) h
  have hcut : Text.cut preconditionCall c.guardText = none := by
    simpa [Text.occursIn] using hnone
  rw [findCall, hcut]
  rfl

/-- The guard of a call opens no statement. -/
theorem opensAssertion_guardText (hfound : findCall inBlock c.opening = some (before, c.args))
    (hmark : ∀ line ∈ c.lines, ¬disableMarker <:+: line) : opensAssertion c.guardText = false := by
  obtain ⟨condition, hcond, hline⟩ := exists_guardLine_eq c.opening.indent c.pieces
  have hassert : assertCall.isPrefixOf c.guardText.trimStart = false := by
    have htrim : c.guardText.trimStart =
        'i' :: 'f' :: ' ' :: '(' :: (condition ++ ')' :: ' ' :: guardBody) := by
      rw [guardText_eq, hline, guardHead, List.append_assoc, List.append_assoc, List.append_assoc,
        Text.trimStart_append_of_blank c.isBlank_indent]
      rfl
    rw [htrim]
    rfl
  have hdisable : disableMarker.occursIn c.guardText = false := by
    refine Text.occursIn_eq_false_iff.2 fun h => ?_
    have hin := guardWord_disableMarker.infix_guardLine c.isBlank_indent (by decide) h
    obtain ⟨p, hp, hpin⟩ :=
      Text.infix_intercalate guardWord_disableMarker.no_space guardWord_disableMarker.ne_nil hin
    obtain ⟨line, hmem, hpl⟩ := exists_infix_line hfound hp
    exact hmark line hmem (hpin.trans hpl)
  rw [opensAssertion, hassert, hdisable]
  simp

end Call

/-! ## The second pass over guards -/

namespace CallPart

theorem withGuards_guarded {previous : Option Text} (h : previous.any isGuard = true) (c : Call)
    (rest : List CallPart) :
    withGuards previous (call c :: rest) = call c :: withGuards (some c.lastLine) rest := by
  simp [withGuards, Call.guards, h]

theorem withGuards_unguarded {previous : Option Text} (h : previous.any isGuard = false) (c : Call)
    (rest : List CallPart) :
    withGuards previous (call c :: rest) =
      plain c.guardText :: call c :: withGuards (some c.lastLine) rest := by
  simp [withGuards, Call.guards, h]

theorem guarded_guardText (c : Call) : (some c.guardText).any isGuard = true :=
  isGuard_guardLine _ _

/-- Guards are put in once. -/
theorem withGuards_withGuards (previous : Option Text) (parts : List CallPart) :
    withGuards previous (withGuards previous parts) = withGuards previous parts := by
  induction parts generalizing previous with
  | nil => rfl
  | cons p rest ih =>
    cases p with
    | plain line => simp only [withGuards, ih]
    | call c =>
      cases hg : previous.any isGuard with
      | true => rw [withGuards_guarded hg, withGuards_guarded hg, ih]
      | false =>
        rw [withGuards_unguarded hg, withGuards, withGuards_guarded (guarded_guardText c), ih]

theorem missing_withGuards (previous : Option Text) (parts : List CallPart) :
    missing previous (withGuards previous parts) = 0 := by
  induction parts generalizing previous with
  | nil => rfl
  | cons p rest ih =>
    cases p with
    | plain line => simp only [withGuards, missing, ih]
    | call c =>
      cases hg : previous.any isGuard with
      | true => simp [withGuards_guarded hg, missing, Call.guards, hg, ih]
      | false =>
        rw [withGuards_unguarded hg]
        simp [missing, Call.guards, isGuard_guardLine, Call.guardText_eq, ih]

end CallPart

/-- **The guards change nothing about the calls**: a scan cuts the file into the same calls, with
the guards between them. -/
theorem CallScan.withGuards {inBlock : Bool} {parts : List CallPart} (h : CallScan inBlock parts)
    (hclear : ∀ c, .call c ∈ parts → c.Clear) (previous : Option Text) :
    CallScan inBlock (CallPart.withGuards previous parts) := by
  induction h generalizing previous with
  | nil => exact .nil _
  | plain hnone _ ih => exact .plain hnone (ih (fun c hc => hclear c (by simp [hc])) _)
  | @call inBlock c before rest hfound _ ih =>
    have hc := hclear c (by simp)
    obtain rfl := Call.inBlock_eq_false hfound hc
    have hcall : CallScan false (.call c :: CallPart.withGuards (some c.lastLine) rest) :=
      .call hfound (ih (fun d hd => hclear d (by simp [hd])) _)
    cases hg : previous.any isGuard with
    | true => rwa [CallPart.withGuards_guarded hg]
    | false =>
      rw [CallPart.withGuards_unguarded hg]
      refine .plain (Call.findCall_guardText hc) ?_
      rw [c.advance_guardText]
      exact hcall

/-- Guards in a quiet file leave it quiet. -/
theorem CallScan.quiet_withGuards {inBlock : Bool} {parts : List CallPart}
    (h : CallScan inBlock parts) (hclear : ∀ c, .call c ∈ parts → c.Clear)
    (hquiet : Quiet inBlock (parts.flatMap CallPart.lines)) (previous : Option Text) :
    Quiet inBlock ((CallPart.withGuards previous parts).flatMap CallPart.lines) := by
  induction h generalizing previous with
  | nil => exact .nil _
  | plain _ _ ih =>
    cases hquiet with
    | cons hskip hrest => exact .cons hskip (ih (fun c hc => hclear c (by simp [hc])) hrest _)
  | @call inBlock c before rest hfound _ ih =>
    have hc := hclear c (by simp)
    obtain rfl := Call.inBlock_eq_false hfound hc
    -- the lines of the call are quiet on their own, and so are those behind them
    rw [List.flatMap_cons, CallPart.lines, quiet_append_iff] at hquiet
    have hcall : Quiet false
        (c.lines ++ (CallPart.withGuards (some c.lastLine) rest).flatMap CallPart.lines) :=
      quiet_append_iff.2 ⟨hquiet.1, ih (fun d hd => hclear d (by simp [hd])) hquiet.2 _⟩
    cases hg : previous.any isGuard with
    | true => rwa [CallPart.withGuards_guarded hg]
    | false =>
      rw [CallPart.withGuards_unguarded hg]
      refine .cons (.inr (Call.opensAssertion_guardText hfound ?_)) ?_
      · exact not_marker_of_quiet hquiet.1 hc.free
      · rw [c.advance_guardText]
        exact hcall

/-- **Guards are inserted once.** -/
theorem insertGuards_withGuards {parts : List CallPart} (h : CallScan false parts)
    (hclear : ∀ c, .call c ∈ parts → c.Clear) :
    insertGuards ((CallPart.withGuards none parts).flatMap CallPart.lines) =
      .ok ⟨(CallPart.withGuards none parts).flatMap CallPart.lines, 0⟩ := by
  rw [insertGuards, guardFrom_parts (h.withGuards hclear none), CallPart.withGuards_withGuards,
    CallPart.missing_withGuards]

/-! ## Both passes -/

/-- Lines that a first preparation settles: no line of an assertion holds a block comment delimiter,
and in the guard style no line of a precondition call does, and no condition holds a further
call. -/
structure Clear (style : Option PreconditionStyle) (lines : List Text) : Prop where
  assertions : ∀ spans, locateAssertions lines = .ok spans →
    ∀ s ∈ spans, ∀ line ∈ s.lines lines, Comment.blockFree line = true
  calls : style = some .guard → ∀ hidden, hideAssertions lines = .ok hidden →
    ∀ c ∈ callsFrom false hidden.lines, (∀ line ∈ c.lines, Comment.blockFree line = true) ∧
      preconditionCall.occursIn c.condition = false

/-- Lines that a preparation leaves as they are. -/
def Settled (style : Option PreconditionStyle) (lines : List Text) : Prop :=
  prepare style lines = .ok ⟨lines, 0, 0⟩

theorem quiet_of_hideAssertions {style : Option PreconditionStyle} {lines : List Text}
    {hidden : Revision} (hclear : Clear style lines) (h : hideAssertions lines = .ok hidden) :
    Quiet false hidden.lines := by
  obtain ⟨spans, hspans⟩ := exists_locate_of_hideAssertions h
  have hfree := hclear.assertions spans hspans
  obtain ⟨parts, hscan, rfl, rfl, hout⟩ := exists_scanned_of_hideAssertions hspans h
  rw [hout]
  exact hscan.quiet_hidden (Part.forall_assertion_of_forall_span hfree)

theorem prepare_none_eq_ok_iff {lines : List Text} {p : Prepared} :
    prepare none lines = .ok p ↔
      ∃ hidden, hideAssertions lines = .ok hidden ∧ p = ⟨hidden.lines, hidden.changed, 0⟩ := by
  rw [prepare]
  cases hideAssertions lines with
  | error e =>
    constructor
    · intro h
      cases h
    · rintro ⟨_, hhidden, _⟩
      cases hhidden
  | ok hidden =>
    constructor
    · intro h
      cases h
      exact ⟨hidden, rfl, rfl⟩
    · rintro ⟨_, hhidden, rfl⟩
      cases hhidden
      rfl

theorem prepare_some_eq_ok_iff {style : PreconditionStyle} {lines : List Text} {p : Prepared} :
    prepare (some style) lines = .ok p ↔
      ∃ hidden revised, hideAssertions lines = .ok hidden ∧
        revisePreconditions style hidden.lines = .ok revised ∧
          p = ⟨revised.lines, hidden.changed, revised.changed⟩ := by
  rw [prepare]
  cases hideAssertions lines with
  | error e =>
    constructor
    · intro h
      cases h
    · rintro ⟨_, _, hhidden, _⟩
      cases hhidden
  | ok hidden =>
    change (revisePreconditions style hidden.lines >>= fun revised =>
      Except.ok ⟨revised.lines, hidden.changed, revised.changed⟩) = .ok p ↔ _
    constructor
    · intro h
      cases hrevised : revisePreconditions style hidden.lines with
      | error e => rw [hrevised] at h; cases h
      | ok revised =>
        rw [hrevised] at h
        cases h
        exact ⟨hidden, revised, rfl, hrevised, rfl⟩
    · rintro ⟨_, revised, hhidden, hrevised, rfl⟩
      cases hhidden
      rw [hrevised]
      rfl

theorem prepare_guard_eq_ok_iff {lines : List Text} {p : Prepared} :
    prepare (some .guard) lines = .ok p ↔
      ∃ hidden revised, hideAssertions lines = .ok hidden ∧
        insertGuards hidden.lines = .ok revised ∧
          p = ⟨revised.lines, hidden.changed, revised.changed⟩ :=
  prepare_some_eq_ok_iff

/-- **What was prepared is settled.** -/
theorem prepare_settled {style : Option PreconditionStyle} {lines : List Text} {p : Prepared}
    (hstyle : style ≠ some .inline) (hclear : Clear style lines)
    (h : prepare style lines = .ok p) : Settled style p.lines := by
  match style, hstyle, hclear, h with
  | none, _, hclear, h =>
    obtain ⟨hidden, hhide, rfl⟩ := prepare_none_eq_ok_iff.1 h
    have hquiet := quiet_of_hideAssertions hclear hhide
    exact prepare_none_eq_ok_iff.2 ⟨_, hideAssertions_of_quiet hquiet, rfl⟩
  | some .guard, _, hclear, h =>
    obtain ⟨hidden, revised, hhide, hguard, rfl⟩ := prepare_guard_eq_ok_iff.1 h
    have hquiet := quiet_of_hideAssertions hclear hhide
    obtain ⟨parts, hscan, hlines, hrevised⟩ := exists_callScan_of_insertGuards hguard
    -- the calls among the parts are those that the conditions speak of
    have hcalls : ∀ c, .call c ∈ parts → c.Clear := by
      intro c hc
      have hmem := mem_callsFrom_of_callScan hscan hc
      rw [← hlines] at hmem
      obtain ⟨hfree, hsingle⟩ := hclear.calls rfl hidden hhide _ hmem
      exact ⟨hfree, hsingle⟩
    rw [hlines] at hquiet
    have hquiet' := hscan.quiet_withGuards hcalls hquiet none
    rw [← hrevised] at hquiet'
    have hsecond := insertGuards_withGuards hscan hcalls
    rw [← hrevised] at hsecond
    exact prepare_guard_eq_ok_iff.2 ⟨⟨revised.lines, 0⟩, ⟨revised.lines, 0⟩,
      hideAssertions_of_quiet hquiet', hsecond, rfl⟩
  | some .inline, hstyle, _, _ => exact absurd rfl hstyle

end ContractLint.Coverage
