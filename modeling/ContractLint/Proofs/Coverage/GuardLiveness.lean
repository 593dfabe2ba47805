import ContractLint.Proofs.Coverage.CallSites
import ContractLint.Proofs.Coverage.Fixpoint

/-!
# Guards that are code

A guard does its work only if it is compiled. It is put together from the raw text of the call's
arguments and written above the line of the call, so two things can make a comment of it: a `//` or
an open `/*` in the condition, which on one line covers the guard's body, and a block comment that
is open above the call and ends left of it on the same line.

## The architecture

* **`LiveBelow`** — a guard in the result, below given lines, with its `if (` and its body outside
  of comments.
* **`liveBelow_guardLine_iff`** — for one guard this is a condition on the comment state above it
  and on its condition's text.
* **`advanceAll_insertAbove`** — a guard leaves no comment open, so the comment state of the result
  is that of the file as long as all guards above stand outside of comments.
* **`guards_live_iff`** — the two together, over all guards of a file.
-/

namespace ContractLint.Coverage

/-- A guard that stands in `out` right below the lines `above` and is code there: no block comment
is open where its line starts, and neither `if (` nor the brace of its body is hidden. -/
structure LiveBelow (out above : List Text) (guard : Text) : Prop where
  place : above ++ [guard] <+: out
  outside : Comment.advanceAll false above = false
  condition : ∀ k < 4, Comment.hidesAt? (Comment.advanceAll false above) guard
    (guard.indentWidth + k) = some false
  body : Comment.hidesAt? (Comment.advanceAll false above) guard
    (Text.byteSize guard - Text.byteSize guardBody) = some false

/-! ## One guard -/

theorem exists_dropEndWhile_append (t : Text) (p : Char → Bool) :
    ∃ tail, t = t.dropEndWhile p ++ tail ∧ ∀ c ∈ tail, p c = true := by
  refine ⟨(t.reverse.takeWhile p).reverse, ?_, ?_⟩
  · rw [Text.dropEndWhile, ← List.reverse_append, List.takeWhile_append_dropWhile,
      List.reverse_reverse]
  · intro c hc
    exact List.mem_takeWhile_imp (List.mem_reverse.1 hc)

/-- What is dropped from the end of a condition is no part of a comment delimiter. -/
theorem region_run_guardCondition (s : Lexer) (pieces : List Text) :
    (s.run (guardCondition pieces)).region = (s.run ([' '].intercalate pieces)).region := by
  have hdrop (t : Text) (p : Char → Bool) (hslash : p '/' = false) (hstar : p '*' = false) :
      (s.run (t.dropEndWhile p)).region = (s.run t).region := by
    obtain ⟨tail, ht, htail⟩ := exists_dropEndWhile_append t p
    have hfree (c : Char) (hc : p c = false) : c ∉ tail := by
      intro hin
      rw [htail c hin] at hc
      cases hc
    conv_rhs => rw [ht, Lexer.run_append]
    rw [Comment.region_run_of_notMem (hfree _ hslash) (hfree _ hstar)]
  unfold guardCondition Text.trimEnd
  rw [hdrop _ _ (by decide) (by decide), hdrop _ _ (by decide) (by decide),
    hdrop _ _ (by decide) (by decide)]

theorem slash_notMem_of_blank {t : Text} (ht : ∀ c ∈ t, Text.isBlank c = true) : '/' ∉ t :=
  fun hin => absurd (ht _ hin) (by decide)

theorem hides_false_of_slash_notMem {t : Text} (h : '/' ∉ t) : Comment.hides false t = false := by
  rw [Comment.hides_eq_run, Lexer.start_false, Comment.run_code_of_slash_notMem h]
  rfl

section Guard

variable {indent : Text} (hindent : ∀ c ∈ indent, Text.isBlank c = true)
include hindent

theorem indent_guardLine (pieces : List Text) : (guardLine indent pieces).indent = indent := by
  rw [guardLine_eq, guardHead, List.append_assoc, List.append_assoc, List.append_assoc, Text.indent,
    List.takeWhile_append_of_pos hindent]
  show indent ++ List.takeWhile Text.isBlank ('i' :: _) = indent
  rw [List.takeWhile_cons_of_neg (by decide), List.append_nil]

theorem hidesAt?_guardLine_condition (pieces : List Text) {k : Nat} (hk : k < 4) :
    Comment.hidesAt? false (guardLine indent pieces)
      ((guardLine indent pieces).indentWidth + k) = some false := by
  -- the word and what it follows hold no slash, so they open no comment
  have hsplit : guardLine indent pieces = (indent ++ List.take k "if (".toList) ++
      (List.drop k "if (".toList ++ (guardCondition pieces ++ (')' :: ' ' :: guardBody))) := by
    rw [List.append_assoc, ← List.append_assoc (List.take k _), List.take_append_drop,
      guardLine_eq, guardHead]
    simp
  have hsizes : ∀ k < 4, Text.byteSize (List.take k "if (".toList) = k := by decide
  have hsize := hsizes k hk
  have hfree : '/' ∉ indent ++ List.take k "if (".toList := by
    intro hin
    rcases List.mem_append.1 hin with hin | hin
    · exact slash_notMem_of_blank hindent hin
    · exact absurd (List.mem_of_mem_take hin) (by decide)
  have hplace : (guardLine indent pieces).indentWidth + k =
      Text.byteSize (indent ++ List.take k "if (".toList) := by
    rw [Text.indentWidth, indent_guardLine hindent, Text.byteSize_append, hsize]
  rw [hplace, hsplit, hidesAt?_append, hides_false_of_slash_notMem hfree]

/-- The body of a guard is code exactly if its condition ends outside of comments. -/
theorem hidesAt?_guardLine_body (pieces : List Text) :
    Comment.hidesAt? false (guardLine indent pieces)
        (Text.byteSize (guardLine indent pieces) - Text.byteSize guardBody) = some false ↔
      Comment.scan false ([' '].intercalate pieces) = .code := by
  have hsplit : guardLine indent pieces =
      (indent ++ "if (" ++ guardCondition pieces ++ [')', ' ']) ++ guardBody := by
    rw [guardLine_eq, guardHead]
    simp
  have hword : '/' ∉ indent ++ "if (".toList := by
    intro hin
    rcases List.mem_append.1 hin with hin | hin
    · exact slash_notMem_of_blank hindent hin
    · exact absurd hin (by decide)
  rw [hsplit, Text.byteSize_append, Nat.add_sub_cancel, hidesAt?_append, Comment.hides_eq_run,
    Comment.scan_eq_region_run, Lexer.run_append,
    Comment.region_run_of_notMem (by decide) (by decide), Lexer.run_append, Lexer.start_false,
    Comment.run_code_of_slash_notMem hword, region_run_guardCondition]
  simp

/-- **When a guard is code**: no comment is open above it, and its condition leaves none open. -/
theorem liveBelow_guardLine_iff {out above : List Text} {pieces : List Text}
    (hplace : above ++ [guardLine indent pieces] <+: out) :
    LiveBelow out above (guardLine indent pieces) ↔
      Comment.advanceAll false above = false ∧
        Comment.scan false ([' '].intercalate pieces) = .code := by
  constructor
  · intro h
    have hbody := h.body
    rw [h.outside, hidesAt?_guardLine_body hindent] at hbody
    exact ⟨h.outside, hbody⟩
  · rintro ⟨houtside, hcode⟩
    refine ⟨hplace, houtside, fun k hk => ?_, ?_⟩
    · rw [houtside]
      exact hidesAt?_guardLine_condition hindent pieces hk
    · rw [houtside]
      exact (hidesAt?_guardLine_body hindent pieces).2 hcode

end Guard

/-! ## All guards of a file -/

/-- As long as the calls that get a guard begin outside of comments, the result has the comment
state of the file. -/
theorem advanceAll_insertAbove {lines : List Text} {r : Revision} (h : insertGuards lines = .ok r)
    {n : Nat} (hn : n ≤ lines.length)
    (hcalls : ∀ c ∈ callSites lines, c.line < n → c.guarded = false →
      Comment.advanceAll false (lines.take c.line) = false) :
    Comment.advanceAll false (insertAbove (guardAbove? lines) (lines.take n)) =
      Comment.advanceAll false (lines.take n) := by
  induction n with
  | zero => rfl
  | succ n ih =>
    have hbefore := ih (by omega) fun c hc hlt => hcalls c hc (by omega)
    obtain ⟨line, hline⟩ : ∃ line, lines[n]? = some line :=
      ⟨lines[n], List.getElem?_eq_getElem (by omega)⟩
    rw [insertAbove_take_succ _ hline, Comment.advanceAll_append, hbefore,
      Comment.advanceAll_take_succ _ hline]
    cases hguard : guardAbove? lines n with
    | none => rfl
    | some guard =>
      -- the guard is read from outside of comments and leaves none open
      obtain ⟨c, hc, rfl, hunguarded, rfl⟩ := (guardAbove?_eq_some_iff h).1 hguard
      rw [hcalls c hc (Nat.lt_succ_self _) hunguarded]
      show Comment.advance (Comment.advance false c.guardText) line = Comment.advance false line
      rw [CallSite.guardText, guardFor, advance_guardLine]

theorem liveBelow_guardText_iff {lines : List Text} {r : Revision} (h : insertGuards lines = .ok r)
    {c : CallSite} (hc : c ∈ callSites lines) (hunguarded : c.guarded = false) :
    LiveBelow r.lines (insertAbove (guardAbove? lines) (lines.take c.line)) c.guardText ↔
      Comment.advanceAll false (insertAbove (guardAbove? lines) (lines.take c.line)) = false ∧
        Comment.scan false c.condition = .code := by
  apply liveBelow_guardLine_iff fun _ => Text.isBlank_of_mem_indent
  rw [insertGuards_eq_insertAbove h]
  exact insertAbove_take_prefix (line_lt_of_mem_callSites h hc)
    ((guardAbove?_eq_some_iff h).2 ⟨c, hc, rfl, hunguarded, rfl⟩)

/-- **When all guards are code.** The guard style writes the file's lines with guards above some of
them. All these guards are live exactly if every call that gets one begins on a line that starts
outside of block comments, and has a condition that, on one line, ends outside of comments. -/
theorem guards_live_iff {lines : List Text} {r : Revision} (h : insertGuards lines = .ok r) :
    r.lines = insertAbove (guardAbove? lines) lines ∧
      ((∀ i guard, guardAbove? lines i = some guard →
          LiveBelow r.lines (insertAbove (guardAbove? lines) (lines.take i)) guard) ↔
        ∀ c ∈ callSites lines, c.guarded = false →
          Comment.advanceAll false (lines.take c.line) = false ∧
            Comment.scan false c.condition = .code) := by
  refine ⟨insertGuards_eq_insertAbove h, ?_, ?_⟩
  · intro hlive c hc hunguarded
    -- all guards further up are live, so up to here the result has the comment state of the file
    induction hline : c.line using Nat.strongRecOn generalizing c with
    | _ n ih =>
    subst hline
    have hguard := (guardAbove?_eq_some_iff h).2 ⟨c, hc, rfl, hunguarded, rfl⟩
    obtain ⟨houtside, hcode⟩ := (liveBelow_guardText_iff h hc hunguarded).1 (hlive _ _ hguard)
    rw [advanceAll_insertAbove h (Nat.le_of_lt (line_lt_of_mem_callSites h hc))
      fun d hd hlt hd' => (ih d.line hlt d hd hd' rfl).1] at houtside
    exact ⟨houtside, hcode⟩
  · intro hcalls i guard hguard
    obtain ⟨c, hc, rfl, hunguarded, rfl⟩ := (guardAbove?_eq_some_iff h).1 hguard
    obtain ⟨houtside, hcode⟩ := hcalls c hc hunguarded
    refine (liveBelow_guardText_iff h hc hunguarded).2 ⟨?_, hcode⟩
    rw [advanceAll_insertAbove h (Nat.le_of_lt (line_lt_of_mem_callSites h hc))
      fun d hd _ hd' => (hcalls d hd hd').1]
    exact houtside

/-- A comment inside the condition does no harm if it ends there. -/
theorem guards_live_inner_comment :
    LiveBelow
      ["/* x", "*/", "  if (a /* b */ > 0) \x7b /* FOR COVERAGE TESTING */ \x7d",
        "  Require.that(a /* b */ > 0, FILE, m);"]
      ["/* x", "*/"] "  if (a /* b */ > 0) \x7b /* FOR COVERAGE TESTING */ \x7d" := by
  set lines : List Text := ["/* x", "*/", "  Require.that(a /* b */ > 0, FILE, m);"]
  have h : insertGuards lines =
      .ok ⟨["/* x", "*/", "  if (a /* b */ > 0) \x7b /* FOR COVERAGE TESTING */ \x7d",
        "  Require.that(a /* b */ > 0, FILE, m);"], 1⟩ := by decide +kernel
  have hguard : guardAbove? lines 2 =
      some "  if (a /* b */ > 0) \x7b /* FOR COVERAGE TESTING */ \x7d" := by decide +kernel
  have habove : insertAbove (guardAbove? lines) (lines.take 2) = ["/* x".toList, "*/".toList] := by
    decide +kernel
  rw [← habove]
  exact (guards_live_iff h).2.2 (by decide +kernel) 2 _ hguard

/-- A comment behind the condition covers the guard's body. -/
theorem guard_body_commented_out :
    insertGuards ["Require.that(a > 0, // positive", "    FILE, \"m\");"] =
        .ok ⟨["if (a > 0, // positive) \x7b /* FOR COVERAGE TESTING */ \x7d",
          "Require.that(a > 0, // positive", "    FILE, \"m\");"], 1⟩ ∧
      guardAbove? ["Require.that(a > 0, // positive", "    FILE, \"m\");"] 0 =
          some "if (a > 0, // positive) \x7b /* FOR COVERAGE TESTING */ \x7d" ∧
        ¬LiveBelow
          ["if (a > 0, // positive) \x7b /* FOR COVERAGE TESTING */ \x7d",
            "Require.that(a > 0, // positive", "    FILE, \"m\");"]
          [] "if (a > 0, // positive) \x7b /* FOR COVERAGE TESTING */ \x7d" := by
  refine ⟨by decide +kernel, by decide +kernel, fun hlive => ?_⟩
  have hbody := hlive.body
  revert hbody
  decide +kernel

end ContractLint.Coverage
