import ContractLint.Proofs.Coverage.CallSites
import ContractLint.Proofs.Coverage.GreedySpans

/-!
# Where guards are put

The guard style holds back the lines of a call until it has read all of it, and then writes the
guard above them. Here its output is compared with its input line by line, and its calls with the
greedy ones of a rule that knows nothing of guards.

## The architecture

* **`guardRule`** — a call opens where one is found, and `);` among its arguments closes it.
* **`CallScan.reached`** — the calls among the parts of a file are greedy by this rule, whatever
  follows the parts.
* **`insertGuards_cases`** — the pass succeeds on greedy calls up to the end of the file, and
  otherwise reports the call without end, at the number that its line would have had in the output.
* **`guards_inserted_above_calls`** — what is in the output that was not in the input.
-/

namespace ContractLint.Coverage

/-- Whether the line above line number `i` is a guard. -/
def guardedAt (lines : List Text) (i : Nat) : Bool := (lines.take i).getLast?.any isGuard

/-- The rule for calls as the guard style reads them: the first line that holds `);` among the
arguments closes a call. -/
def guardRule (lines : List Text) : StatementRule where
  kind := .precondition
  opens := CallAt lines
  closes first i := ∃ t ∈ argumentLines lines first i, callClose.occursIn t = true

/-! ## Calls are greedy -/

theorem exists_mem_of_endsAt {args : Text} {more : List Text} (h : endsAt args more = true) :
    ∃ t ∈ args :: more, callClose.occursIn t = true := by
  induction more generalizing args with
  | nil => exact ⟨args, by simp, h⟩
  | cons line more ih =>
    have hends : endsAt line more = true := by
      rw [endsAt, Bool.and_eq_true] at h
      exact h.2
    obtain ⟨t, ht, hclose⟩ := ih hends
    exact ⟨t, List.mem_cons_of_mem _ ht, hclose⟩

/-- A call takes the lines that the rule gives it. -/
theorem Call.takes {c : Call} {lines above after : List Text} {before : Text}
    (hlines : lines = above ++ (c.lines ++ after))
    (hfound : findCall (Comment.advanceAll false above) c.opening = some (before, c.args)) :
    (guardRule lines).Takes ⟨.precondition, above.length, above.length + c.more.length⟩ := by
  have hargs (k : Nat) : argumentLines lines above.length (above.length + k) =
      c.args :: (c.more ++ after).take k := argumentLines_of_findCall hlines hfound k
  refine ⟨rfl, callAt_of_findCall hlines hfound, Nat.le_add_right _ _, ?_, ?_⟩
  · show ∃ t ∈ argumentLines lines above.length (above.length + c.more.length), _
    rw [hargs, List.take_left]
    exact exists_mem_of_endsAt c.ends
  · intro i hi hlt
    obtain ⟨k, rfl⟩ := Nat.exists_eq_add_of_le hi
    have hk : k < c.more.length := Nat.lt_of_add_lt_add_left hlt
    obtain ⟨hopen, hmore⟩ := occursIn_eq_false_of_endsAt c.ends hk
    rintro ⟨t, ht, hclose⟩
    rw [hargs, List.take_append_of_le_length (Nat.le_of_lt hk)] at ht
    rcases List.mem_cons.1 ht with rfl | ht
    · rw [hopen] at hclose
      cases hclose
    · rw [hmore t ht] at hclose
      cases hclose

/-- The lines of a call by their numbers. -/
def CallSite.span (c : CallSite) : Span := ⟨.precondition, c.line, c.line + c.more.length⟩

/-- **The calls among parts are greedy**, if those above are. -/
theorem CallScan.reached {inBlock : Bool} {parts : List CallPart} (h : CallScan inBlock parts)
    {lines above after : List Text} (hstate : inBlock = Comment.advanceAll false above)
    (hlines : lines = above ++ (parts.flatMap CallPart.lines ++ after)) {calls : List Span}
    (hcalls : (guardRule lines).Reached above.length calls none) :
    (guardRule lines).Reached (above.length + (parts.flatMap CallPart.lines).length)
      (calls ++ (CallPart.sites above.length above.getLast? parts).map CallSite.span) none := by
  induction h generalizing above calls with
  | nil => simpa [CallPart.sites] using hcalls
  | @plain inBlock line rest hnone _ ih =>
    subst hstate
    have hline : lines = above ++ line :: (rest.flatMap CallPart.lines ++ after) := hlines
    have hplain : ¬(guardRule lines).opens above.length := not_callAt_of_findCall hline hnone
    have hlen : above.length + 1 = (above ++ [line]).length := by simp
    have hrest := ih (Comment.advanceAll_concat ..).symm (by simp [hline])
      (hlen ▸ hcalls.skip hplain)
    simpa [CallPart.sites, CallPart.lines, Nat.add_assoc, Nat.add_comm 1] using hrest
  | @call inBlock c before rest hfound _ ih =>
    subst hstate
    have hcall : lines = above ++ (c.lines ++ (rest.flatMap CallPart.lines ++ after)) := by
      simp [hlines, CallPart.lines]
    have hlast : (above ++ c.lines).getLast? = some c.lastLine := by
      rw [List.getLast?_append, c.getLast?_lines]
      rfl
    have hlen : above.length + c.more.length + 1 = (above ++ c.lines).length := by
      simp [Call.lines, Nat.add_assoc]
    have hrest := ih (Comment.advanceAll_append ..).symm (by simp [hcall])
      (hlen ▸ hcalls.take (Call.takes hcall hfound))
    rw [hlast, List.length_append] at hrest
    rw [List.flatMap_cons, CallPart.lines, List.length_append, ← Nat.add_assoc, CallPart.sites,
      List.map_cons]
    rwa [List.append_assoc] at hrest

theorem CallScan.greedy {parts : List CallPart} (h : CallScan false parts) {lines after : List Text}
    (hlines : lines = parts.flatMap CallPart.lines ++ after) :
    (guardRule lines).Greedy (parts.flatMap CallPart.lines).length
      ((CallPart.sites 0 none parts).map CallSite.span) := by
  have hreached := @CallScan.reached false parts h lines [] after rfl hlines [] (.zero _)
  rwa [List.length_nil, Nat.zero_add, List.nil_append] at hreached

/-- A call that no line ends is one without end by the rule. -/
theorem unclosed_of_findCall {lines above rest : List Text} {line before args : Text}
    (hlines : lines = above ++ line :: rest)
    (hfound : findCall (Comment.advanceAll false above) line = some (before, args))
    (hargs : callClose.occursIn args = false) (hrest : ∀ l ∈ rest, callClose.occursIn l = false)
    {calls : List Span} (hcalls : (guardRule lines).Greedy above.length calls) :
    (guardRule lines).Unclosed above.length calls := by
  refine ⟨hcalls, callAt_of_findCall hlines hfound, fun i hi => ?_⟩
  obtain ⟨k, rfl⟩ := Nat.exists_eq_add_of_le hi
  rintro ⟨t, ht, hclose⟩
  rw [argumentLines_of_findCall hlines hfound] at ht
  rcases List.mem_cons.1 ht with rfl | ht
  · rw [hargs] at hclose
    cases hclose
  · rw [hrest t (List.mem_of_mem_take ht)] at hclose
    cases hclose

/-! ## The pass by the rule -/

theorem CallPart.length_withGuards (previous : Option Text) (parts : List CallPart) :
    ((withGuards previous parts).flatMap CallPart.lines).length =
      (parts.flatMap CallPart.lines).length + missing previous parts := by
  induction parts generalizing previous with
  | nil => rfl
  | cons p rest ih =>
    cases p with
    | plain line =>
      simp only [withGuards, missing, List.flatMap_cons, List.length_append, ih]
      omega
    | call c =>
      have hguards : (((c.guards previous).map plain).flatMap CallPart.lines).length =
          (c.guards previous).length := by simp [List.flatMap_map, CallPart.lines]
      simp only [withGuards, missing, List.flatMap_append, List.flatMap_cons, List.length_append,
        ih, hguards]
      omega

theorem CallPart.missing_eq_countP (i : Nat) (previous : Option Text) (parts : List CallPart) :
    missing previous parts = (sites i previous parts).countP fun c => !c.guarded := by
  induction parts generalizing i previous with
  | nil => rfl
  | cons p rest ih =>
    cases p with
    | plain line => exact ih (i + 1) (some line)
    | call c =>
      rw [missing, sites, List.countP_cons, ih (i + c.lines.length), Nat.add_comm]
      show _ + (c.guards previous).length = _ + if !previous.any isGuard then 1 else 0
      rw [Call.guards]
      cases previous.any isGuard <;> rfl

theorem site_of_mem_sites {lines after : List Text} {parts : List CallPart}
    (hlines : lines = parts.flatMap CallPart.lines ++ after) {c : CallSite}
    (hc : c ∈ CallPart.sites 0 none parts) :
    lines[c.line]? = some c.opening ∧ c.guarded = guardedAt lines c.line := by
  obtain ⟨hline, hprevious⟩ := @CallPart.line_of_mem_sites c parts [] hc after
  rw [List.nil_append, ← hlines] at hline hprevious
  exact ⟨hline, congrArg (Option.any isGuard) hprevious⟩

theorem insertGuards_cases (lines : List Text) :
    (∃ calls, (guardRule lines).Greedy lines.length calls ∧ ∃ r, insertGuards lines = .ok r) ∨
      ∃ first above, (guardRule lines).Unclosed first above ∧
        insertGuards lines =
          .error ⟨.precondition, first + above.countP (fun c => !guardedAt lines c.first) + 1⟩ := by
  obtain ⟨parts, tail, hscan, hlines, htail⟩ := exists_callScan_append false lines
  have hgreedy := hscan.greedy hlines
  obtain ⟨above, hparts⟩ := guardFrom_parts_append hscan 0 none tail
  rw [← hlines, Nat.zero_add, CallPart.length_withGuards] at hparts
  cases htail with
  | nil =>
    rw [List.append_nil] at hlines
    rw [← hlines] at hgreedy
    exact .inl ⟨_, hgreedy, _, hparts⟩
  | unended hfound hargs hrest =>
    refine .inr ⟨_, _, unclosed_of_findCall hlines hfound hargs hrest hgreedy, ?_⟩
    rw [insertGuards, hparts, guardFrom_found _ _ _ hfound, guardCall_error hargs hrest rfl rfl,
      List.countP_map, CallPart.missing_eq_countP 0,
      List.countP_congr fun c hc => by rw [(site_of_mem_sites hlines hc).2]]
    rfl

theorem insertGuards_error_iff {lines : List Text} {e : Unterminated} :
    insertGuards lines = .error e ↔
      ∃ first above, (guardRule lines).Unclosed first above ∧
        e = ⟨.precondition, first + above.countP (fun c => !guardedAt lines c.first) + 1⟩ := by
  apply StatementRule.error_iff_unclosed (n := lines.length)
  · exact fun i => CallAt.lt_length
  · exact insertGuards_cases lines

/-! ## What is put in -/

/-- **The guard style only puts lines in.** Its output is the file with lines above others, as many
as it counts. There is one above a line exactly if a call is found on that line while none is open,
and the line above is no guard. It has the indentation of the line below, an `if (` and the body of
a guard. -/
theorem guards_inserted_above_calls {lines : List Text} {r : Revision}
    (h : insertGuards lines = .ok r) :
    ∃ (calls : List Span) (above : Nat → Option Text),
      (guardRule lines).Greedy lines.length calls ∧
        r.lines = insertAbove above lines ∧ r.lines.length = lines.length + r.changed ∧
          (∀ i, (above i).isSome = true ↔
            (∃ c ∈ calls, c.first = i) ∧ guardedAt lines i = false) ∧
            ∀ i guard line, above i = some guard → lines[i]? = some line →
              ∃ condition, guard = line.indent ++ "if (" ++ condition ++ ") " ++ guardBody := by
  obtain ⟨parts, hscan, hlines⟩ := exists_callScan_of_guardFrom h
  have hsites : callSites lines = CallPart.sites 0 none parts := by
    rw [callSites, hlines, hscan.callSitesFrom_eq]
  have hsite {c : CallSite} (hc : c ∈ callSites lines) :
      lines[c.line]? = some c.opening ∧ c.guarded = guardedAt lines c.line := by
    rw [hsites] at hc
    exact site_of_mem_sites (hlines.trans (List.append_nil _).symm) hc
  refine ⟨(callSites lines).map CallSite.span, guardAbove? lines, ?_,
    insertGuards_eq_insertAbove h, ?_, fun i => ⟨fun hsome => ?_, ?_⟩, ?_⟩
  · have hgreedy := hscan.greedy (hlines.trans (List.append_nil _).symm)
    rwa [← hlines, ← hsites] at hgreedy
  · have hresult := guardFrom_parts hscan 0 none
    rw [← hlines, ← insertGuards, h] at hresult
    cases hresult
    rw [hlines]
    exact CallPart.length_withGuards none parts
  · obtain ⟨guard, hguard⟩ := Option.isSome_iff_exists.1 hsome
    obtain ⟨c, hc, rfl, hunguarded, -⟩ := (guardAbove?_eq_some_iff h).1 hguard
    exact ⟨⟨c.span, List.mem_map_of_mem hc, rfl⟩, (hsite hc).2 ▸ hunguarded⟩
  · rintro ⟨⟨_, hcall, rfl⟩, hunguarded⟩
    obtain ⟨c, hc, rfl⟩ := List.mem_map.1 hcall
    have hguard := (guardAbove?_eq_some_iff h).2
      ⟨c, hc, rfl, (hsite hc).2.trans hunguarded, rfl⟩
    exact Option.isSome_of_eq_some hguard
  · intro i guard line hguard hline
    obtain ⟨c, hc, rfl, -, rfl⟩ := (guardAbove?_eq_some_iff h).1 hguard
    obtain rfl := Option.some.inj (hline.symm.trans (hsite hc).1)
    exact ⟨_, rfl⟩

/-- A call over two lines, one below a guard and one in a comment. -/
theorem guards_inserted_above_first_call :
    ∃ above : Nat → Option Text,
      ["  if (a) \x7b /* FOR COVERAGE TESTING */ \x7d".toList, "  Require.that(a,".toList,
          "    FILE, m);".toList, "if (b) \x7b /* FOR COVERAGE TESTING */ \x7d".toList,
          "Require.that(b);".toList, "// Require.that(c);".toList] =
        insertAbove above ["  Require.that(a,", "    FILE, m);",
          "if (b) \x7b /* FOR COVERAGE TESTING */ \x7d", "Require.that(b);", "// Require.that(c);"] ∧
      (above 0).isSome = true ∧ (above 3).isSome = false ∧ (above 4).isSome = false := by
  set lines : List Text := ["  Require.that(a,", "    FILE, m);",
    "if (b) \x7b /* FOR COVERAGE TESTING */ \x7d", "Require.that(b);", "// Require.that(c);"]
  have h : insertGuards lines =
      .ok ⟨"  if (a) \x7b /* FOR COVERAGE TESTING */ \x7d".toList :: lines, 1⟩ := by decide +kernel
  obtain ⟨calls, above, hgreedy, hout, -, hplaces, -⟩ := guards_inserted_above_calls h
  refine ⟨above, hout, (hplaces 0).2 ⟨?_, by decide +kernel⟩, ?_, ?_⟩
  · obtain ⟨c, hc, hcovers⟩ := hgreedy.exists_covers (i := 0) (by decide)
      ⟨_, rfl, by decide +kernel⟩
    exact ⟨c, hc, Nat.le_zero.1 hcovers.1⟩
  · refine Bool.eq_false_iff.2 fun hsome => ?_
    have hunguarded := ((hplaces 3).1 hsome).2
    revert hunguarded
    decide +kernel
  · refine Bool.eq_false_iff.2 fun hsome => ?_
    obtain ⟨c, hc, hfirst⟩ := ((hplaces 4).1 hsome).1
    obtain ⟨_, hline, hfound⟩ := hfirst ▸ (hgreedy.takes c hc).opens
    cases hline
    revert hfound
    decide +kernel

end ContractLint.Coverage
