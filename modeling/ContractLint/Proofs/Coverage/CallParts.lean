import ContractLint.Coverage.Guard
import ContractLint.Proofs.Text.Occurrence

/-!
# A file cut into its precondition calls

The guard style holds back the lines of an open call until it knows the whole condition, and only
then writes a guard above them. On the file cut into calls and other lines it is a plain pass: each
call is written after its guard, if it gets one.

## The architecture

* **`readArguments_closed`** — a line of arguments ends the call exactly if it holds `);`, in the
  condition as behind it. So where a call ends does not depend on what has been read.
* **`Call`** — the lines of one call, from the one that holds it to the first whose arguments end
  it.
* **`guardFrom_call`** — the pass over one call: a guard if the line above is none, then the call.
* **`CallScan`** — the parts of a file are those that the pass makes; `guardFrom_parts` is the pass
  on parts. Every file is cut so, up to a call that no line ends (`exists_callScan_append`), and a
  pass that succeeds has met no such call (`exists_callScan_of_guardFrom`).
-/

namespace ContractLint.Coverage

/-! ## Reading arguments -/

/-- Whether a precondition call is open. -/
def Progress.inCall : Progress → Bool
  | .condition _ | .message _ => true
  | _ => false

theorem callClose_not_infix_locationArgument_append {after : Text}
    (h : ¬callClose <:+: after) : ¬callClose <:+: locationArgument ++ after := by
  intro hin
  rcases List.infix_append_iff.1 hin with hl | hr | ⟨l, r, hlr, hl, hr⟩
  · exact absurd (Text.occursIn_iff_infix.2 hl) (by decide)
  · exact h hr
  · -- the location argument holds no bracket, so nothing of `);` is in it
    cases l with
    | nil =>
      rw [List.nil_append] at hlr
      exact h (hlr ▸ hr.isInfix)
    | cons c l =>
      have hc : c = ')' := (List.cons.inj hlr).1.symm
      have hmem : c ∈ locationArgument := hl.subset (List.mem_cons_self ..)
      rw [hc] at hmem
      exact absurd hmem (by decide)

/-- The location argument splits a line at its first place, which is left of the end of the call. -/
theorem cut_of_splitLocation {args condition after : Text}
    (h : splitLocation? args = some (condition, after)) :
    Text.cut locationArgument args = some (condition, after) ∧
      ∀ unclosed rest, Text.cut callClose args = some (unclosed, rest) →
        condition.length < unclosed.length := by
  unfold splitLocation? at h
  cases hclose : Text.cut callClose args with
  | none =>
    refine ⟨by simpa [hclose] using h, fun unclosed rest hcut => ?_⟩
    cases hcut
  | some closed =>
    cases hloc : Text.cut locationArgument args with
    | none =>
      rw [hloc] at h
      cases h
    | some located =>
      rw [hloc, hclose] at h
      simp only at h
      split at h
      · next hlt =>
        cases h
        refine ⟨rfl, fun unclosed rest hcut => ?_⟩
        cases hcut
        exact hlt
      · cases h

/-- Behind the location argument the call ends exactly if it ends on the line. -/
theorem occursIn_of_splitLocation {args condition after : Text}
    (h : splitLocation? args = some (condition, after)) :
    callClose.occursIn after = callClose.occursIn args := by
  obtain ⟨hcut, hleft⟩ := cut_of_splitLocation h
  have hargs := Text.cut_eq_some_append hcut
  cases hocc : callClose.occursIn args with
  | false =>
    refine Text.occursIn_eq_false_iff.2 fun hin => Text.occursIn_eq_false_iff.1 hocc ?_
    rw [hargs]
    exact hin.trans ⟨condition ++ locationArgument, [], by simp⟩
  | true =>
    obtain ⟨unclosed, rest, hclose⟩ := Text.exists_cut_of_infix (Text.occursIn_iff_infix.1 hocc)
    by_contra hfree
    have hfree : ¬callClose <:+: after :=
      Text.occursIn_eq_false_iff.1 (Bool.not_eq_true _ ▸ hfree)
    -- `);` stands behind the condition, so it would have to stand behind the location argument
    have hargs' := Text.cut_eq_some_append hclose
    rw [hargs, List.append_assoc, List.append_assoc] at hargs'
    obtain ⟨mid, htail⟩ : ∃ mid, locationArgument ++ after = mid ++ (callClose ++ rest) := by
      rcases List.append_eq_append_iff.1 hargs' with ⟨mid, -, hmid⟩ | ⟨mid, hmid, -⟩
      · exact ⟨mid, hmid⟩
      · have hlt := hleft unclosed rest hclose
        have hlen := congrArg List.length hmid
        rw [List.length_append] at hlen
        omega
    refine callClose_not_infix_locationArgument_append hfree ?_
    rw [htail]
    exact ⟨mid, rest, by simp⟩

/-- A line of arguments ends the call exactly if it holds the end of a call. -/
theorem readArguments_closed {p : Progress} (hp : p.inCall = true) (args : Text) :
    (readArguments p args).2.closed = callClose.occursIn args := by
  cases p with
  | idle => cases hp
  | assertion start => cases hp
  | message start => rfl
  | condition start =>
    simp only [readArguments]
    cases hloc : splitLocation? args with
    | some parts => exact occursIn_of_splitLocation hloc
    | none =>
      cases hclose : Text.cut callClose args with
      | none => simp [Text.occursIn, hclose]
      | some parts => simp [Text.occursIn, hclose]

theorem readArguments_inCall {p : Progress} (hp : p.inCall = true) (args : Text) :
    (readArguments p args).1.inCall = true := by
  cases p with
  | idle => cases hp
  | assertion start => cases hp
  | message start => rfl
  | condition start =>
    simp only [readArguments]
    split <;> rfl

/-- Where an open call is reported does not depend on what is read from it. -/
theorem readArguments_unterminated? (p : Progress) (args : Text) :
    (readArguments p args).1.unterminated? = p.unterminated? := by
  cases p with
  | idle | assertion start | message start => rfl
  | condition start =>
    simp only [readArguments]
    split <;> rfl

/-- The condition read from a line is part of it. -/
theorem condition_infix_args (p : Progress) (args : Text) :
    (readArguments p args).2.condition <:+: args := by
  have hcut {needle condition after : Text} (h : Text.cut needle args = some (condition, after)) :
      condition <:+: args := by
    rw [Text.cut_eq_some_append h]
    exact ⟨[], needle ++ after, by simp⟩
  cases p with
  | idle => exact List.nil_infix
  | assertion start => exact List.nil_infix
  | message start => exact List.nil_infix
  | condition start =>
    simp only [readArguments]
    split
    · next condition after hloc => exact hcut (cut_of_splitLocation hloc).1
    · next hclose => exact hcut hclose
    · exact List.infix_rfl

/-- The same progress in a call that started elsewhere. -/
def Progress.restart (start : Nat) : Progress → Progress
  | .condition _ => .condition start
  | .message _ => .message start
  | p => p

/-- Where a call started has no influence on what is read from it. -/
theorem readArguments_restart (start : Nat) (p : Progress) (args : Text) :
    readArguments (p.restart start) args =
      ((readArguments p args).1.restart start, (readArguments p args).2) := by
  cases p with
  | idle => rfl
  | assertion _ => rfl
  | message _ => rfl
  | condition _ =>
    simp only [Progress.restart, readArguments]
    split <;> rfl

/-- The condition of a call in pieces: what each line of arguments contributes, without blanks
around it and without what is empty then. -/
def conditionPieces (conditions : List Text) : List Text :=
  (conditions.map Text.trim).filter (!·.isEmpty)

theorem conditionPieces_cons (t : Text) (rest : List Text) :
    conditionPieces (t :: rest) = conditionPieces [t] ++ conditionPieces rest := by
  rw [conditionPieces, conditionPieces, conditionPieces, ← List.filter_append, ← List.map_append]
  rfl

/-- What the lines of arguments of a call contribute to its condition. -/
def conditionsFrom (p : Progress) (args : Text) (more : List Text) : List Text :=
  (readAll p (args :: more)).map (·.2.condition)

theorem conditionsFrom_cons (p : Progress) (args line : Text) (more : List Text) :
    conditionsFrom p args (line :: more) =
      (readArguments p args).2.condition :: conditionsFrom (readArguments p args).1 line more := rfl

theorem conditionsFrom_restart (start : Nat) (p : Progress) (args : Text) (more : List Text) :
    conditionsFrom (p.restart start) args more = conditionsFrom p args more := by
  induction more generalizing p args with
  | nil => simp [conditionsFrom, readAll, readArguments_restart]
  | cons line more ih =>
    rw [conditionsFrom_cons, conditionsFrom_cons, readArguments_restart, ih]

theorem exists_infix_of_mem_conditionsFrom {p : Progress} {args : Text} {more : List Text}
    {t : Text} (h : t ∈ conditionsFrom p args more) : ∃ line ∈ args :: more, t <:+: line := by
  induction more generalizing p args with
  | nil =>
    obtain rfl : t = (readArguments p args).2.condition := by
      simpa [conditionsFrom, readAll] using h
    exact ⟨args, by simp, condition_infix_args p args⟩
  | cons line more ih =>
    rw [conditionsFrom_cons] at h
    rcases List.mem_cons.1 h with rfl | h
    · exact ⟨args, by simp, condition_infix_args p args⟩
    · obtain ⟨l, hl, hin⟩ := ih h
      exact ⟨l, List.mem_cons_of_mem _ hl, hin⟩

/-- The condition of a call in pieces, by what follows the call on its line and its further
lines. -/
def argumentPieces (args : Text) (more : List Text) : List Text :=
  conditionPieces (conditionsFrom (.condition 0) args more)

/-- The guard for a call on the line `opening`. -/
def guardFor (opening args : Text) (more : List Text) : Text :=
  guardLine opening.indent (argumentPieces args more)

/-! ## One call -/

/-- Whether the last of several lines of arguments is the first one that ends the call. -/
def endsAt : Text → List Text → Bool
  | args, [] => callClose.occursIn args
  | args, line :: more => !callClose.occursIn args && endsAt line more

/-- A precondition call as it stands in a file. -/
structure Call where
  /-- The line that holds the call. -/
  opening : Text
  /-- What follows the call on that line. -/
  args : Text
  /-- The further lines of the call. -/
  more : List Text
  ends : endsAt args more = true

namespace Call

/-- The lines of the call. -/
def lines (c : Call) : List Text := c.opening :: c.more

/-- The pieces of the condition. -/
def pieces (c : Call) : List Text := argumentPieces c.args c.more

/-- The last line of the call. -/
def lastLine (c : Call) : Text := c.lines.getLast (List.cons_ne_nil _ _)

/-- The guard for the call. -/
def guardText (c : Call) : Text := guardFor c.opening c.args c.more

theorem guardText_eq (c : Call) : c.guardText = guardLine c.opening.indent c.pieces := rfl

/-- The guard that the call gets below a line. -/
def guards (c : Call) (previous : Option Text) : List Text :=
  if previous.any isGuard then [] else [c.guardText]

end Call

/-- What the pass does with a line of a call, once it is known to be one. -/
def guardCall (written : Nat) (inBlock : Bool) (call : PendingGuard) (line args : Text)
    (rest : List Text) : Except Unterminated Revision :=
  let (progress, step) := readArguments call.progress args
  let call := call.read line progress step.condition
  if step.closed then
    let lines := call.guards ++ call.held
    (guardFrom (written + lines.length) (some line) (Comment.advance inBlock line) none rest).map
      (.prepend lines call.guards.length)
  else guardFrom written (some line) (Comment.advance inBlock line) (some call) rest

theorem guardFrom_some (written : Nat) (previous : Option Text) (inBlock : Bool)
    (call : PendingGuard) (line : Text) (rest : List Text) :
    guardFrom written previous inBlock (some call) (line :: rest) =
      guardCall written inBlock call line line rest := rfl

theorem guardFrom_found {inBlock : Bool} {line before args : Text} (written : Nat)
    (previous : Option Text) (rest : List Text)
    (h : findCall inBlock line = some (before, args)) :
    guardFrom written previous inBlock none (line :: rest) =
      guardCall written inBlock (.opening written previous line) line args rest := by
  rw [guardFrom, h]
  rfl

theorem guardFrom_plain {inBlock : Bool} {line : Text} (written : Nat) (previous : Option Text)
    (rest : List Text) (h : findCall inBlock line = none) :
    guardFrom written previous inBlock none (line :: rest) =
      (guardFrom (written + 1) (some line) (Comment.advance inBlock line) none rest).map
        (.prepend [line] 0) := by
  rw [guardFrom, h]
  rfl

/-- The guard of an open call whose remaining lines are known. -/
def PendingGuard.finalGuards (call : PendingGuard) (args : Text) (more : List Text) : List Text :=
  if call.guarded then []
  else [guardLine call.indent
    (call.pieces ++ conditionPieces (conditionsFrom call.progress args more))]

theorem PendingGuard.read_pieces (call : PendingGuard) (line : Text) (progress : Progress)
    (condition : Text) :
    (call.read line progress condition).pieces = call.pieces ++ conditionPieces [condition] := by
  by_cases h : condition.trim.isEmpty <;> simp [PendingGuard.read, conditionPieces, h]

/-- The pass over the rest of an open call writes its guard and all its lines. -/
theorem guardCall_ends {more : List Text} {args : Text} (hends : endsAt args more = true)
    {call : PendingGuard} (hcall : call.progress.inCall = true) (written : Nat) (inBlock : Bool)
    (line : Text) (rest : List Text) :
    guardCall written inBlock call line args (more ++ rest) =
      (guardFrom (written + (call.finalGuards args more ++ (call.held ++ line :: more)).length)
        (some ((line :: more).getLast (List.cons_ne_nil _ _)))
        (Comment.advanceAll inBlock (line :: more)) none rest).map
          (.prepend (call.finalGuards args more ++ (call.held ++ line :: more))
            (call.finalGuards args more).length) := by
  induction more generalizing call args line inBlock with
  | nil =>
    have hclosed := readArguments_closed hcall args
    rw [show callClose.occursIn args = true from hends] at hclosed
    have hguards : (call.read line (readArguments call.progress args).1
        (readArguments call.progress args).2.condition).guards = call.finalGuards args [] := by
      simp only [PendingGuard.guards, PendingGuard.finalGuards, PendingGuard.read_pieces]
      rfl
    simp only [guardCall, hclosed, if_true, hguards]
    rfl
  | cons next more ih =>
    obtain ⟨hopen, hends⟩ : callClose.occursIn args = false ∧ endsAt next more = true := by
      simpa [endsAt] using hends
    have hclosed := readArguments_closed hcall args
    rw [hopen] at hclosed
    set read := call.read line (readArguments call.progress args).1
      (readArguments call.progress args).2.condition with hread
    have hin : read.progress.inCall = true := readArguments_inCall hcall args
    -- the condition read from this line moves from the lines to come to the pieces
    have hguards : read.finalGuards next more = call.finalGuards args (next :: more) := by
      simp only [PendingGuard.finalGuards, hread, PendingGuard.read_pieces, conditionsFrom_cons]
      rw [conditionPieces_cons _ (conditionsFrom _ next more), ← List.append_assoc]
      rfl
    have hheld : read.held ++ next :: more = call.held ++ line :: next :: more := by
      simp [hread, PendingGuard.read]
    have hnext := ih hends hin (Comment.advance inBlock line) next
    rw [hguards, hheld] at hnext
    simp only [guardCall, hclosed, Bool.false_eq_true, if_false, ← hread, List.cons_append,
      guardFrom_some]
    exact hnext

/-- A call that no further line ends makes the pass fail, at the place that the call was opened
with. -/
theorem guardCall_error {rest : List Text} {args : Text} (hargs : callClose.occursIn args = false)
    (hrest : ∀ line ∈ rest, callClose.occursIn line = false) {call : PendingGuard}
    (hcall : call.progress.inCall = true) {e : Unterminated}
    (he : call.progress.unterminated? = some e) (written : Nat) (inBlock : Bool) (line : Text) :
    guardCall written inBlock call line args rest = .error e := by
  induction rest generalizing call args line inBlock with
  | nil =>
    have hclosed := readArguments_closed hcall args
    rw [hargs] at hclosed
    simp only [guardCall, hclosed, Bool.false_eq_true, if_false, guardFrom, Option.bind_some,
      PendingGuard.read, readArguments_unterminated?, he]
  | cons next rest ih =>
    have hclosed := readArguments_closed hcall args
    rw [hargs] at hclosed
    have hin := readArguments_inCall hcall args
    simp only [guardCall, hclosed, Bool.false_eq_true, if_false, guardFrom_some]
    refine ih (hrest next (by simp)) (fun l hl => hrest l (by simp [hl])) hin ?_ _ next
    exact (readArguments_unterminated? call.progress args).trans he

/-- **The pass over one call**: its guard, its lines, and on with the rest. -/
theorem guardFrom_call {inBlock : Bool} {c : Call} {before : Text} (written : Nat)
    (previous : Option Text) (rest : List Text)
    (h : findCall inBlock c.opening = some (before, c.args)) :
    guardFrom written previous inBlock none (c.lines ++ rest) =
      (guardFrom (written + (c.guards previous ++ c.lines).length) (some c.lastLine)
        (Comment.advanceAll inBlock c.lines) none rest).map
          (.prepend (c.guards previous ++ c.lines) (c.guards previous).length) := by
  have hpieces : conditionPieces (conditionsFrom (.condition written) c.args c.more) = c.pieces :=
    conditionsFrom_restart 0 (.condition written) c.args c.more ▸ rfl
  have hguards : (PendingGuard.opening written previous c.opening).finalGuards c.args c.more =
      c.guards previous := by
    simp only [PendingGuard.finalGuards, PendingGuard.opening, Call.guards, Call.guardText_eq, hpieces,
      List.nil_append]
  have hopen : (PendingGuard.opening written previous c.opening).progress.inCall = true := rfl
  have hcall := guardCall_ends c.ends hopen written inBlock c.opening rest
  rw [hguards] at hcall
  rw [Call.lines, List.cons_append, guardFrom_found written previous _ h]
  exact hcall

/-! ## All calls -/

/-- A line outside all calls, or a call. -/
inductive CallPart where
  | plain (line : Text)
  | call (c : Call)

namespace CallPart

/-- The lines of a part. -/
def lines : CallPart → List Text
  | plain line => [line]
  | call c => c.lines

/-- The parts with a line of its own for every guard that is missing. `previous` is the line above
them. -/
def withGuards : Option Text → List CallPart → List CallPart
  | _, [] => []
  | _, plain line :: rest => plain line :: withGuards (some line) rest
  | previous, call c :: rest =>
    (c.guards previous).map plain ++ call c :: withGuards (some c.lastLine) rest

/-- The number of guards that are missing. -/
def missing : Option Text → List CallPart → Nat
  | _, [] => 0
  | _, plain line :: rest => missing (some line) rest
  | previous, call c :: rest => (c.guards previous).length + missing (some c.lastLine) rest

end CallPart

/-- The parts that the pass cuts a file into, where `inBlock` tells whether a block comment is open
at the start: a line is plain if no call is found on it. -/
inductive CallScan : Bool → List CallPart → Prop where
  | nil (inBlock : Bool) : CallScan inBlock []
  | plain {inBlock : Bool} {line : Text} {rest : List CallPart}
      (hnone : findCall inBlock line = none)
      (hrest : CallScan (Comment.advance inBlock line) rest) :
      CallScan inBlock (.plain line :: rest)
  | call {inBlock : Bool} {c : Call} {before : Text} {rest : List CallPart}
      (hfound : findCall inBlock c.opening = some (before, c.args))
      (hrest : CallScan (Comment.advanceAll inBlock c.lines) rest) :
      CallScan inBlock (.call c :: rest)

theorem map_prepend_nil (result : Except Unterminated Revision) :
    result.map (.prepend [] 0) = result := by
  cases result with
  | error e => rfl
  | ok r => simp [Except.map, Revision.prepend]

theorem map_prepend_prepend (result : Except Unterminated Revision) (lines more : List Text)
    (m n : Nat) :
    (result.map (Revision.prepend more n)).map (Revision.prepend lines m) =
      result.map (Revision.prepend (lines ++ more) (m + n)) := by
  cases result with
  | error e => rfl
  | ok r => simp [Except.map, Revision.prepend, Nat.add_assoc]

/-- The pass on parts that are followed by other lines: it writes the parts with their missing
guards and goes on behind them. -/
theorem guardFrom_parts_append {inBlock : Bool} {parts : List CallPart} (h : CallScan inBlock parts)
    (written : Nat) (previous : Option Text) (tail : List Text) :
    ∃ above, guardFrom written previous inBlock none (parts.flatMap CallPart.lines ++ tail) =
      (guardFrom (written + ((CallPart.withGuards previous parts).flatMap CallPart.lines).length)
        above (Comment.advanceAll inBlock (parts.flatMap CallPart.lines)) none tail).map
          (.prepend ((CallPart.withGuards previous parts).flatMap CallPart.lines)
            (CallPart.missing previous parts)) := by
  induction h generalizing written previous with
  | nil => exact ⟨previous, (map_prepend_nil _).symm⟩
  | @plain inBlock line rest hnone _ ih =>
    obtain ⟨above, hrest⟩ := ih (written + 1) (some line)
    refine ⟨above, ?_⟩
    rw [List.flatMap_cons, CallPart.lines, List.singleton_append, List.cons_append,
      guardFrom_plain _ _ _ hnone, hrest, map_prepend_prepend]
    simp [CallPart.withGuards, CallPart.missing, CallPart.lines, Comment.advanceAll,
      Nat.add_assoc, Nat.add_comm 1]
  | @call inBlock c before rest hfound _ ih =>
    obtain ⟨above, hrest⟩ :=
      ih (written + (c.guards previous ++ c.lines).length) (some c.lastLine)
    refine ⟨above, ?_⟩
    rw [List.flatMap_cons, CallPart.lines, List.append_assoc, guardFrom_call _ _ _ hfound, hrest,
      map_prepend_prepend]
    simp [CallPart.withGuards, CallPart.missing, CallPart.lines, Comment.advanceAll,
      List.flatMap_map, Nat.add_assoc]

/-- **The pass on parts**: it succeeds, and writes the parts with their missing guards. -/
theorem guardFrom_parts {inBlock : Bool} {parts : List CallPart} (h : CallScan inBlock parts)
    (written : Nat) (previous : Option Text) :
    guardFrom written previous inBlock none (parts.flatMap CallPart.lines) =
      .ok ⟨(CallPart.withGuards previous parts).flatMap CallPart.lines,
        CallPart.missing previous parts⟩ := by
  obtain ⟨above, hparts⟩ := guardFrom_parts_append h written previous []
  rw [List.append_nil] at hparts
  rw [hparts]
  simp [guardFrom, Except.map, Revision.prepend]

/-- The arguments of a call go to the first line that ends it, or no line does. -/
theorem exists_endsAt_or (args : Text) (rest : List Text) :
    (∃ more after, rest = more ++ after ∧ endsAt args more = true) ∨
      callClose.occursIn args = false ∧ ∀ line ∈ rest, callClose.occursIn line = false := by
  induction rest generalizing args with
  | nil =>
    cases h : callClose.occursIn args with
    | true => exact .inl ⟨[], [], rfl, h⟩
    | false => exact .inr ⟨rfl, by simp⟩
  | cons line rest ih =>
    cases h : callClose.occursIn args with
    | true => exact .inl ⟨[], line :: rest, rfl, h⟩
    | false =>
      rcases ih line with ⟨more, after, rfl, hends⟩ | ⟨hline, hrest⟩
      · exact .inl ⟨line :: more, after, rfl, by simp [endsAt, h, hends]⟩
      · refine .inr ⟨rfl, fun l hl => ?_⟩
        rcases List.mem_cons.1 hl with rfl | hl
        · exact hline
        · exact hrest l hl

/-- The lines of a call before its last one do not end it. -/
theorem occursIn_eq_false_of_endsAt {args : Text} {more : List Text} (h : endsAt args more = true)
    {k : Nat} (hk : k < more.length) :
    callClose.occursIn args = false ∧ ∀ l ∈ more.take k, callClose.occursIn l = false := by
  induction more generalizing args k with
  | nil => cases hk
  | cons line more ih =>
    obtain ⟨hopen, hends⟩ : callClose.occursIn args = false ∧ endsAt line more = true := by
      simpa [endsAt] using h
    refine ⟨hopen, fun l hl => ?_⟩
    cases k with
    | zero => cases hl
    | succ k =>
      obtain ⟨hline, hmore⟩ := ih hends (by simpa using hk)
      rcases List.mem_cons.1 hl with rfl | hl
      · exact hline
      · exact hmore l hl

/-- What is left of a file behind its calls and other lines: nothing, or a call that no line
ends. -/
inductive CallTail (inBlock : Bool) : List Text → Prop where
  | nil : CallTail inBlock []
  | unended {line before args : Text} {rest : List Text}
      (hfound : findCall inBlock line = some (before, args))
      (hargs : callClose.occursIn args = false)
      (hrest : ∀ l ∈ rest, callClose.occursIn l = false) :
      CallTail inBlock (line :: rest)

/-- **Every file is cut into calls and other lines**, up to a call that no line ends. -/
theorem exists_callScan_append (inBlock : Bool) (lines : List Text) :
    ∃ parts tail, CallScan inBlock parts ∧ lines = parts.flatMap CallPart.lines ++ tail ∧
      CallTail (Comment.advanceAll inBlock (parts.flatMap CallPart.lines)) tail := by
  -- a call takes several lines at once, so the induction is on the length
  induction hn : lines.length using Nat.strongRecOn generalizing inBlock lines with
  | _ n ih =>
  cases lines with
  | nil => exact ⟨[], [], .nil inBlock, rfl, .nil⟩
  | cons line rest =>
    cases hfind : findCall inBlock line with
    | none =>
      obtain ⟨parts, tail, hscan, rfl, htail⟩ :=
        ih rest.length (by simp [← hn]) (Comment.advance inBlock line) rest rfl
      exact ⟨.plain line :: parts, tail, .plain hfind hscan, rfl, htail⟩
    | some found =>
      obtain ⟨before, args⟩ := found
      rcases exists_endsAt_or args rest with ⟨more, after, rfl, hends⟩ | ⟨hargs, hnone⟩
      · let c : Call := ⟨line, args, more, hends⟩
        have hlt : after.length < n := by
          rw [← hn, List.length_cons, List.length_append]
          omega
        obtain ⟨parts, tail, hscan, rfl, htail⟩ :=
          ih after.length hlt (Comment.advanceAll inBlock c.lines) after rfl
        refine ⟨.call c :: parts, tail, .call (c := c) hfind hscan, by simp [CallPart.lines,
          Call.lines, c], ?_⟩
        rwa [List.flatMap_cons, CallPart.lines, Comment.advanceAll, List.foldl_append]
      · exact ⟨[], line :: rest, .nil inBlock, rfl, .unended hfind hargs hnone⟩

/-- **A pass that succeeds has cut the file into calls and other lines.** -/
theorem exists_callScan_of_guardFrom {written : Nat} {previous : Option Text} {inBlock : Bool}
    {lines : List Text} {r : Revision} (h : guardFrom written previous inBlock none lines = .ok r) :
    ∃ parts, CallScan inBlock parts ∧ lines = parts.flatMap CallPart.lines := by
  obtain ⟨parts, tail, hscan, rfl, htail⟩ := exists_callScan_append inBlock lines
  cases htail with
  | nil => exact ⟨parts, hscan, List.append_nil _⟩
  | unended hfound hargs hrest =>
    obtain ⟨above, hparts⟩ := guardFrom_parts_append hscan written previous (_ :: _)
    rw [hparts, guardFrom_found _ _ _ hfound, guardCall_error hargs hrest rfl rfl] at h
    cases h

/-- **The result of inserting guards, by parts.** -/
theorem exists_callScan_of_insertGuards {lines : List Text} {r : Revision}
    (h : insertGuards lines = .ok r) :
    ∃ parts, CallScan false parts ∧ lines = parts.flatMap CallPart.lines ∧
      r.lines = (CallPart.withGuards none parts).flatMap CallPart.lines := by
  obtain ⟨parts, hscan, rfl⟩ := exists_callScan_of_guardFrom h
  rw [insertGuards, guardFrom_parts hscan] at h
  cases h
  exact ⟨parts, hscan, rfl, rfl⟩

/-! ## The list of calls -/

/-- A call that is found in a file: its lines, and its condition on one line. -/
structure FoundCall where
  lines : List Text
  condition : Text
  deriving DecidableEq, Repr

/-- The further lines of a call, up to the first one that ends it. -/
def extent (args : Text) : List Text → List Text
  | [] => []
  | line :: rest => if callClose.occursIn args then [] else line :: extent line rest

/-- The calls that are opened in a file, in order. A line inside a call opens none. -/
def callsFrom (inBlock : Bool) (lines : List Text) : List FoundCall :=
  match lines with
  | [] => []
  | line :: rest =>
    match findCall inBlock line with
    | none => callsFrom (Comment.advance inBlock line) rest
    | some (_, args) =>
      let more := extent args rest
      ⟨line :: more, [' '].intercalate (argumentPieces args more)⟩ ::
        callsFrom (Comment.advanceAll inBlock (line :: more)) (rest.drop more.length)
termination_by lines.length
decreasing_by
  · simp
  · simp only [List.length_drop, List.length_cons]
    omega

theorem extent_append {args : Text} {more : List Text} (h : endsAt args more = true)
    (rest : List Text) : extent args (more ++ rest) = more := by
  induction more generalizing args with
  | nil =>
    have hclose : callClose.occursIn args = true := h
    cases rest with
    | nil => rfl
    | cons line rest => simp [extent, hclose]
  | cons line more ih =>
    obtain ⟨hopen, hends⟩ : callClose.occursIn args = false ∧ endsAt line more = true := by
      simpa [endsAt] using h
    simp [extent, hopen, ih hends]

/-- The calls of a file are those among its parts. -/
theorem mem_callsFrom_of_callScan {inBlock : Bool} {parts : List CallPart}
    (h : CallScan inBlock parts) {c : Call} (hc : .call c ∈ parts) :
    ⟨c.lines, [' '].intercalate c.pieces⟩ ∈ callsFrom inBlock (parts.flatMap CallPart.lines) := by
  induction h with
  | nil => simp at hc
  | @plain inBlock line rest hnone _ ih =>
    have hc : .call c ∈ rest := by simpa using hc
    rw [List.flatMap_cons, CallPart.lines, List.singleton_append, callsFrom, hnone]
    exact ih hc
  | @call inBlock d before rest hfound _ ih =>
    rw [List.flatMap_cons, CallPart.lines, Call.lines, List.cons_append, callsFrom, hfound]
    simp only [extent_append d.ends, List.drop_left]
    rcases List.mem_cons.1 hc with hd | hc
    · cases hd
      exact List.mem_cons_self ..
    · exact List.mem_cons_of_mem _ (ih hc)

end ContractLint.Coverage
