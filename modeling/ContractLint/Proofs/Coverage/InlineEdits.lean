import ContractLint.Proofs.Coverage.GreedySpans
import ContractLint.Proofs.Coverage.StyleAgreement

/-!
# What the inline style puts into a call

The inline style carries a call over any number of lines and makes up to five edits in it, each at
the place that it has come to. Here all edits of one call are seen together: in which order they
come, that taking them back gives the call as it was, and that the comment around the payload is
closed if it is opened.

## The architecture

* **`InlinedCall`** — a call with all that can be put into it; `pieces` is the only order in which
  the parts come, and `ending` closes the comment around a payload that there is.
* **`Written`** — the pieces of a call that is still open, one constructor for each thing that the
  pass remembers of it. Every edit leads from one to the next, and the end of a call makes an
  `InlinedCall` of it (`Written.close`).
* **`inlineRule`** — a call opens where one is found, and `);` behind the parts of the message
  closes it. `Entering.next` says that the edits of one line do what the rule says.
* **`InlineReached`** — the invariant of the pass between two lines: the file so far is cut into
  lines that stay, edited calls and perhaps an open one. A line adds to it by `plain` or `call`.
* **`inlinePreconditions_cases`** — the pass succeeds on greedy calls up to the end of the file, and
  otherwise reports the call without end.
-/

namespace ContractLint.Coverage

/-! ## The pieces of a whole call -/

/-- A call from the location argument on, after all edits. Its texts are given line by line. -/
structure InlinedMessage where
  /-- What stands between the location argument and the message. -/
  lead : List Text
  /-- The identifier that is put before the message. -/
  name : Option Text
  message : List Text
  /-- What is commented out behind the message. -/
  payload : Option (List Text)

/-- A call after all edits. Its texts are given line by line. -/
structure InlinedCall where
  before : Text
  condition : List Text
  located : Option InlinedMessage
  after : Text

def InlinedMessage.pieces (m : InlinedMessage) : List Piece :=
  [.opener, .location, .closer] ++ m.lead.map .argument ++ TracedEdit.labels m.name ++
    m.message.map .argument ++ m.payload.elim [] fun hidden => .opener :: hidden.map .payload

namespace InlinedCall

def payload (c : InlinedCall) : Option (List Text) := c.located.bind InlinedMessage.payload

/-- The end of a call. A comment around a payload is closed right before it. -/
def ending (c : InlinedCall) : List Piece :=
  (if c.payload.isSome then [.closer] else []) ++ [.closing, .outside c.after]

def pieces (c : InlinedCall) : List Piece :=
  [.outside c.before, .name] ++ c.condition.map .argument ++
    c.located.elim [] InlinedMessage.pieces ++ c.ending

end InlinedCall

/-! ## The pieces of an open call -/

/-- The pieces that are written of a call that opened on line number `start`, by what the pass
remembers of it. -/
inductive Written (start : Nat) : PendingInline → List Piece → Prop where
  | condition (before : Text) (args : List Text) :
      Written start { progress := .condition start }
        ([.outside before, .name] ++ args.map .argument)
  | located (before : Text) (args lead : List Text) :
      Written start { progress := .message start }
        ([.outside before, .name] ++ args.map .argument ++
          ([.opener, .location, .closer] ++ lead.map .argument))
  | started (before : Text) (args lead : List Text) (name : Option Text) (message : List Text) :
      Written start { progress := .message start, messageStarted := true }
        ([.outside before, .name] ++ args.map .argument ++
          ([.opener, .location, .closer] ++ lead.map .argument ++ TracedEdit.labels name ++
            message.map .argument))
  | opened (before : Text) (args lead : List Text) (name : Option Text)
      (message hidden : List Text) :
      Written start { progress := .message start, messageStarted := true, payloadOpened := true }
        ([.outside before, .name] ++ args.map .argument ++
          ([.opener, .location, .closer] ++ lead.map .argument ++ TracedEdit.labels name ++
            message.map .argument ++ .opener :: hidden.map .payload))

namespace Written

variable {start : Nat} {call : PendingInline} {pieces : List Piece}

theorem unterminated? (h : Written start call pieces) :
    call.progress.unterminated? = some ⟨.precondition, start + 1⟩ := by
  cases h <;> rfl

theorem rest (h : Written start call pieces) (t : Text) :
    Written start call (pieces ++ [TracedEdit.remaining call t]) := by
  cases h with
  | condition before args =>
    simpa [TracedEdit.remaining] using Written.condition before (args ++ [t])
  | located before args lead =>
    simpa [TracedEdit.remaining] using Written.located before args (lead ++ [t])
  | started before args lead name message =>
    simpa [TracedEdit.remaining] using Written.started before args lead name (message ++ [t])
  | opened before args lead name message hidden =>
    simpa [TracedEdit.remaining] using Written.opened before args lead name message (hidden ++ [t])

/-- **The end of a call** makes a whole of its pieces. -/
theorem close (h : Written start call pieces) (after : Text) :
    ∃ c : InlinedCall, c.pieces = pieces ++ c.ending ∧
      c.ending = TracedEdit.closers call ++ [.closing, .outside after] := by
  cases h with
  | condition before args =>
    exact ⟨⟨before, args, none, after⟩, by simp [InlinedCall.pieces], rfl⟩
  | located before args lead =>
    refine ⟨⟨before, args, some ⟨lead, none, [], none⟩, after⟩, ?_, rfl⟩
    simp [InlinedCall.pieces, InlinedMessage.pieces, TracedEdit.labels]
  | started before args lead name message =>
    refine ⟨⟨before, args, some ⟨lead, name, message, none⟩, after⟩, ?_, rfl⟩
    simp [InlinedCall.pieces, InlinedMessage.pieces]
  | opened before args lead name message hidden =>
    refine ⟨⟨before, args, some ⟨lead, name, message, some hidden⟩, after⟩, ?_, rfl⟩
    simp [InlinedCall.pieces, InlinedMessage.pieces]

end Written

namespace TracedEdit

variable {start : Nat} {e : TracedEdit} {above : List Piece}

theorem written_wrapLocation (h : Written start e.call (above ++ e.written)) :
    Written start e.wrapLocation.call (above ++ e.wrapLocation.written) := by
  rcases e.wrapLocation_cases with hsame | ⟨start', t, after, hcondition, -, hwrap⟩
  · rwa [hsame]
  rw [hwrap, ← List.append_assoc]
  generalize above ++ e.written = pieces at h
  generalize e.call = call at h hcondition
  cases h with
  | condition before args =>
    cases hcondition
    simpa using Written.located before (args ++ [t]) []
  | located | started | opened => cases hcondition

theorem written_startMessage (fileId : Option Text)
    (h : Written start e.call (above ++ e.written)) :
    Written start (e.startMessage fileId).call (above ++ (e.startMessage fileId).written) := by
  rcases e.startMessage_cases fileId with hsame | ⟨start', t, after, hmessage, hstarted, -, hstart⟩
  · rwa [hsame]
  rw [hstart, ← List.append_assoc]
  generalize above ++ e.written = pieces at h
  generalize e.call = call at h hmessage hstarted
  cases h with
  | located before args lead =>
    simpa using Written.started before args (lead ++ [t ++ ['"']]) fileId []
  | condition => cases hmessage
  | started | opened => cases hstarted

theorem written_openPayload (h : Written start e.call (above ++ e.written)) :
    Written start e.openPayload.call (above ++ e.openPayload.written) := by
  rcases e.openPayload_cases with hsame | ⟨t, after, hstarted, hopened, -, hopen⟩
  · rwa [hsame]
  rw [hopen, ← List.append_assoc]
  generalize above ++ e.written = pieces at h
  generalize e.call = call at h hstarted hopened
  cases h with
  | started before args lead name message =>
    simpa using Written.opened before args lead name (message ++ [t ++ ['"']]) []
  | condition | located => cases hstarted
  | opened => cases hopened

/-- The edits of a line go on with the call. -/
theorem written_edit (fileId : Option Text) (h : Written start e.call (above ++ e.written)) :
    Written start (e.edit fileId).call (above ++ (e.edit fileId).written) :=
  written_openPayload (written_startMessage fileId (written_wrapLocation h))

/-- What stands on a finished line: the end of a call, or more of one that stays open. -/
theorem written_finish (h : Written start e.call (above ++ e.written)) :
    if e.finish.2 then ∃ c : InlinedCall, c.pieces = above ++ e.finish.1 ∧ c.ending <:+ e.finish.1
    else Written start e.call (above ++ e.finish.1) := by
  unfold finish
  split
  · next before after hcut =>
    obtain ⟨c, hpieces, hending⟩ := (h.rest before).close after
    refine ⟨c, ?_, e.written ++ [remaining e.call before], ?_⟩
    · rw [hpieces, hending]
      simp
    · rw [hending]
      simp
  · have hrest := h.rest e.unread
    simpa using hrest

end TracedEdit

/-! ## The calls of a file -/

/-- What the arguments of the call on line number `first` leave to be found behind line number
`last`, and what is still to be read. -/
def searchArguments (lines : List Text) (first last : Nat) : List Marker × Text :=
  Marker.search [.location, .quote, .messageEnd]
    (['\n'].intercalate (argumentLines lines first last))

/-- The rule for calls as the inline style reads them: a line closes a call if, all arguments up to
there taken together, `);` stands behind the parts of the message. -/
def inlineRule (lines : List Text) : StatementRule where
  kind := .precondition
  opens := CallAt lines
  closes first i := i < lines.length ∧ callClose.occursIn (searchArguments lines first i).2 = true

/-- One more line is searched for what the lines above it leave. -/
theorem searchArguments_succ {lines : List Text} {first i : Nat} {line : Text} (hfirst : first ≤ i)
    (hline : lines[i + 1]? = some line)
    (hopen : callClose.occursIn (searchArguments lines first i).2 = false) :
    (searchArguments lines first (i + 1)).1 =
        (Marker.search (searchArguments lines first i).1 line).1 ∧
      callClose.occursIn (searchArguments lines first (i + 1)).2 =
        callClose.occursIn (Marker.search (searchArguments lines first i).1 line).2 := by
  have hlt := (List.getElem?_eq_some_iff.1 hline).1
  have hargs := argumentLines_ne_nil hfirst (Nat.lt_of_le_of_lt hfirst (Nat.lt_of_succ_lt hlt))
  have hjoin : searchArguments lines first (i + 1) =
      Marker.search [.location, .quote, .messageEnd]
        (['\n'].intercalate (argumentLines lines first i) ++ '\n' :: line) := by
    rw [searchArguments, argumentLines_concat hfirst hline, Text.intercalate_concat hargs]
  rw [hjoin]
  exact Marker.search_append _ hopen line

/-- What is known of a call that opened on line number `first`, below the calls `above`, and is open
behind line number `last`. -/
structure OpenCall (lines : List Text) (above : List Span) (first last : Nat)
    (call : PendingInline) (pieces : List Piece) : Prop where
  reached : (inlineRule lines).Reached (last + 1) above (some first)
  first_le_last : first ≤ last
  written : Written first call pieces
  markers : call.markers = (searchArguments lines first last).1

/-- What is known of the edit that line number `i` starts with, in a call that opened on line number
`first`. -/
structure Entering (lines : List Text) (above : List Span) (first i : Nat) (pieces : List Piece)
    (e : TracedEdit) : Prop where
  reached : (inlineRule lines).Reached i above (some first)
  written : Written first e.call (pieces ++ e.written)
  markers : (searchArguments lines first i).1 = (Marker.search e.call.markers e.unread).1
  closes : callClose.occursIn (searchArguments lines first i).2 =
    callClose.occursIn (Marker.search e.call.markers e.unread).2

section Line

variable {lines : List Text} {above : List Span} {first last i : Nat} {pieces : List Piece}
  {line : Text}

/-- A call that is open goes on with the next line. -/
theorem OpenCall.entering {call : PendingInline} (h : OpenCall lines above first last call pieces)
    (hline : lines[last + 1]? = some line) :
    Entering lines above first (last + 1) pieces { call, unread := line } := by
  have hlt := (List.getElem?_eq_some_iff.1 hline).1
  have hopen : callClose.occursIn (searchArguments lines first last).2 = false := by
    rw [Bool.eq_false_iff]
    intro hclose
    obtain ⟨-, -, -, hunclosed⟩ := h.reached
    exact hunclosed last h.first_le_last (Nat.lt_succ_self last) ⟨Nat.lt_of_succ_lt hlt, hclose⟩
  obtain ⟨hmarkers, hcloses⟩ := searchArguments_succ h.first_le_last hline hopen
  refine ⟨h.reached, by simpa using h.written, ?_, ?_⟩
  · rw [hmarkers, h.markers]
  · rw [hcloses, h.markers]

/-- A call that is found starts with what follows its name. -/
theorem entering_of_findCall {before args : Text} {source rest : List Text}
    (hlines : lines = source ++ line :: rest)
    (hfound : findCall (Comment.advanceAll false source) line = some (before, args))
    (hreached : (inlineRule lines).Reached source.length above none) :
    Entering lines above source.length source.length []
      ⟨{ progress := .condition source.length }, [.outside before, .name], args⟩ := by
  have hargs : searchArguments lines source.length source.length =
      Marker.search [.location, .quote, .messageEnd] args := by
    have hfirst := argumentLines_of_findCall hlines hfound 0
    rw [Nat.add_zero, List.take_zero] at hfirst
    rw [searchArguments, hfirst, List.intercalate_singleton]
  refine ⟨hreached.opening (callAt_of_findCall hlines hfound), .condition before [], ?_, ?_⟩
  · rw [hargs]
    rfl
  · rw [hargs]
    rfl

/-- **One line of a call**: it ends the call, by the rule and with all its pieces, or the call stays
open behind it. -/
theorem Entering.next {e : TracedEdit} (h : Entering lines above first i pieces e)
    (hvalid : e.call.Valid) (hi : i < lines.length) (fileId : Option Text) :
    if (e.edit fileId).finish.2 then
      (inlineRule lines).Reached (i + 1) (above ++ [⟨.precondition, first, i⟩]) none ∧
        ∃ c : InlinedCall, c.pieces = pieces ++ (e.edit fileId).finish.1 ∧
          c.ending <:+ (e.edit fileId).finish.1
    else
      OpenCall lines above first i (e.edit fileId).call
        (pieces ++ (e.edit fileId).finish.1) := by
  have hsearch := TracedEdit.edit_eq_search fileId hvalid
  have hfinish := TracedEdit.written_finish (TracedEdit.written_edit fileId h.written)
  have hcloses : (e.edit fileId).finish.2 =
      callClose.occursIn (searchArguments lines first i).2 := by
    rw [TracedEdit.finish_snd, h.closes, ← hsearch]
  cases hend : (e.edit fileId).finish.2 with
  | true =>
    rw [hend] at hfinish hcloses
    exact ⟨h.reached.closing ⟨hi, hcloses.symm⟩, hfinish⟩
  | false =>
    rw [hend] at hfinish hcloses
    refine ⟨h.reached.stays ?_, h.reached.2.2.1, hfinish, ?_⟩
    · rintro ⟨-, hclose⟩
      rw [← hcloses] at hclose
      cases hclose
    · rw [h.markers, ← hsearch]

end Line

/-! ## The pass by the rule -/

/-- A line that stays as it is, or the lines of a call in pieces. -/
inductive InlinePart where
  | plain (line : Text)
  | call (lines : List (List Piece))
  deriving DecidableEq, Repr

namespace InlinePart

/-- The lines of the file. -/
def source : InlinePart → List Text
  | plain line => [line]
  | call lines => lines.map Piece.sourceOf

/-- The lines that are written. -/
def text : InlinePart → List Text
  | plain line => [line]
  | call lines => lines.map Piece.textOf

/-- The lines of the calls among parts, the first of which starts on line number `i`. -/
def spans (i : Nat) : List InlinePart → List Span
  | [] => []
  | plain _ :: rest => spans (i + 1) rest
  | call lines :: rest =>
    ⟨.precondition, i, i + (lines.length - 1)⟩ :: spans (i + lines.length) rest

@[simp] theorem length_source (p : InlinePart) : p.source.length = p.text.length := by
  cases p <;> simp [source, text]

theorem spans_append (i : Nat) (parts rest : List InlinePart) :
    spans i (parts ++ rest) = spans i parts ++ spans (i + (parts.flatMap source).length) rest := by
  induction parts generalizing i with
  | nil => rfl
  | cons p parts ih =>
    rw [List.flatMap_cons, List.length_append, ← Nat.add_assoc]
    cases p with
    | plain line => exact ih (i + 1)
    | call lines =>
      rw [source, List.length_map]
      exact congrArg (_ :: ·) (ih (i + lines.length))

/-- A call that all edits have been made in. The comment around its payload, if there is one, ends
on the last line. -/
def Edited : InlinePart → Prop
  | plain _ => True
  | call lines =>
    ∃ (c : InlinedCall) (above : List (List Piece)) (last : List Piece),
      lines = above ++ [last] ∧ lines.flatten = c.pieces ∧ c.ending <:+ last

end InlinePart

/-- What is known of the pass behind the lines `before`: the parts that are done, and the lines
`held` of a call that is open. -/
structure InlineReached (lines before : List Text) (parts : List InlinePart)
    (held : List (List Piece)) : Prop where
  source : before = parts.flatMap InlinePart.source ++ held.map Piece.sourceOf
  text : (inlineTrace before).map TracedLine.text =
    parts.flatMap InlinePart.text ++ held.map Piece.textOf
  found : InlineState.found {} before =
    (InlinePart.spans 0 parts).length + (InlineState.after {} before).call.toList.length
  edited : ∀ p ∈ parts, p.Edited
  idle : (InlineState.after {} before).call = none →
    held = [] ∧ (inlineRule lines).Reached before.length (InlinePart.spans 0 parts) none
  busy : ∀ call, (InlineState.after {} before).call = some call →
    ∃ last, before.length = last + 1 ∧
      OpenCall lines (InlinePart.spans 0 parts) (parts.flatMap InlinePart.source).length last call
        held.flatten

namespace InlineReached

variable {lines before rest : List Text} {line : Text} {parts : List InlinePart}
  {held : List (List Piece)}

theorem nil (lines : List Text) : InlineReached lines [] [] [] where
  source := rfl
  text := rfl
  found := rfl
  edited := by simp
  idle _ := ⟨rfl, .zero _⟩
  busy _ h := by cases h

section Next

variable (h : InlineReached lines before parts held)
include h

/-- A line of a call adds to the lines that are held, and the pass has found one more call than it
has ended. -/
theorem lines_of_traced {pieces : List Piece}
    (htraced : (InlineState.after {} before).traced line =
      .call (InlineState.after {} before).call.isNone pieces) :
    before ++ [line] =
        parts.flatMap InlinePart.source ++ (held ++ [pieces]).map Piece.sourceOf ∧
      (inlineTrace (before ++ [line])).map TracedLine.text =
          parts.flatMap InlinePart.text ++ (held ++ [pieces]).map Piece.textOf ∧
        InlineState.found {} (before ++ [line]) = (InlinePart.spans 0 parts).length + 1 := by
  refine ⟨?_, ?_, ?_⟩
  · rw [List.map_append, ← List.append_assoc, ← h.source, List.map_singleton,
      InlineState.sourceOf_of_traced htraced]
  · rw [inlineTrace, InlineState.trace_concat, htraced, List.map_append, ← inlineTrace, h.text]
    simp [TracedLine.text]
  · rw [InlineState.found_concat, htraced, h.found]
    cases (InlineState.after {} before).call <;> rfl

/-- A call that ends with one more line takes the lines from the first one held. -/
theorem spans_call (pieces : List Piece) :
    InlinePart.spans 0 (parts ++ [.call (held ++ [pieces])]) = InlinePart.spans 0 parts ++
      [⟨.precondition, (parts.flatMap InlinePart.source).length, before.length⟩] := by
  have hlen := congrArg List.length h.source
  simp only [List.length_append, List.length_map] at hlen
  rw [InlinePart.spans_append, hlen]
  simp [InlinePart.spans]

variable (hlines : lines = before ++ line :: rest)
include hlines

/-- A line without a call. -/
theorem plain (hstart : (InlineState.after {} before).start? line = none) :
    InlineReached lines (before ++ [line]) (parts ++ [.plain line]) [] := by
  obtain ⟨hcall, hfound⟩ := InlineState.start?_eq_none_iff.1 hstart
  obtain ⟨rfl, hreached⟩ := h.idle hcall
  have htraced := InlineState.traced_of_start?_eq_none hstart
  have hnext := InlineState.call_next_of_start?_eq_none hstart
  rw [← InlineState.after_concat] at hnext
  rw [InlineState.inBlock_after] at hfound
  have hplain : ¬(inlineRule lines).opens before.length := not_callAt_of_findCall hlines hfound
  have hspans : InlinePart.spans 0 (parts ++ [.plain line]) = InlinePart.spans 0 parts := by
    rw [InlinePart.spans_append]
    exact List.append_nil _
  refine ⟨?_, ?_, ?_, ?_, fun _ => ⟨rfl, ?_⟩, fun call hcall => ?_⟩
  · simp [h.source, InlinePart.source]
  · rw [inlineTrace, InlineState.trace_concat, htraced, List.map_append, ← inlineTrace, h.text]
    simp [InlinePart.text, TracedLine.text]
  · rw [InlineState.found_concat, htraced, hnext, h.found, hcall, hspans]
    rfl
  · exact List.forall_mem_append.2 ⟨h.edited, by simp [InlinePart.Edited]⟩
  · rw [List.length_append, hspans]
    exact hreached.skip hplain
  · rw [hnext] at hcall
    cases hcall

section Call

variable {e : TracedEdit} (hstart : (InlineState.after {} before).start? line = some e)
include hstart

theorem entering :
    Entering lines (InlinePart.spans 0 parts) (parts.flatMap InlinePart.source).length before.length
      held.flatten e := by
  rcases InlineState.start?_cases hstart with
    ⟨call, hcall, rfl⟩ | ⟨hcall, opening, args, hfound, rfl⟩
  · obtain ⟨last, hlast, hopen⟩ := h.busy call hcall
    rw [hlast]
    exact hopen.entering (by simp [hlines, ← hlast])
  · obtain ⟨rfl, hreached⟩ := h.idle hcall
    have hbefore : (parts.flatMap InlinePart.source).length = before.length := by
      simp [h.source]
    rw [InlineState.inBlock_after] at hfound
    rw [hbefore, InlineState.number_after, Nat.zero_add]
    exact entering_of_findCall hlines hfound hreached

/-- **One line of a call.** It ends the call, which is then one of the parts, or it is held with the
lines before it. -/
theorem call : ∃ parts held, InlineReached lines (before ++ [line]) parts held := by
  have hvalid := InlineState.valid_start? (InlineState.valid_after (s := {}) nofun before) hstart
  have hi : before.length < lines.length := by simp [hlines]
  have htraced := InlineState.traced_of_start? hstart
  have hcall := InlineState.call_next_of_start? hstart
  have hnext := (h.entering hlines hstart).next hvalid hi
    ((InlineState.after {} before).identifier line)
  obtain ⟨hsource, htext, hfound⟩ := h.lines_of_traced htraced
  rw [← InlineState.after_concat] at hcall
  set edited := e.edit ((InlineState.after {} before).identifier line)
  cases hend : edited.finish.2 with
  | true =>
    rw [hend] at hcall hnext
    obtain ⟨hreached, c, hpieces, hending⟩ := hnext
    have hspans := h.spans_call edited.finish.1
    refine ⟨parts ++ [.call (held ++ [edited.finish.1])], [], ?_, ?_, ?_, ?_,
      fun _ => ⟨rfl, ?_⟩, fun call hopen => ?_⟩
    · simpa [InlinePart.source] using hsource
    · simpa [InlinePart.text] using htext
    · rw [hfound, hspans, hcall, List.length_append]
      rfl
    · refine List.forall_mem_append.2 ⟨h.edited, fun p hp => ?_⟩
      rw [List.mem_singleton.1 hp]
      exact ⟨c, held, edited.finish.1, rfl, by simp [hpieces], hending⟩
    · rwa [List.length_append, hspans]
    · rw [hcall] at hopen
      cases hopen
  | false =>
    rw [hend] at hcall hnext
    refine ⟨parts, held ++ [edited.finish.1], hsource, htext, ?_, h.edited,
      fun hidle => ?_, fun call hopen => ⟨before.length, by simp, ?_⟩⟩
    · rw [hfound, hcall]
      rfl
    · rw [hcall] at hidle
      cases hidle
    · rw [hcall] at hopen
      cases hopen
      simpa using hnext

end Call

end Next

/-- **All lines.** -/
theorem exists_of_append (lines : List Text) {before rest : List Text}
    (hlines : lines = before ++ rest) : ∃ parts held, InlineReached lines before parts held := by
  induction before using List.reverseRecOn generalizing rest with
  | nil => exact ⟨[], [], nil lines⟩
  | append_singleton before line ih =>
    rw [List.append_assoc, List.singleton_append] at hlines
    obtain ⟨parts, held, h⟩ := ih hlines
    cases hstart : (InlineState.after {} before).start? line with
    | none => exact ⟨_, _, h.plain hlines hstart⟩
    | some e => exact h.call hlines hstart

end InlineReached

theorem exists_inlineReached (lines : List Text) :
    ∃ parts held, InlineReached lines lines parts held :=
  InlineReached.exists_of_append lines (List.append_nil lines).symm

theorem inlinePreconditions_cases (lines : List Text) :
    (∃ calls, (inlineRule lines).Greedy lines.length calls ∧
        ∃ r, inlinePreconditions lines = .ok r) ∨
      ∃ first above, (inlineRule lines).Unclosed first above ∧
        inlinePreconditions lines = .error ⟨.precondition, first + 1⟩ := by
  obtain ⟨parts, held, h⟩ := exists_inlineReached lines
  cases hcall : (InlineState.after {} lines).call with
  | none => exact .inl ⟨_, (h.idle hcall).2, _, inlinePreconditions_eq_ok_iff.2 ⟨hcall, rfl⟩⟩
  | some call =>
    obtain ⟨last, hlast, hopen⟩ := h.busy call hcall
    refine .inr ⟨_, _, hopen.reached.unclosed ?_, ?_⟩
    · rintro j hj ⟨hlt, -⟩
      omega
    · show InlineState.revise {} lines = _
      rw [InlineState.revise_eq, hcall, Option.bind_some, hopen.written.unterminated?]

theorem inlinePreconditions_error_iff {lines : List Text} {e : Unterminated} :
    inlinePreconditions lines = .error e ↔
      ∃ first above, (inlineRule lines).Unclosed first above ∧ e = ⟨.precondition, first + 1⟩ := by
  apply StatementRule.error_iff_unclosed (n := lines.length)
  · exact fun i => CallAt.lt_length
  · exact inlinePreconditions_cases lines

/-- **The edits of the inline style can be taken back.** It writes as many lines as it reads. These
are lines that stay as they are and the calls of its rule, as many as it counts. Taking out of a
call what was put in gives its lines back, and the comment around the payload is closed right before
the end of the call, if it is opened. -/
theorem inline_edits_undone {lines : List Text} {r : Revision}
    (h : inlinePreconditions lines = .ok r) :
    r.lines.length = lines.length ∧
      ∃ parts : List InlinePart,
        lines = parts.flatMap InlinePart.source ∧ r.lines = parts.flatMap InlinePart.text ∧
          (inlineRule lines).Greedy lines.length (InlinePart.spans 0 parts) ∧
            r.changed = (InlinePart.spans 0 parts).length ∧ ∀ p ∈ parts, p.Edited := by
  obtain ⟨parts, held, hreached⟩ := exists_inlineReached lines
  obtain ⟨hcall, rfl⟩ := inlinePreconditions_eq_ok_iff.1 h
  obtain ⟨rfl, hgreedy⟩ := hreached.idle hcall
  have hsource : lines = parts.flatMap InlinePart.source := by simpa using hreached.source
  have htext : (inlineTrace lines).map TracedLine.text = parts.flatMap InlinePart.text := by
    simpa using hreached.text
  have hfound := hreached.found
  rw [hcall] at hfound
  refine ⟨?_, parts, hsource, htext, hgreedy, hfound, hreached.edited⟩
  show ((inlineTrace lines).map TracedLine.text).length = lines.length
  rw [htext]
  conv_rhs => rw [hsource]
  simp [List.length_flatMap]

/-- A call over two lines with a payload, one in a comment and one that is only renamed. -/
theorem inline_edits_undone_two_calls :
    ∃ parts : List InlinePart,
      ["bytes32 constant FILE = \"Hub\";".toList, "Require.that(a, FILE, \"m\",".toList,
          "  b); c;".toList, "// Require.that(x);".toList, "Require.that(d);".toList] =
        parts.flatMap InlinePart.source ∧
      ["bytes32 constant FILE = \"Hub\";".toList, "require(a, /*FILE,*/ \"Hub: m\"/*,".toList,
          "  b*/); c;".toList, "// Require.that(x);".toList, "require(d);".toList] =
        parts.flatMap InlinePart.text ∧
      (InlinePart.spans 0 parts).length = 2 ∧ ∀ p ∈ parts, p.Edited := by
  have h : inlinePreconditions ["bytes32 constant FILE = \"Hub\";", "Require.that(a, FILE, \"m\",",
      "  b); c;", "// Require.that(x);", "Require.that(d);"] =
        .ok ⟨["bytes32 constant FILE = \"Hub\";", "require(a, /*FILE,*/ \"Hub: m\"/*,",
          "  b*/); c;", "// Require.that(x);", "require(d);"], 2⟩ := by decide +kernel
  obtain ⟨-, parts, hsource, htext, -, hchanged, hedited⟩ := inline_edits_undone h
  exact ⟨parts, hsource, htext, hchanged.symm, hedited⟩

end ContractLint.Coverage
