import ContractLint.Proofs.Coverage.Hiding
import ContractLint.Proofs.Coverage.InlineTrace

/-!
# Comments around inlined calls

The inline style puts up to four comment delimiters into a call, at places that may be lines apart.
In a call that holds no delimiter of its own they do what they are meant to: the location argument
and the payload are commented out, everything else stays code, and behind the call the comment state
is what it was.

## The architecture

* **`Shown`** — the automaton reads pieces one after the other, and each character of them is where
  its piece wants it, in code or in a comment.
* **`TracedEdit.Sound`** — the invariant of the edits of one line: what is written is shown, and the
  automaton stands where the open call says, in code or inside the payload's comment.
* **`InlineState.Matches`** — the invariant from line to line: outside of calls file and result have
  the same comment state, inside a call the file is in code and the result in the payload or not.
* **`inline_hides_payload`** — the two together, for every place of the result.
-/

namespace ContractLint.Coverage

/-! ## Pieces as the automaton reads them -/

/-- Whether a piece is meant to be inside a comment. Delimiters are neither. -/
def Piece.hidden? : Piece → Option Bool
  | outside _ | name | argument _ | label _ | closing => some false
  | location | payload _ => some true
  | opener | closer => none

/-- Every character of a piece is where it is meant to be, if the automaton reads it from `s`. -/
def Piece.Shown (s : Lexer) (p : Piece) : Prop :=
  ∀ before c after, p.text = before ++ c :: after →
    ∀ hidden, p.hidden? = some hidden → ((s.run before).region != .code) = hidden

/-- Every character of pieces in a row is where it is meant to be. -/
def Shown (s : Lexer) : List Piece → Prop
  | [] => True
  | p :: rest => p.Shown s ∧ Shown (s.run p.text) rest

theorem shown_append {s : Lexer} {pieces rest : List Piece} :
    Shown s (pieces ++ rest) ↔ Shown s pieces ∧ Shown (s.run (Piece.textOf pieces)) rest := by
  induction pieces generalizing s with
  | nil => simp [Shown]
  | cons p pieces ih =>
    rw [List.cons_append, Shown, Shown, ih, Piece.textOf_cons, Lexer.run_append, and_assoc]

namespace Piece

/-- A piece that is read from code and leaves no comment open at any of its places. -/
theorem shown_of_code {s : Lexer} {p : Piece} (hp : p.hidden? = some false)
    (h : ∀ before after, p.text = before ++ after → (s.run before).region = .code) :
    p.Shown s := by
  intro before c after hsplit hidden hhidden
  rw [h before (c :: after) hsplit]
  rw [hp] at hhidden
  exact Option.some.inj hhidden

theorem shown_free {p : Piece} (hp : p.hidden? = some false) (h : Comment.free p.text = true) :
    p.Shown .code := by
  apply shown_of_code hp
  intro before after hsplit
  exact Comment.region_run_code_of_free (Comment.free_of_isInfix ⟨[], after, by simp [hsplit]⟩ h)

/-- Text without the characters of delimiters is code wherever it is read from code. -/
theorem shown_of_notMem {s : Lexer} {p : Piece} (hs : s.region = .code)
    (hp : p.hidden? = some false) (hslash : '/' ∉ p.text) (hstar : '*' ∉ p.text) : p.Shown s := by
  apply shown_of_code hp
  intro before after hsplit
  rw [hsplit] at hslash hstar
  rw [Comment.region_run_of_notMem (fun h => hslash (List.mem_append_left _ h))
    (fun h => hstar (List.mem_append_left _ h)), hs]

/-- Text without `*/` is inside the comment that it is read in. -/
theorem shown_block {p : Piece} (hp : p.hidden? = some true)
    (h : ¬Comment.closer <:+: p.text) : p.Shown .block := by
  intro before c after hsplit hidden hhidden
  have hfree : ¬Comment.closer <:+: before := fun hin =>
    h (hin.trans ⟨[], c :: after, by simp [hsplit]⟩)
  rw [hp] at hhidden
  obtain rfl := Option.some.inj hhidden
  rcases Comment.run_block_of_not_closer hfree with hrun | hrun <;> rw [hrun] <;> rfl

/-- Delimiters may stand anywhere. -/
theorem shown_delimiter {s : Lexer} {p : Piece} (hp : p.hidden? = none) : p.Shown s := by
  intro _ _ _ _ hidden hhidden
  rw [hp] at hhidden
  cases hhidden

end Piece

/-- Text up to a quotation mark is code, and what follows is read from code. -/
theorem shown_quoted {t before after : Text} (h : Comment.free t = true)
    (ht : t = before ++ '"' :: after) :
    (Piece.argument (before ++ ['"'])).Shown .code ∧
      Lexer.run .code (before ++ ['"']) = .code := by
  have hquote : Comment.free (before ++ ['"']) = true :=
    Comment.free_of_isInfix ⟨[], after, by simp [ht]⟩ h
  refine ⟨Piece.shown_free rfl hquote, ?_⟩
  rw [Lexer.run_append]
  rcases Comment.run_code_of_free (Comment.free_of_isInfix ⟨[], ['"'], rfl⟩ hquote) with
    hrun | ⟨hrun, -⟩ <;> rw [hrun] <;> rfl

theorem free_append_label {name : Text} (h : Comment.free name = true) :
    Comment.free (name ++ ": ") = true := by
  obtain ⟨hopener, hcloser, hmark⟩ := Comment.free_iff.1 h
  have hside {word : Text} (hcolon : ':' ∉ word) (hspace : word.occursIn " " = false)
      (hname : ¬word <:+: name) : ¬word <:+: name ++ ": " := by
    intro hin
    rcases Text.infix_append_cons hcolon hin with hin | hin
    · exact hname hin
    · exact Text.occursIn_eq_false_iff.1 hspace hin
  exact Comment.free_iff.2 ⟨hside (by decide) (by decide) hopener,
    hside (by decide) (by decide) hcloser, hside (by decide) (by decide) hmark⟩

/-! ## The edits of one line -/

/-- Whether the inline style can edit a line without touching a comment: the line holds no
delimiter, and no `/` that would make one with the comment around the location argument. -/
def editable (line : Text) : Bool :=
  Comment.free line && !Text.occursIn ('/' :: locationArgument) line

theorem editable_iff {line : Text} :
    editable line = true ↔ Comment.free line = true ∧ ¬('/' :: locationArgument) <:+: line := by
  simp [editable, Text.occursIn_eq_false_iff]

theorem editable_of_isInfix {t line : Text} (hin : t <:+: line) (h : editable line = true) :
    editable t = true := by
  obtain ⟨hfree, hslash⟩ := editable_iff.1 h
  exact editable_iff.2 ⟨Comment.free_of_isInfix hin hfree, fun hs => hslash (hs.trans hin)⟩

namespace TracedEdit

/-- A line that is edited as it is meant to be, where the automaton reads it from `s`. -/
structure Sound (s : Lexer) (e : TracedEdit) : Prop where
  valid : e.call.Valid
  shown : Shown s e.written
  state : s.run (Piece.textOf e.written) = Lexer.start e.call.payloadOpened
  unread : editable e.unread = true

variable {s : Lexer} {e : TracedEdit}

theorem Sound.state_code (h : e.Sound s) (hopened : e.call.payloadOpened = false) :
    s.run (Piece.textOf e.written) = .code := by
  rw [h.state, hopened]
  rfl

theorem Sound.wrapLocation (h : e.Sound s) : e.wrapLocation.Sound s := by
  have hvalid := valid_wrapLocation h.valid
  rcases e.wrapLocation_cases with hsame | ⟨start, before, after, hcondition, hunread, hwrap⟩
  · rwa [hsame]
  rw [hwrap] at hvalid ⊢
  -- in its condition a call has no payload, so the location argument is read from code
  have hopened := h.valid.payloadOpened_eq_false (h.valid.messageStarted_eq_false hcondition)
  have hstate := h.state_code hopened
  obtain ⟨hfree, hslash⟩ := editable_iff.1 h.unread
  have hbefore : Comment.free before = true :=
    Comment.free_of_isInfix ⟨[], locationArgument ++ after, by simp [hunread]⟩ hfree
  have hcode : Lexer.run .code before = .code := by
    rcases Comment.run_code_of_free hbefore with hcode | ⟨-, hlast⟩
    · exact hcode
    · obtain ⟨u, rfl⟩ := List.getLast?_eq_some_iff.1 hlast
      exact absurd ⟨u, after, by simp [hunread]⟩ hslash
  refine ⟨hvalid, shown_append.2 ⟨h.shown, ?_⟩, ?_, ?_⟩
  · rw [hstate]
    refine ⟨Piece.shown_free rfl hbefore, Piece.shown_delimiter rfl, ?_⟩
    rw [Piece.text, hcode]
    exact ⟨Piece.shown_block rfl (Text.occursIn_eq_false_iff.1 (by decide)),
      Piece.shown_delimiter rfl, trivial⟩
  · simp only [Piece.textOf_append, Piece.textOf_cons, Lexer.run_append, hstate, hopened]
    rw [Piece.text, hcode]
    rfl
  · exact editable_of_isInfix ⟨before ++ locationArgument, [], by simp [hunread]⟩ h.unread

theorem shown_labels {fileId : Option Text}
    (hid : ∀ name, fileId = some name → Comment.free name = true) :
    Shown .code (labels fileId) ∧ Lexer.run .code (Piece.textOf (labels fileId)) = .code := by
  cases fileId with
  | none => exact ⟨trivial, rfl⟩
  | some name =>
    have hname := hid name rfl
    refine ⟨⟨Piece.shown_free rfl (free_append_label hname), trivial⟩, ?_⟩
    show Lexer.run .code (name ++ ": ".toList ++ []) = .code
    rw [List.append_nil, Lexer.run_append]
    rcases Comment.run_code_of_free hname with hrun | ⟨hrun, -⟩
    · rw [hrun]
      rfl
    · rw [hrun]
      rfl

theorem Sound.startMessage {fileId : Option Text}
    (hid : ∀ name, fileId = some name → Comment.free name = true) (h : e.Sound s) :
    (e.startMessage fileId).Sound s := by
  have hvalid := valid_startMessage fileId h.valid
  rcases e.startMessage_cases fileId with
    hsame | ⟨start, before, after, -, hstarted, hunread, hstart⟩
  · rwa [hsame]
  rw [hstart] at hvalid ⊢
  have hopened := h.valid.payloadOpened_eq_false hstarted
  have hstate := h.state_code hopened
  obtain ⟨hshown, hcode⟩ := shown_quoted (editable_iff.1 h.unread).1 hunread
  obtain ⟨hlabels, hlabel⟩ := shown_labels hid
  refine ⟨hvalid, shown_append.2 ⟨h.shown, ?_⟩, ?_, ?_⟩
  · rw [hstate]
    refine ⟨hshown, ?_⟩
    rw [Piece.text, hcode]
    exact hlabels
  · simp only [Piece.textOf_append, Piece.textOf_cons, Lexer.run_append, hstate, hopened]
    rw [Piece.text, hcode, hlabel]
    rfl
  · exact editable_of_isInfix ⟨before ++ ['"'], [], by simp [hunread]⟩ h.unread

theorem Sound.openPayload (h : e.Sound s) : e.openPayload.Sound s := by
  have hvalid := valid_openPayload h.valid
  rcases e.openPayload_cases with hsame | ⟨before, after, -, hopened, hunread, hopen⟩
  · rwa [hsame]
  rw [hopen] at hvalid ⊢
  have hstate := h.state_code hopened
  obtain ⟨hshown, hcode⟩ := shown_quoted (editable_iff.1 h.unread).1 hunread
  refine ⟨hvalid, shown_append.2 ⟨h.shown, ?_⟩, ?_, ?_⟩
  · rw [hstate]
    exact ⟨hshown, Piece.shown_delimiter rfl, trivial⟩
  · simp only [Piece.textOf_append, Piece.textOf_cons, Lexer.run_append, hstate]
    rw [Piece.text, hcode]
    rfl
  · exact editable_of_isInfix ⟨before ++ ['"'], [], by simp [hunread]⟩ h.unread

theorem Sound.edit {fileId : Option Text}
    (hid : ∀ name, fileId = some name → Comment.free name = true) (h : e.Sound s) :
    (e.edit fileId).Sound s :=
  (h.wrapLocation.startMessage hid).openPayload

/-- Text that is left as it is, read where the call says. -/
theorem shown_remaining (call : PendingInline) {t : Text} (h : Comment.free t = true) :
    (remaining call t).Shown (Lexer.start call.payloadOpened) ∧
      (Lexer.run (Lexer.start call.payloadOpened) t).region =
        (Lexer.start call.payloadOpened).region := by
  unfold remaining
  cases call.payloadOpened with
  | true =>
    have hcloser := (Comment.free_iff.1 h).2.1
    refine ⟨Piece.shown_block rfl hcloser, ?_⟩
    rw [Lexer.start_true]
    rcases Comment.run_block_of_not_closer hcloser with hrun | hrun
    · rw [hrun]
    · rw [hrun]
      rfl
  | false => exact ⟨Piece.shown_free rfl h, Comment.region_run_code_of_free h⟩

theorem shown_closers (s : Lexer) (call : PendingInline) : Shown s (closers call) := by
  unfold closers
  split
  · exact ⟨Piece.shown_delimiter rfl, trivial⟩
  · trivial

/-- The end of a call is read from code: the payload's comment is closed right before it. -/
theorem region_run_closers (call : PendingInline) {t : Text} (h : Comment.free t = true) :
    (Lexer.run (Lexer.run (Lexer.start call.payloadOpened) t)
      (Piece.textOf (closers call))).region = .code := by
  have hregion := (shown_remaining call h).2
  unfold closers
  cases hopened : call.payloadOpened with
  | false =>
    rw [hopened] at hregion
    exact hregion
  | true =>
    rw [Lexer.start_true]
    rcases Comment.run_block_of_not_closer (Comment.free_iff.1 h).2.1 with
      hrun | hrun <;> rw [hrun] <;> rfl

theorem run_callClose {s : Lexer} (hs : s.region = .code) : s.run callClose = .code := by
  cases s with
  | code | slash => rfl
  | block | star | line => cases hs

/-- **The finished line.** All its pieces are where they are meant to be. If the call ends, it ends
in code; otherwise the line ends where the call says. -/
theorem Sound.finish (h : e.Sound s) :
    Shown s e.finish.1 ∧
      (s.run (Piece.textOf e.finish.1)).region =
        if e.finish.2 then .code else (Lexer.start e.call.payloadOpened).region := by
  obtain ⟨hfree, -⟩ := editable_iff.1 h.unread
  unfold TracedEdit.finish
  split
  · next before after hcut =>
    have hunread := Text.cut_eq_some_append hcut
    have hbefore : Comment.free before = true :=
      Comment.free_of_isInfix ⟨[], callClose ++ after, by simp [hunread]⟩ hfree
    have hafter : Comment.free after = true :=
      Comment.free_of_isInfix ⟨before ++ callClose, [], by simp [hunread]⟩ hfree
    obtain ⟨hshown, -⟩ := shown_remaining e.call hbefore
    have hcode := region_run_closers e.call hbefore
    constructor
    · rw [shown_append, shown_append, h.state]
      refine ⟨⟨h.shown, hshown, shown_closers _ e.call⟩, ?_⟩
      rw [Piece.textOf_append, Piece.textOf_cons, text_remaining, Lexer.run_append, h.state,
        Lexer.run_append]
      refine ⟨Piece.shown_of_notMem hcode rfl (by decide) (by decide), ?_, trivial⟩
      rw [Piece.text, run_callClose hcode]
      exact Piece.shown_free rfl hafter
    · simp only [Piece.textOf_append, Piece.textOf_cons, text_remaining, Lexer.run_append, h.state,
        Piece.textOf_nil, Lexer.run_nil, if_true]
      show (Lexer.run (Lexer.run _ callClose) after).region = .code
      rw [run_callClose hcode]
      exact Comment.region_run_code_of_free hafter
  · obtain ⟨hshown, hregion⟩ := shown_remaining e.call hfree
    constructor
    · rw [shown_append, h.state]
      exact ⟨h.shown, hshown, trivial⟩
    · simp only [Piece.textOf_append, Piece.textOf_cons, text_remaining, Piece.textOf_nil,
        List.append_nil, Lexer.run_append, h.state]
      exact hregion

end TracedEdit

/-! ## From line to line -/

namespace InlineState

/-- The state of the pass, and the comment state `inBlock` of the result where the same line
starts. -/
structure Matches (s : InlineState) (inBlock : Bool) : Prop where
  named : ∀ name, s.fileId = some name → Comment.free name = true
  idle : s.call = none → inBlock = s.inBlock
  inCall : ∀ call, s.call = some call →
    call.Valid ∧ s.inBlock = false ∧ inBlock = call.payloadOpened

variable {s : InlineState} {inBlock : Bool} {line : Text}

/-- A call on a line without delimiters is found in code. -/
theorem inBlock_of_findCall {before args : Text} (hline : editable line = true)
    (hfound : findCall inBlock line = some (before, args)) : inBlock = false := by
  obtain ⟨hcut, hhides⟩ := Option.filter_eq_some_iff.1 hfound
  cases inBlock with
  | false => rfl
  | true =>
    have hcloser : Comment.closer <:+: before :=
      Comment.closer_infix_of_not_hides (by simpa using hhides)
    have hbefore : before <:+: line := by
      rw [Text.cut_eq_some_append hcut]
      exact ⟨[], preconditionCall ++ args, by simp⟩
    have hfree := (Comment.free_iff.1 (editable_iff.1 hline).1).2.1
    exact absurd (hcloser.trans hbefore) hfree

theorem Matches.sound_start {e : TracedEdit} (h : s.Matches inBlock) (hline : editable line = true)
    (hstart : s.start? line = some e) : e.Sound (Lexer.start inBlock) := by
  rcases start?_cases hstart with ⟨call, hcall, rfl⟩ | ⟨hcall, before, args, hfound, rfl⟩
  · obtain ⟨hvalid, -, rfl⟩ := h.inCall call hcall
    exact ⟨hvalid, trivial, rfl, hline⟩
  · have hcode : inBlock = false := (h.idle hcall).trans (inBlock_of_findCall hline hfound)
    have hsplit := Text.cut_eq_some_append (Option.filter_eq_some_iff.1 hfound).1
    have hbefore : Comment.free before = true :=
      Comment.free_of_isInfix ⟨[], preconditionCall ++ args, by simp [hsplit]⟩
        (editable_iff.1 hline).1
    rw [hcode]
    refine ⟨.condition s.number, ⟨Piece.shown_free rfl hbefore, ?_, trivial⟩, ?_, ?_⟩
    · exact Piece.shown_of_notMem (Comment.region_run_code_of_free hbefore) rfl (by decide)
        (by decide)
    · show Lexer.run .code (before ++ (builtinCall ++ [])) = .code
      rw [Lexer.run_append]
      rcases Comment.run_code_of_free hbefore with hrun | ⟨hrun, -⟩ <;> rw [hrun] <;> rfl
    · exact editable_of_isInfix ⟨before ++ preconditionCall, [], by simp [hsplit]⟩ hline

/-- The call that a line goes on with or holds stands in code. -/
theorem Matches.inBlock_eq_false {e : TracedEdit} (h : s.Matches inBlock)
    (hline : editable line = true) (hstart : s.start? line = some e) : s.inBlock = false := by
  rcases start?_cases hstart with ⟨call, hcall, -⟩ | ⟨-, before, args, hfound, -⟩
  · exact (h.inCall call hcall).2.1
  · exact inBlock_of_findCall hline hfound

section Step

variable (h : s.Matches inBlock)
  (hid : ∀ name, FileIdentifier.declared? line = some name → Comment.free name = true)
include h hid

theorem Matches.named_next (name : Text) (hname : s.identifier line = some name) :
    Comment.free name = true := by
  unfold identifier at hname
  cases hdeclared : FileIdentifier.declared? line with
  | none =>
    rw [hdeclared, Option.none_or] at hname
    exact h.named name hname
  | some declared =>
    rw [hdeclared, Option.some_or] at hname
    exact hid name (hdeclared.trans hname)

/-- **A line of a call**: its pieces are those of the line, and each is where it is meant to be. -/
theorem Matches.shown {opens : Bool} {pieces : List Piece} (hline : editable line = true)
    (htraced : s.traced line = .call opens pieces) :
    Piece.sourceOf pieces = line ∧ Shown (Lexer.start inBlock) pieces := by
  refine ⟨sourceOf_of_traced htraced, ?_⟩
  obtain ⟨e, hstart, -, rfl⟩ := exists_start?_of_traced htraced
  exact ((h.sound_start hline hstart).edit (h.named_next hid)).finish.1

/-- **One line**: file and result are in step behind it if they were before. -/
theorem Matches.next
    (hline : ∀ opens pieces, s.traced line = .call opens pieces → editable line = true) :
    (s.next line).Matches (Comment.advance inBlock (s.traced line).text) := by
  have hnamed := h.named_next hid
  cases hstart : s.start? line with
  | none =>
    have hidle : s.call = none := by
      cases hcall : s.call with
      | none => rfl
      | some call => simp [start?, hcall] at hstart
    have hnone := call_next_of_start?_eq_none hstart
    rw [traced_of_start?_eq_none hstart]
    refine ⟨hnamed, fun _ => ?_, fun call hcall => ?_⟩
    · rw [h.idle hidle]
      rfl
    · rw [hnone] at hcall
      cases hcall
  | some e =>
    have htraced := traced_of_start? hstart
    have hnext := call_next_of_start? hstart
    have hedit := hline _ _ htraced
    have hsound := (h.sound_start hedit hstart).edit hnamed
    have hregion := hsound.finish.2
    -- no line of a call opens a comment in the file
    have hfile : Comment.advance s.inBlock line = false := by
      rw [h.inBlock_eq_false hedit hstart]
      exact Comment.advance_false_of_not_opener (Comment.free_iff.1 (editable_iff.1 hedit).1).1
    set edited := e.edit (s.identifier line)
    have hresult : Comment.advance inBlock (s.traced line).text =
        if edited.finish.2 then false else edited.call.payloadOpened := by
      rw [htraced, TracedLine.text, Comment.advance_eq_run, hregion]
      split
      · rfl
      · cases edited.call.payloadOpened <;> rfl
    rw [hresult]
    refine ⟨hnamed, fun hnone => ?_, fun call hcall => ?_⟩
    · rw [hnext] at hnone
      split at hnone
      · next hclosed =>
        rw [if_pos hclosed]
        exact hfile.symm
      · cases hnone
    · rw [hnext] at hcall
      split at hcall
      · cases hcall
      · next hopen =>
        cases hcall
        exact ⟨hsound.valid, hfile, if_neg hopen⟩

end Step

/-- **The whole file**: behind any number of lines file and result are in step. -/
theorem Matches.after {lines : List Text} (h : s.Matches inBlock)
    (hid : ∀ line ∈ lines, ∀ name, FileIdentifier.declared? line = some name →
      Comment.free name = true)
    (hline : ∀ (i : Nat) line opens pieces, lines[i]? = some line →
      (s.trace lines)[i]? = some (.call opens pieces) → editable line = true) (i : Nat) :
    (s.after (lines.take i)).Matches
      (Comment.advanceAll inBlock (((s.trace lines).map TracedLine.text).take i)) := by
  induction lines generalizing s inBlock i with
  | nil =>
    rw [trace, List.map_nil, List.take_nil]
    exact h
  | cons line rest ih =>
    cases i with
    | zero => exact h
    | succ i =>
      refine ih (h.next (hid line (by simp)) fun opens pieces htraced => ?_)
        (fun l hl => hid l (by simp [hl])) (fun j l opens pieces hl htrace => ?_) i
      · exact hline 0 line opens pieces rfl (by rw [← htraced]; rfl)
      · exact hline (j + 1) l opens pieces hl htrace

end InlineState

/-- Whether line number `i` belongs to a call, from the line that holds it to the one on which the
inline style takes it to end. -/
def InCall (lines : List Text) (i : Nat) : Prop :=
  ∃ opens pieces, (inlineTrace lines)[i]? = some (.call opens pieces)

/-- Whether line number `i` belongs to a call that is found on a line before it. -/
def ContinuesCall (lines : List Text) (i : Nat) : Prop :=
  ∃ pieces, (inlineTrace lines)[i]? = some (.call false pieces)

/-- Where no call goes on none is open, nor at the end of the file. -/
theorem call_after_eq_none {lines : List Text} {i : Nat}
    (hclosed : (InlineState.after {} lines).call = none) (hi : ¬ContinuesCall lines i) :
    (InlineState.after {} (lines.take i)).call = none := by
  cases hline : lines[i]? with
  | none =>
    rw [List.take_of_length_le (List.getElem?_eq_none_iff.1 hline)]
    exact hclosed
  | some line =>
    cases hcall : (InlineState.after {} (lines.take i)).call with
    | none => rfl
    | some call =>
      obtain ⟨pieces, htraced⟩ := InlineState.traced_of_call hcall line
      refine absurd ⟨pieces, ?_⟩ hi
      rw [inlineTrace, InlineState.getElem?_trace, hline, Option.map_some, htraced]

/-- A file whose calls can be edited without touching a comment: no line of a call holds a
delimiter or has a `/` right before a location argument, and no declared identifier holds one. -/
structure CallsEditable (lines : List Text) : Prop where
  line : ∀ i line, lines[i]? = some line → InCall lines i → editable line = true
  identifier : ∀ line ∈ lines, ∀ name, FileIdentifier.declared? line = some name →
    Comment.free name = true

section File

variable {lines : List Text} (hfree : CallsEditable lines) {r : Revision}
  (h : inlinePreconditions lines = .ok r)
include hfree h

theorem InlineState.matches_after (i : Nat) :
    (InlineState.after {} (lines.take i)).Matches (Comment.advanceAll false (r.lines.take i)) := by
  obtain ⟨-, rfl⟩ := inlinePreconditions_eq_ok_iff.1 h
  have hstart : InlineState.Matches {} false := ⟨nofun, fun _ => rfl, nofun⟩
  exact hstart.after hfree.identifier (fun i line opens pieces hline htrace =>
    hfree.line i line hline ⟨opens, pieces, htrace⟩) i

theorem advanceAll_of_not_continuesCall {i : Nat} (hi : ¬ContinuesCall lines i) :
    Comment.advanceAll false (r.lines.take i) = Comment.advanceAll false (lines.take i) := by
  have hidle := call_after_eq_none (inlinePreconditions_eq_ok_iff.1 h).1 hi
  rw [← InlineState.inBlock_after {} (lines.take i)]
  exact (InlineState.matches_after hfree h i).idle hidle

variable {i : Nat} {opens : Bool} {pieces : List Piece}
  (htrace : (inlineTrace lines)[i]? = some (.call opens pieces))
include htrace

theorem shown_of_inlineTrace :
    lines[i]? = some (Piece.sourceOf pieces) ∧
      Shown (Lexer.start (Comment.advanceAll false (r.lines.take i))) pieces := by
  obtain ⟨line, hline, htraced⟩ := exists_traced_of_inlineTrace htrace
  obtain ⟨hsource, hshown⟩ := (InlineState.matches_after hfree h i).shown
    (hfree.identifier line (List.mem_of_getElem? hline))
    (hfree.line i line hline ⟨opens, pieces, htrace⟩) htraced
  exact ⟨hsource ▸ hline, hshown⟩

/-- Every character of a call is where its piece wants it. -/
theorem hidesAt?_of_inlineTrace {before after : List Piece} {p : Piece}
    (hsplit : pieces = before ++ p :: after) {t u : Text} {c : Char}
    (htext : p.text = t ++ c :: u) {hidden : Bool} (hhidden : p.hidden? = some hidden) :
    Comment.hidesAt? (Comment.advanceAll false (r.lines.take i)) (Piece.textOf pieces)
      (Text.byteSize (Piece.textOf before ++ t)) = some hidden := by
  obtain ⟨-, hshown⟩ := shown_of_inlineTrace hfree h htrace
  rw [hsplit, shown_append] at hshown
  have hplace := hshown.2.1 t c u htext hidden hhidden
  have hline : Piece.textOf pieces =
      (Piece.textOf before ++ t) ++ (c :: u ++ Piece.textOf after) := by
    simp [hsplit, htext]
  rw [hline, hidesAt?_append, Comment.hides_eq_run, Lexer.run_append, hplace]

end File

/-- **The inline style hides the payload and keeps the rest of a call live.** The comment state at
the start of every line that does not go on with a call is what it was. Each line of a call is
written as the pieces of the line, the first one with the call's name and the last one with its end;
of the pieces name, arguments, label and end are code, while location argument and payload are
inside comments. -/
theorem inline_hides_payload {lines : List Text} {r : Revision} (hfree : CallsEditable lines)
    (h : inlinePreconditions lines = .ok r) :
    (∀ i, ¬ContinuesCall lines i →
        Comment.advanceAll false (r.lines.take i) = Comment.advanceAll false (lines.take i)) ∧
      ∀ i opens pieces, (inlineTrace lines)[i]? = some (.call opens pieces) →
        lines[i]? = some (Piece.sourceOf pieces) ∧ r.lines[i]? = some (Piece.textOf pieces) ∧
          (opens = true → .name ∈ pieces) ∧ (¬ContinuesCall lines (i + 1) → .closing ∈ pieces) ∧
            ∀ before p after, pieces = before ++ p :: after →
              ∀ t c u, p.text = t ++ c :: u → ∀ hidden, p.hidden? = some hidden →
                Comment.hidesAt? (Comment.advanceAll false (r.lines.take i)) (Piece.textOf pieces)
                  (Text.byteSize (Piece.textOf before ++ t)) = some hidden := by
  refine ⟨fun i hi => advanceAll_of_not_continuesCall hfree h hi,
    fun i opens pieces htrace => ?_⟩
  obtain ⟨line, hline, htraced⟩ := exists_traced_of_inlineTrace htrace
  refine ⟨(shown_of_inlineTrace hfree h htrace).1, getElem?_of_inlineTrace h htrace, ?_, ?_, ?_⟩
  · rintro rfl
    exact InlineState.name_mem_of_traced htraced
  · intro hlast
    have hidle := call_after_eq_none (inlinePreconditions_eq_ok_iff.1 h).1 hlast
    rw [List.take_add_one, hline, InlineState.after_append] at hidle
    exact InlineState.closing_mem_of_traced htraced hidle
  · intro before p after hsplit t c u htext hidden hhidden
    exact hidesAt?_of_inlineTrace hfree h htrace hsplit htext hhidden

/-- A call whose location argument, message and payload stand on lines of their own. -/
theorem inline_hides_payload_three_lines :
    ∃ r, inlinePreconditions
        ["bytes32 constant FILE = \"Pool\";", "  Require.that(a > 0, FILE,", "    \"positive\", a,",
          "    b);"] = .ok r ∧
      Comment.hidesAt? (Comment.advanceAll false (r.lines.take 1)) "  require(a > 0, /*FILE,*/" 2 =
          some false ∧
        Comment.hidesAt? (Comment.advanceAll false (r.lines.take 3)) "    b*/);" 4 = some true ∧
          Comment.advanceAll false (r.lines.take 4) = false := by
  set lines : List Text := ["bytes32 constant FILE = \"Pool\";", "  Require.that(a > 0, FILE,",
    "    \"positive\", a,", "    b);"]
  have hlines : ∀ line ∈ lines, editable line = true := by decide +kernel
  have hnames : ∀ line ∈ lines, (FileIdentifier.declared? line).all Comment.free = true := by
    decide +kernel
  have hfree : CallsEditable lines :=
    ⟨fun i line hline _ => hlines line (List.mem_of_getElem? hline),
      fun line hline name hname => by simpa [hname] using hnames line hline⟩
  have h := (@inlinePreconditions_eq_ok_iff lines _).2 ⟨by decide +kernel, rfl⟩
  obtain ⟨hstate, hpieces⟩ := inline_hides_payload hfree h
  refine ⟨_, h, ?_, ?_, ?_⟩
  · exact (hpieces 1 true [.outside "  ", .name, .argument "a > 0, ", .opener, .location, .closer,
      .argument []] (by decide +kernel)).2.2.2.2 [.outside "  "] .name _ rfl [] 'r' _ rfl _ rfl
  · exact (hpieces 3 false [.payload "    b", .closer, .closing, .outside []]
      (by decide +kernel)).2.2.2.2 [] _ _ rfl "    " 'b' [] rfl _ rfl
  · have hend : (inlineTrace lines)[4]? = none := by decide +kernel
    rw [hstate 4 (by rintro ⟨_, htrace⟩; rw [hend] at htrace; cases htrace)]
    decide +kernel

end ContractLint.Coverage
