import ContractLint.Coverage.Inline
import ContractLint.Proofs.Coverage.CallParts

/-!
# What becomes of each part of a call

The inline style edits the lines of a call from left to right and gives plain text, which no longer
shows what was in the file, what was put in, and what was commented out. Here the same edits are
made on pieces that know their part.

## The architecture

* **`Piece`** — a piece of a revised line: the file's own text, or one of the texts put in.
* **`TracedEdit`** — the edits of one line on pieces. Forgetting the parts commutes with every edit
  (`toEdit_edit`), so a traced edit is the edit. What an edit can do is said once, by its cases;
  that it reads on and loses nothing (`Reads`) follows from them.
* **`PendingInline.Valid`** — what is known of an open call whatever was read of it.
* **`InlineState`** — what the pass carries from line to line; `next` and `traced` are its steps.
* **`revise_eq`** — the pass is the run of these steps: it fails if a call is open at the end, and
  otherwise writes the text of the pieces.
-/

namespace ContractLint.Coverage

/-! ## Pieces -/

/-- A piece of a revised line. -/
inductive Piece where
  /-- Text before a call or behind its end. -/
  | outside (t : Text)
  /-- The name of the call, which is replaced. -/
  | name
  /-- Text of a call that stays code. -/
  | argument (t : Text)
  /-- A `/*` that is put in. -/
  | opener
  /-- The location argument, which gets a comment of its own. -/
  | location
  /-- A `*/` that is put in. -/
  | closer
  /-- What is put before the message. -/
  | label (t : Text)
  /-- Text of a call that is commented out. -/
  | payload (t : Text)
  /-- The end of the call. -/
  | closing
  deriving DecidableEq, Repr

namespace Piece

/-- The text that is written. -/
def text : Piece → Text
  | outside t | argument t | label t | payload t => t
  | name => builtinCall
  | opener => Comment.opener
  | location => locationArgument
  | closer => Comment.closer
  | closing => callClose

/-- The text of the file. -/
def source : Piece → Text
  | outside t | argument t | payload t => t
  | opener | closer | label _ => []
  | name => preconditionCall
  | location => locationArgument
  | closing => callClose

def textOf (pieces : List Piece) : Text := pieces.flatMap text

def sourceOf (pieces : List Piece) : Text := pieces.flatMap source

@[simp] theorem textOf_nil : textOf [] = [] := rfl

@[simp] theorem textOf_cons (p : Piece) (pieces : List Piece) :
    textOf (p :: pieces) = p.text ++ textOf pieces := List.flatMap_cons

@[simp] theorem textOf_append (pieces rest : List Piece) :
    textOf (pieces ++ rest) = textOf pieces ++ textOf rest := List.flatMap_append

@[simp] theorem sourceOf_nil : sourceOf [] = [] := rfl

@[simp] theorem sourceOf_cons (p : Piece) (pieces : List Piece) :
    sourceOf (p :: pieces) = p.source ++ sourceOf pieces := List.flatMap_cons

@[simp] theorem sourceOf_append (pieces rest : List Piece) :
    sourceOf (pieces ++ rest) = sourceOf pieces ++ sourceOf rest := List.flatMap_append

end Piece

/-! ## Edits on pieces -/

/-- A line of arguments while it is edited, in pieces. -/
structure TracedEdit where
  call : PendingInline
  written : List Piece := []
  unread : Text
  deriving DecidableEq, Repr

namespace TracedEdit

def toEdit (e : TracedEdit) : InlineEdit := ⟨e.call, Piece.textOf e.written, e.unread⟩

def wrapLocation (e : TracedEdit) : TracedEdit :=
  match e.call.progress with
  | .condition start =>
    match splitLocation? e.unread with
    | some (before, after) =>
      { call := { e.call with progress := .message start }
        written := e.written ++ [.argument before, .opener, .location, .closer]
        unread := after }
    | none => e
  | _ => e

def labels (fileId : Option Text) : List Piece :=
  (fileId.map fun name => Piece.label (name ++ ": ")).toList

def startMessage (fileId : Option Text) (e : TracedEdit) : TracedEdit :=
  match e.call.progress with
  | .message _ =>
    if e.call.messageStarted then e
    else match Text.cut ['"'] e.unread with
      | some (before, after) =>
        { call := { e.call with messageStarted := true }
          written := e.written ++ (.argument (before ++ ['"']) :: labels fileId)
          unread := after }
      | none => e
  | _ => e

def openPayload (e : TracedEdit) : TracedEdit :=
  if e.call.messageStarted && !e.call.payloadOpened then
    match Text.cut messageEnd e.unread with
    | some (before, after) =>
      { call := { e.call with payloadOpened := true }
        written := e.written ++ [.argument (before ++ ['"']), .opener]
        unread := ',' :: after }
    | none => e
  else e

def edit (fileId : Option Text) (e : TracedEdit) : TracedEdit :=
  (e.wrapLocation.startMessage fileId).openPayload

/-- Text that is left as it is, commented out or not. -/
def remaining (call : PendingInline) (t : Text) : Piece :=
  if call.payloadOpened then .payload t else .argument t

/-- What is put before the end of a call. -/
def closers (call : PendingInline) : List Piece := if call.payloadOpened then [.closer] else []

def finish (e : TracedEdit) : List Piece × Bool :=
  match Text.cut callClose e.unread with
  | some (before, after) =>
    (e.written ++ (remaining e.call before :: closers e.call) ++ [.closing, .outside after], true)
  | none => (e.written ++ [remaining e.call e.unread], false)

theorem toEdit_wrapLocation (e : TracedEdit) : e.wrapLocation.toEdit = e.toEdit.wrapLocation := by
  obtain ⟨⟨progress, started, opened⟩, written, unread⟩ := e
  cases progress with
  | condition start =>
    simp only [wrapLocation, InlineEdit.wrapLocation, toEdit]
    cases splitLocation? unread with
    | some parts => simp [Piece.text]
    | none => rfl
  | idle | assertion _ | message _ => rfl

theorem toEdit_startMessage (fileId : Option Text) (e : TracedEdit) :
    (e.startMessage fileId).toEdit = e.toEdit.startMessage fileId := by
  obtain ⟨⟨progress, started, opened⟩, written, unread⟩ := e
  cases progress with
  | message start =>
    simp only [startMessage, InlineEdit.startMessage, toEdit]
    cases started with
    | true => rfl
    | false =>
      cases Text.cut ['"'] unread with
      | some parts => cases fileId <;> simp [labels, Piece.text]
      | none => rfl
  | idle | assertion _ | condition _ => rfl

theorem toEdit_openPayload (e : TracedEdit) : e.openPayload.toEdit = e.toEdit.openPayload := by
  obtain ⟨⟨progress, started, opened⟩, written, unread⟩ := e
  cases started with
  | false => rfl
  | true =>
    cases opened with
    | true => rfl
    | false =>
      simp only [openPayload, InlineEdit.openPayload, toEdit]
      cases Text.cut messageEnd unread with
      | some parts => simp [Piece.text]
      | none => rfl

/-- **A traced edit is the edit.** -/
theorem toEdit_edit (fileId : Option Text) (e : TracedEdit) :
    (e.edit fileId).toEdit = e.toEdit.edit fileId := by
  rw [edit, toEdit_openPayload, toEdit_startMessage, toEdit_wrapLocation, InlineEdit.edit]

@[simp] theorem text_remaining (call : PendingInline) (t : Text) : (remaining call t).text = t := by
  unfold remaining
  split <;> rfl

theorem finish_toEdit (e : TracedEdit) :
    e.toEdit.finish = (Piece.textOf e.finish.1, e.finish.2) := by
  obtain ⟨⟨progress, started, opened⟩, written, unread⟩ := e
  simp only [finish, InlineEdit.finish, toEdit]
  cases Text.cut callClose unread with
  | some parts =>
    simp only [Piece.textOf_append, Piece.textOf_cons, text_remaining]
    cases opened <;> simp [closers, Piece.text]
  | none => simp

theorem finish_snd (e : TracedEdit) : e.finish.2 = callClose.occursIn e.unread := by
  unfold finish Text.occursIn
  split
  · next hcut => rw [hcut]; rfl
  · next hcut => rw [hcut]; rfl

end TracedEdit

/-! ## What an edit can do

Each of the three edits either leaves the line alone or has come to the text that it looks for. All
that is said about edited lines goes by these cases. -/

namespace TracedEdit

theorem wrapLocation_cases (e : TracedEdit) :
    e.wrapLocation = e ∨ ∃ start before after, e.call.progress = .condition start ∧
      e.unread = before ++ locationArgument ++ after ∧
        e.wrapLocation = ⟨{ e.call with progress := .message start },
          e.written ++ [.argument before, .opener, .location, .closer], after⟩ := by
  unfold wrapLocation
  split
  · next start hcondition =>
    split
    · next before after hsplit =>
      exact .inr ⟨start, before, after, hcondition,
        Text.cut_eq_some_append (cut_of_splitLocation hsplit).1, rfl⟩
    · exact .inl rfl
  · exact .inl rfl

theorem startMessage_cases (fileId : Option Text) (e : TracedEdit) :
    e.startMessage fileId = e ∨ ∃ start before after, e.call.progress = .message start ∧
      e.call.messageStarted = false ∧ e.unread = before ++ '"' :: after ∧
        e.startMessage fileId = ⟨{ e.call with messageStarted := true },
          e.written ++ (.argument (before ++ ['"']) :: labels fileId), after⟩ := by
  unfold startMessage
  split
  · next start hmessage =>
    split
    · exact .inl rfl
    · next hstarted =>
      split
      · next before after hcut =>
        have hunread := Text.cut_eq_some_append hcut
        rw [List.append_assoc, List.singleton_append] at hunread
        exact .inr ⟨start, before, after, hmessage, by simpa using hstarted, hunread, rfl⟩
      · exact .inl rfl
  · exact .inl rfl

theorem openPayload_cases (e : TracedEdit) :
    e.openPayload = e ∨ ∃ before after, e.call.messageStarted = true ∧
      e.call.payloadOpened = false ∧ e.unread = before ++ '"' :: ',' :: after ∧
        e.openPayload = ⟨{ e.call with payloadOpened := true },
          e.written ++ [.argument (before ++ ['"']), .opener], ',' :: after⟩ := by
  unfold openPayload
  split
  · next hopens =>
    obtain ⟨hstarted, hopened⟩ : e.call.messageStarted = true ∧ e.call.payloadOpened = false := by
      simpa using hopens
    split
    · next before after hcut =>
      have hunread := Text.cut_eq_some_append hcut
      rw [List.append_assoc] at hunread
      exact .inr ⟨before, after, hstarted, hopened, hunread, rfl⟩
    · exact .inl rfl
  · exact .inl rfl

/-- Whether `e` becomes `e'` by reading on: pieces are written for a part of what was still to be
read. -/
def Reads (e e' : TracedEdit) : Prop :=
  ∃ pieces, e'.written = e.written ++ pieces ∧ e.unread = Piece.sourceOf pieces ++ e'.unread

theorem Reads.refl (e : TracedEdit) : Reads e e := ⟨[], by simp, rfl⟩

theorem Reads.trans {e e' e'' : TracedEdit} (h : Reads e e') (h' : Reads e' e'') :
    Reads e e'' := by
  obtain ⟨pieces, hwritten, hunread⟩ := h
  obtain ⟨pieces', hwritten', hunread'⟩ := h'
  exact ⟨pieces ++ pieces', by rw [hwritten', hwritten, List.append_assoc],
    by rw [hunread, hunread', Piece.sourceOf_append, List.append_assoc]⟩

theorem reads_wrapLocation (e : TracedEdit) : Reads e e.wrapLocation := by
  rcases e.wrapLocation_cases with hsame | ⟨start, before, after, -, hunread, hwrap⟩
  · rw [hsame]
    exact .refl e
  · rw [hwrap]
    exact ⟨_, rfl, by simp [hunread, Piece.source]⟩

theorem reads_startMessage (fileId : Option Text) (e : TracedEdit) :
    Reads e (e.startMessage fileId) := by
  rcases e.startMessage_cases fileId with hsame | ⟨start, before, after, -, -, hunread, hstart⟩
  · rw [hsame]
    exact .refl e
  · rw [hstart]
    refine ⟨_, rfl, ?_⟩
    cases fileId <;> simp [hunread, labels, Piece.source]

theorem reads_openPayload (e : TracedEdit) : Reads e e.openPayload := by
  rcases e.openPayload_cases with hsame | ⟨before, after, -, -, hunread, hopen⟩
  · rw [hsame]
    exact .refl e
  · rw [hopen]
    exact ⟨_, rfl, by simp [hunread, Piece.source]⟩

theorem reads_edit (fileId : Option Text) (e : TracedEdit) : Reads e (e.edit fileId) :=
  ((reads_wrapLocation e).trans (reads_startMessage fileId _)).trans (reads_openPayload _)

/-- The text of the file that the edit has read and has still to read. -/
def line (e : TracedEdit) : Text := Piece.sourceOf e.written ++ e.unread

/-- Nothing of the line is lost. -/
theorem Reads.line_eq {e e' : TracedEdit} (h : Reads e e') : e'.line = e.line := by
  obtain ⟨pieces, hwritten, hunread⟩ := h
  rw [line, line, hwritten, hunread, Piece.sourceOf_append, List.append_assoc]

theorem Reads.unread_suffix {e e' : TracedEdit} (h : Reads e e') : e'.unread <:+ e.unread := by
  obtain ⟨pieces, -, hunread⟩ := h
  exact ⟨_, hunread.symm⟩

theorem Reads.written_subset {e e' : TracedEdit} (h : Reads e e') : e.written ⊆ e'.written := by
  obtain ⟨pieces, hwritten, -⟩ := h
  rw [hwritten]
  exact List.subset_append_left _ _

@[simp] theorem source_remaining (call : PendingInline) (t : Text) :
    (remaining call t).source = t := by
  unfold remaining
  split <;> rfl

theorem sourceOf_finish (e : TracedEdit) : Piece.sourceOf e.finish.1 = e.line := by
  unfold finish
  split
  · next before after hcut =>
    rw [line, Text.cut_eq_some_append hcut]
    simp only [Piece.sourceOf_append, Piece.sourceOf_cons, source_remaining]
    cases h : e.call.payloadOpened <;> simp [closers, h, Piece.source]
  · simp [line]

theorem written_prefix_finish (e : TracedEdit) : e.written <+: e.finish.1 := by
  unfold finish
  split
  · rw [List.append_assoc]
    exact List.prefix_append _ _
  · exact List.prefix_append _ _

theorem written_subset_finish (e : TracedEdit) : e.written ⊆ e.finish.1 :=
  e.written_prefix_finish.subset

theorem closing_mem_finish {e : TracedEdit} (h : e.finish.2 = true) : .closing ∈ e.finish.1 := by
  unfold finish at h ⊢
  split
  · simp
  · next hcut =>
    rw [hcut] at h
    cases h

end TracedEdit

/-- What holds of an open call: the message starts behind the location argument, and the payload
behind the message. -/
structure PendingInline.Valid (call : PendingInline) : Prop where
  inCall : call.progress.inCall = true
  message : call.messageStarted = true → ∃ start, call.progress = .message start
  payload : call.payloadOpened = true → call.messageStarted = true

namespace PendingInline.Valid

theorem condition (start : Nat) : Valid { progress := .condition start } := ⟨rfl, nofun, nofun⟩

variable {call : PendingInline} (h : call.Valid)
include h

theorem exists_unterminated : ∃ e, call.progress.unterminated? = some e := by
  have hin := h.inCall
  cases hp : call.progress with
  | idle | assertion start => rw [hp] at hin; cases hin
  | condition start | message start => exact ⟨_, rfl⟩

theorem messageStarted_eq_false {start : Nat} (hcondition : call.progress = .condition start) :
    call.messageStarted = false := by
  rw [Bool.eq_false_iff]
  intro hstarted
  obtain ⟨_, hmessage⟩ := h.message hstarted
  rw [hcondition] at hmessage
  cases hmessage

theorem payloadOpened_eq_false (hstarted : call.messageStarted = false) :
    call.payloadOpened = false := by
  rw [Bool.eq_false_iff]
  intro hopened
  rw [h.payload hopened] at hstarted
  cases hstarted

end PendingInline.Valid

namespace TracedEdit

variable {e : TracedEdit}

theorem valid_wrapLocation (h : e.call.Valid) : e.wrapLocation.call.Valid := by
  rcases e.wrapLocation_cases with hsame | ⟨start, _, _, -, -, hwrap⟩
  · rwa [hsame]
  · rw [hwrap]
    exact ⟨rfl, fun _ => ⟨start, rfl⟩, h.payload⟩

theorem valid_startMessage (fileId : Option Text) (h : e.call.Valid) :
    (e.startMessage fileId).call.Valid := by
  rcases e.startMessage_cases fileId with hsame | ⟨start, _, _, hmessage, -, -, hstart⟩
  · rwa [hsame]
  · rw [hstart]
    exact ⟨h.inCall, fun _ => ⟨start, hmessage⟩, fun _ => rfl⟩

theorem valid_openPayload (h : e.call.Valid) : e.openPayload.call.Valid := by
  rcases e.openPayload_cases with hsame | ⟨_, _, hstarted, -, -, hopen⟩
  · rwa [hsame]
  · rw [hopen]
    exact ⟨h.inCall, h.message, fun _ => hstarted⟩

theorem valid_edit (fileId : Option Text) (h : e.call.Valid) : (e.edit fileId).call.Valid :=
  valid_openPayload (valid_startMessage fileId (valid_wrapLocation h))

end TracedEdit

/-! ## The pass line by line -/

/-- A line that the inline style leaves alone, or the pieces of a line of a call. -/
inductive TracedLine where
  | plain (line : Text)
  | call (opens : Bool) (pieces : List Piece)
  deriving DecidableEq, Repr

namespace TracedLine

def text : TracedLine → Text
  | plain line => line
  | call _ pieces => Piece.textOf pieces

/-- Whether a call is found on the line. -/
def opens : TracedLine → Bool
  | plain _ => false
  | call opens _ => opens

end TracedLine

/-- What the pass carries from line to line. -/
structure InlineState where
  /-- The number of the next line. -/
  number : Nat := 0
  fileId : Option Text := none
  inBlock : Bool := false
  call : Option PendingInline := none
  deriving DecidableEq, Repr

namespace InlineState

/-- The edit that a line starts with, if it belongs to a call. -/
def start? (s : InlineState) (line : Text) : Option TracedEdit :=
  match s.call with
  | some call => some { call, unread := line }
  | none => (findCall s.inBlock line).map fun (before, args) =>
      { call := { progress := .condition s.number }
        written := [.outside before, .name]
        unread := args }

/-- The identifier in force on a line. -/
def identifier (s : InlineState) (line : Text) : Option Text :=
  (FileIdentifier.declared? line).or s.fileId

/-- The call that is open behind a line. -/
def nextCall (s : InlineState) (line : Text) : Option PendingInline :=
  match s.start? line with
  | none => none
  | some e =>
    if (e.edit (s.identifier line)).finish.2 then none else some (e.edit (s.identifier line)).call

def next (s : InlineState) (line : Text) : InlineState where
  number := s.number + 1
  fileId := s.identifier line
  inBlock := Comment.advance s.inBlock line
  call := s.nextCall line

/-- What becomes of a line. -/
def traced (s : InlineState) (line : Text) : TracedLine :=
  match s.start? line with
  | none => .plain line
  | some e => .call s.call.isNone (e.edit (s.identifier line)).finish.1

def after (s : InlineState) (lines : List Text) : InlineState := lines.foldl next s

def trace (s : InlineState) : List Text → List TracedLine
  | [] => []
  | line :: rest => s.traced line :: (s.next line).trace rest

/-- The pass from a state on. -/
def revise (s : InlineState) (lines : List Text) : Except Unterminated Revision :=
  inlineFrom s.number s.fileId s.inBlock s.call lines

/-- The number of calls that are found in several lines. -/
def found (s : InlineState) (lines : List Text) : Nat := (s.trace lines).countP TracedLine.opens

@[simp] theorem after_cons (s : InlineState) (line : Text) (rest : List Text) :
    s.after (line :: rest) = (s.next line).after rest := rfl

theorem after_append (s : InlineState) (lines rest : List Text) :
    s.after (lines ++ rest) = (s.after lines).after rest := List.foldl_append

theorem found_cons (s : InlineState) (line : Text) (rest : List Text) :
    s.found (line :: rest) =
      (if (s.traced line).opens then 1 else 0) + (s.next line).found rest := by
  rw [found, trace, List.countP_cons, Nat.add_comm]
  rfl

theorem after_concat (s : InlineState) (lines : List Text) (line : Text) :
    s.after (lines ++ [line]) = (s.after lines).next line := after_append s lines [line]

theorem trace_concat (s : InlineState) (lines : List Text) (line : Text) :
    s.trace (lines ++ [line]) = s.trace lines ++ [(s.after lines).traced line] := by
  induction lines generalizing s with
  | nil => rfl
  | cons first rest ih => exact congrArg (s.traced first :: ·) (ih (s.next first))

theorem found_concat (s : InlineState) (lines : List Text) (line : Text) :
    s.found (lines ++ [line]) =
      s.found lines + if ((s.after lines).traced line).opens then 1 else 0 := by
  rw [found, trace_concat, List.countP_append, List.countP_singleton]
  rfl

theorem number_after (s : InlineState) (lines : List Text) :
    (s.after lines).number = s.number + lines.length := by
  induction lines generalizing s with
  | nil => rfl
  | cons line rest ih =>
    rw [after_cons, ih, List.length_cons]
    show s.number + 1 + rest.length = _
    omega

theorem inBlock_after (s : InlineState) (lines : List Text) :
    (s.after lines).inBlock = Comment.advanceAll s.inBlock lines := by
  induction lines generalizing s with
  | nil => rfl
  | cons line rest ih => exact ih (s.next line)

/-- A line of the trace is made from the same line of the file, in the state behind those before. -/
theorem getElem?_trace (s : InlineState) (lines : List Text) (i : Nat) :
    (s.trace lines)[i]? = lines[i]?.map (s.after (lines.take i)).traced := by
  induction lines generalizing s i with
  | nil => rfl
  | cons line rest ih =>
    cases i with
    | zero => rfl
    | succ i => exact ih (s.next line) i

/-! ### What a line can do -/

section Line

variable {s : InlineState} {line : Text} {e : TracedEdit}

/-- The edit of a line goes on with the open call, or it starts with the call that is found. -/
theorem start?_cases (h : s.start? line = some e) :
    (∃ call, s.call = some call ∧ e = { call, unread := line }) ∨
      s.call = none ∧ ∃ before args, findCall s.inBlock line = some (before, args) ∧
        e = ⟨{ progress := .condition s.number }, [.outside before, .name], args⟩ := by
  unfold start? at h
  split at h
  · next call hcall =>
    cases h
    exact .inl ⟨call, hcall, rfl⟩
  · next hcall =>
    obtain ⟨⟨before, args⟩, hfound, rfl⟩ := Option.map_eq_some_iff.1 h
    exact .inr ⟨hcall, before, args, hfound, rfl⟩

theorem start?_eq_none_iff :
    s.start? line = none ↔ s.call = none ∧ findCall s.inBlock line = none := by
  unfold start?
  split
  · next call hcall => simp [hcall]
  · next hcall => simp [hcall]

theorem call_next_of_start? (h : s.start? line = some e) :
    (s.next line).call =
      if (e.edit (s.identifier line)).finish.2 then none
      else some (e.edit (s.identifier line)).call := by
  show s.nextCall line = _
  rw [nextCall, h]

theorem call_next_of_start?_eq_none (h : s.start? line = none) : (s.next line).call = none := by
  show s.nextCall line = none
  rw [nextCall, h]

theorem traced_of_start? (h : s.start? line = some e) :
    s.traced line = .call s.call.isNone (e.edit (s.identifier line)).finish.1 := by
  rw [traced, h]

theorem traced_of_start?_eq_none (h : s.start? line = none) : s.traced line = .plain line := by
  rw [traced, h]

theorem exists_start?_of_traced {opens : Bool} {pieces : List Piece}
    (h : s.traced line = .call opens pieces) :
    ∃ e, s.start? line = some e ∧ opens = s.call.isNone ∧
      pieces = (e.edit (s.identifier line)).finish.1 := by
  cases hstart : s.start? line with
  | none =>
    rw [traced_of_start?_eq_none hstart] at h
    cases h
  | some e =>
    rw [traced_of_start? hstart] at h
    obtain ⟨rfl, rfl⟩ := TracedLine.call.inj h
    exact ⟨e, rfl, rfl, rfl⟩

theorem line_start? (h : s.start? line = some e) : e.line = line := by
  rcases start?_cases h with ⟨call, -, rfl⟩ | ⟨-, before, args, hfound, rfl⟩
  · rfl
  · have hsplit := Text.cut_eq_some_append (Option.filter_eq_some_iff.1 hfound).1
    simp [TracedEdit.line, Piece.source, hsplit]

/-- The pieces of a line are those of the file's line. -/
theorem sourceOf_of_traced {opens : Bool} {pieces : List Piece}
    (h : s.traced line = .call opens pieces) : Piece.sourceOf pieces = line := by
  obtain ⟨e, hstart, -, rfl⟩ := exists_start?_of_traced h
  rw [TracedEdit.sourceOf_finish, (TracedEdit.reads_edit _ e).line_eq, line_start? hstart]

/-- The line that holds a call shows its name. -/
theorem name_mem_of_traced {pieces : List Piece} (h : s.traced line = .call true pieces) :
    .name ∈ pieces := by
  obtain ⟨e, hstart, hidle, rfl⟩ := exists_start?_of_traced h
  rcases start?_cases hstart with ⟨call, hcall, -⟩ | ⟨-, before, args, -, rfl⟩
  · rw [hcall] at hidle
    cases hidle
  · exact TracedEdit.written_subset_finish _ ((TracedEdit.reads_edit _ _).written_subset (by simp))

/-- The last line of a call shows its end. -/
theorem closing_mem_of_traced {opens : Bool} {pieces : List Piece}
    (h : s.traced line = .call opens pieces) (hnext : (s.next line).call = none) :
    .closing ∈ pieces := by
  obtain ⟨e, hstart, -, rfl⟩ := exists_start?_of_traced h
  rw [call_next_of_start? hstart] at hnext
  apply TracedEdit.closing_mem_finish
  by_contra hopen
  simp [hopen] at hnext

/-- Where a call is open, the next line belongs to it. -/
theorem traced_of_call {call : PendingInline} (h : s.call = some call) (line : Text) :
    ∃ pieces, s.traced line = .call false pieces := by
  rw [traced, start?, h]
  exact ⟨_, rfl⟩

end Line

/-! ## The pass is the run of its steps -/

theorem revise_cons (s : InlineState) (line : Text) (rest : List Text) :
    s.revise (line :: rest) = ((s.next line).revise rest).map
      (.prepend [(s.traced line).text] (if (s.traced line).opens then 1 else 0)) := by
  -- the text of a traced line, and whether it ends the call, is what the edit gives
  have hfinish (fileId : Option Text) (e : TracedEdit) :
      (e.toEdit.edit fileId).finish =
        (Piece.textOf (e.edit fileId).finish.1, (e.edit fileId).finish.2) := by
    rw [← TracedEdit.toEdit_edit, TracedEdit.finish_toEdit]
  have hcall (fileId : Option Text) (e : TracedEdit) :
      (e.toEdit.edit fileId).call = (e.edit fileId).call := by
    rw [← TracedEdit.toEdit_edit]
    rfl
  obtain ⟨number, fileId, inBlock, call⟩ := s
  set name := (FileIdentifier.declared? line).or fileId with hname
  unfold revise
  cases call with
  | some call =>
    set e : TracedEdit := { call, unread := line } with he
    show (inlineFrom (number + 1) name (Comment.advance inBlock line)
      (if (e.toEdit.edit name).finish.2 then none else some (e.toEdit.edit name).call) rest).map
        (Revision.prepend [(e.toEdit.edit name).finish.1] 0) = _
    rw [hfinish, hcall]
    rfl
  | none =>
    rw [inlineFrom.eq_def]
    cases hfound : findCall inBlock line with
    | none =>
      have hplain : start? ⟨number, fileId, inBlock, none⟩ line = none := by
        rw [start?, hfound]
        rfl
      simp only [hfound, next, nextCall, traced, hplain]
      rfl
    | some parts =>
      set e : TracedEdit :=
        { call := { progress := .condition number }
          written := [.outside parts.1, .name]
          unread := parts.2 } with he
      have hopen : start? ⟨number, fileId, inBlock, none⟩ line = some e := by
        rw [start?, hfound]
        rfl
      simp only [hfound, next, nextCall, traced, hopen]
      show (inlineFrom (number + 1) name (Comment.advance inBlock line)
        (if (e.toEdit.edit name).finish.2 then none else some (e.toEdit.edit name).call) rest).map
          (Revision.prepend [(e.toEdit.edit name).finish.1] 1) = _
      rw [hfinish, hcall]
      rfl

theorem revise_append (s : InlineState) (lines rest : List Text) :
    s.revise (lines ++ rest) = ((s.after lines).revise rest).map
      (.prepend ((s.trace lines).map TracedLine.text) (s.found lines)) := by
  induction lines generalizing s with
  | nil =>
    show s.revise rest = (s.revise rest).map (Revision.prepend [] 0)
    cases s.revise rest with
    | error e => rfl
    | ok r => simp [Except.map, Revision.prepend]
  | cons line lines ih =>
    rw [List.cons_append, revise_cons, ih (s.next line), after_cons, found_cons]
    cases ((s.next line).after lines).revise rest with
    | error e => rfl
    | ok r => simp [Except.map, Revision.prepend, trace, Nat.add_assoc]

/-- **The result of the pass.** It fails exactly if a call is open at the end; otherwise it writes
the text of the pieces and counts the calls found. -/
theorem revise_eq (s : InlineState) (lines : List Text) :
    s.revise lines =
      match (s.after lines).call.bind (·.progress.unterminated?) with
      | some e => .error e
      | none => .ok ⟨(s.trace lines).map TracedLine.text, s.found lines⟩ := by
  have hrun := revise_append s lines []
  rw [List.append_nil] at hrun
  rw [hrun, revise, inlineFrom.eq_def]
  cases (s.after lines).call.bind (·.progress.unterminated?) with
  | some e => rfl
  | none => simp [Except.map, Revision.prepend]

/-! ## When the pass succeeds -/

/-- What holds of the pass between two lines. -/
def Valid (s : InlineState) : Prop := ∀ call, s.call = some call → call.Valid

theorem valid_start? {s : InlineState} (hs : s.Valid) {line : Text} {e : TracedEdit}
    (h : s.start? line = some e) : e.call.Valid := by
  rcases start?_cases h with ⟨call, hcall, rfl⟩ | ⟨-, before, args, -, rfl⟩
  · exact hs call hcall
  · exact .condition s.number

theorem valid_next {s : InlineState} (hs : s.Valid) (line : Text) : (s.next line).Valid := by
  intro call hcall
  cases hstart : s.start? line with
  | none =>
    rw [call_next_of_start?_eq_none hstart] at hcall
    cases hcall
  | some e =>
    rw [call_next_of_start? hstart] at hcall
    split at hcall
    · cases hcall
    · cases hcall
      exact TracedEdit.valid_edit _ (valid_start? hs hstart)

theorem valid_after {s : InlineState} (hs : s.Valid) (lines : List Text) :
    (s.after lines).Valid := by
  induction lines generalizing s with
  | nil => exact hs
  | cons line rest ih => exact ih (valid_next hs line)

theorem revise_eq_ok_iff {s : InlineState} (hs : s.Valid) {lines : List Text} {r : Revision} :
    s.revise lines = .ok r ↔
      (s.after lines).call = none ∧
        r = ⟨(s.trace lines).map TracedLine.text, s.found lines⟩ := by
  rw [revise_eq]
  cases hcall : (s.after lines).call with
  | none =>
    constructor
    · intro h
      cases h
      exact ⟨rfl, rfl⟩
    · rintro ⟨-, rfl⟩
      rfl
  | some call =>
    -- an open call has come to its condition or its message, so there is an error to report
    obtain ⟨e, he⟩ := (valid_after hs lines call hcall).exists_unterminated
    rw [Option.bind_some, he]
    constructor
    · intro h
      cases h
    · rintro ⟨h, -⟩
      cases h

end InlineState

/-- What becomes of the lines of a file. -/
def inlineTrace (lines : List Text) : List TracedLine := InlineState.trace {} lines

theorem exists_traced_of_inlineTrace {lines : List Text} {i : Nat} {traced : TracedLine}
    (h : (inlineTrace lines)[i]? = some traced) :
    ∃ line, lines[i]? = some line ∧
      (InlineState.after {} (lines.take i)).traced line = traced := by
  rw [inlineTrace, InlineState.getElem?_trace] at h
  exact Option.map_eq_some_iff.1 h

/-- **What the inline style writes.** -/
theorem inlinePreconditions_eq_ok_iff {lines : List Text} {r : Revision} :
    inlinePreconditions lines = .ok r ↔
      (InlineState.after {} lines).call = none ∧
        r = ⟨(inlineTrace lines).map TracedLine.text, InlineState.found {} lines⟩ :=
  InlineState.revise_eq_ok_iff (s := {}) nofun

theorem exists_inlineTrace_of_getElem? {lines : List Text} {r : Revision}
    (h : inlinePreconditions lines = .ok r) {i : Nat} {line : Text}
    (hline : r.lines[i]? = some line) :
    ∃ traced, (inlineTrace lines)[i]? = some traced ∧ traced.text = line := by
  obtain ⟨-, rfl⟩ := inlinePreconditions_eq_ok_iff.1 h
  rw [List.getElem?_map] at hline
  exact Option.map_eq_some_iff.1 hline

theorem getElem?_of_inlineTrace {lines : List Text} {r : Revision}
    (h : inlinePreconditions lines = .ok r) {i : Nat} {traced : TracedLine}
    (htrace : (inlineTrace lines)[i]? = some traced) : r.lines[i]? = some traced.text := by
  obtain ⟨-, rfl⟩ := inlinePreconditions_eq_ok_iff.1 h
  show ((inlineTrace lines).map TracedLine.text)[i]? = _
  rw [List.getElem?_map, htrace]
  rfl

end ContractLint.Coverage
