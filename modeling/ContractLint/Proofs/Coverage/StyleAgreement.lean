import ContractLint.Proofs.Coverage.CallSites
import ContractLint.Proofs.Coverage.InlineTrace

/-!
# The two styles side by side

Both styles find calls in the same way, but they end them differently. The guard style ends a call
on the first line that holds `);`. The inline style first looks for the parts of the message, and
for `);` only behind the last part that it found. On a line with a string behind the end of a call
it may miss that end.

## The architecture

* **`Marker.search`** — what the inline style looks for, in order. `edit_eq_search` says that the
  edits of a line do nothing else with what is still to be read.
* **`Marker.search_append`** — looking line by line is looking through the lines joined to one text, so
  the end of a call is decided by that text alone (`call_after_lines_eq_none_iff`).
* **`AgreeFrom`** — the two passes from the same line on, with one lemma for each thing that can
  follow: a line without a call, a call that both styles end, one that only the guard style ends,
  and one that has no end.
-/

namespace ContractLint.Coverage

/-! ## What the inline style looks for -/

/-- The parts of a call that the inline style looks for, one behind the other. -/
inductive Marker where
  | location
  /-- The quotation mark that starts the message. -/
  | quote
  /-- The one that ends it, with a comma. -/
  | messageEnd
  deriving DecidableEq, Repr

/-- What is still to be read once a part is found. -/
def Marker.behind? : Marker → Text → Option Text
  | location, t => (splitLocation? t).map fun (_, after) => after
  | quote, t => (Text.cut ['"'] t).map fun (_, after) => after
  | messageEnd, t => (Text.cut Coverage.messageEnd t).map fun (_, after) => ',' :: after

/-- Looks for several parts, each behind the one before. Gives those that are not found, and what is
still to be read. -/
def Marker.search : List Marker → Text → List Marker × Text
  | [], t => ([], t)
  | m :: markers, t =>
    match m.behind? t with
    | some after => Marker.search markers after
    | none => (m :: markers, t)

/-- What an open call is still to be searched for. -/
def PendingInline.markers (call : PendingInline) : List Marker :=
  match call.progress with
  | .condition _ => [.location, .quote, .messageEnd]
  | .message _ =>
    if call.payloadOpened then []
    else if call.messageStarted then [.messageEnd]
    else [.quote, .messageEnd]
  | _ => []

namespace TracedEdit

variable (start : Nat) (fileId : Option Text) (written : List Piece) (t : Text)

theorem openPayload_eq_search {e : TracedEdit}
    (he : e = ⟨⟨.message start, true, false⟩, written, t⟩) :
    (e.openPayload.call.markers, e.openPayload.unread) = Marker.search [.messageEnd] t := by
  subst he
  simp only [openPayload, Marker.search, Marker.behind?, Bool.not_false, Bool.and_self, if_true]
  cases Text.cut messageEnd t <;> rfl

theorem startMessage_eq_search {e : TracedEdit}
    (he : e = ⟨⟨.message start, false, false⟩, written, t⟩) :
    ((e.startMessage fileId).openPayload.call.markers, (e.startMessage fileId).openPayload.unread) =
      Marker.search [.quote, .messageEnd] t := by
  subst he
  rw [Marker.search, Marker.behind?]
  simp only [startMessage, Bool.false_eq_true, if_false]
  cases Text.cut ['"'] t with
  | none => rfl
  | some parts => exact openPayload_eq_search start _ parts.2 rfl

/-- **An edit looks for the parts that are missing**, and nothing else happens to what is still to
be read. -/
theorem edit_eq_search {e : TracedEdit} (h : e.call.Valid) :
    ((e.edit fileId).call.markers, (e.edit fileId).unread) =
      Marker.search e.call.markers e.unread := by
  obtain ⟨⟨progress, started, opened⟩, written, t⟩ := e
  cases progress with
  | idle | assertion start => cases h.inCall
  | condition start =>
    obtain rfl : started = false := h.messageStarted_eq_false rfl
    obtain rfl : opened = false := h.payloadOpened_eq_false rfl
    show _ = Marker.search [.location, .quote, .messageEnd] t
    rw [Marker.search, Marker.behind?]
    simp only [edit, wrapLocation]
    cases splitLocation? t with
    | none => rfl
    | some parts => exact startMessage_eq_search start fileId _ parts.2 rfl
  | message start =>
    cases started with
    | false =>
      obtain rfl : opened = false := h.payloadOpened_eq_false rfl
      exact startMessage_eq_search start fileId written t rfl
    | true =>
      cases opened with
      | false => exact openPayload_eq_search start written t rfl
      | true => rfl

end TracedEdit

/-! ## Line by line, or all at once -/

theorem splitLocation?_append_of_none {t : Text} (h : splitLocation? t = none)
    (hclose : callClose.occursIn t = false) (rest : Text) :
    splitLocation? (t ++ '\n' :: rest) =
      (splitLocation? rest).map fun (before, after) => (t ++ '\n' :: before, after) := by
  have hclose : Text.cut callClose t = none := by
    rw [← Option.not_isSome_iff_eq_none]
    exact Bool.eq_false_iff.1 hclose
  have hlocation : Text.cut locationArgument t = none := by
    unfold splitLocation? at h
    rw [hclose] at h
    cases hcut : Text.cut locationArgument t with
    | none => rfl
    | some parts => rw [hcut] at h; cases h
  unfold splitLocation?
  rw [Text.cut_append_cons (by decide) (by decide), Text.cut_append_cons (by decide) (by decide),
    hclose, hlocation]
  simp only [Option.map_none, Option.none_or]
  cases Text.cut locationArgument rest with
  | none => cases Text.cut callClose rest <;> rfl
  | some parts =>
    cases Text.cut callClose rest with
    | none => rfl
    | some closed =>
      simp only [Option.map_some, List.length_append, List.length_cons]
      by_cases hlt : parts.1.length < closed.1.length
      · rw [if_pos hlt, if_pos (by omega)]
        rfl
      · rw [if_neg hlt, if_neg (by omega)]
        rfl

theorem Marker.behind?_append_of_none {m : Marker} {t : Text} (h : m.behind? t = none)
    (hclose : callClose.occursIn t = false) (rest : Text) :
    m.behind? (t ++ '\n' :: rest) = m.behind? rest := by
  cases m with
  | location =>
    rw [behind?, splitLocation?_append_of_none (Option.map_eq_none_iff.1 h) hclose, Option.map_map]
    rfl
  | quote =>
    rw [behind?, Text.cut_append_cons (by decide) (by decide), Option.map_eq_none_iff.1 h]
    cases hcut : Text.cut ['"'] rest <;> simp [behind?, hcut]
  | messageEnd =>
    rw [behind?, Text.cut_append_cons (by decide) (by decide), Option.map_eq_none_iff.1 h]
    cases hcut : Text.cut Coverage.messageEnd rest <;> simp [behind?, hcut]

theorem Marker.behind?_suffix {m : Marker} {t after : Text} (h : m.behind? t = some after) :
    after <:+ t := by
  cases m with
  | location =>
    obtain ⟨⟨before, _⟩, hsplit, rfl⟩ := Option.map_eq_some_iff.1 h
    exact ⟨_, (Text.cut_eq_some_append (cut_of_splitLocation hsplit).1).symm⟩
  | quote =>
    obtain ⟨⟨before, _⟩, hcut, rfl⟩ := Option.map_eq_some_iff.1 h
    exact ⟨_, (Text.cut_eq_some_append hcut).symm⟩
  | messageEnd =>
    obtain ⟨⟨before, _⟩, hcut, rfl⟩ := Option.map_eq_some_iff.1 h
    refine ⟨before ++ ['"'], ?_⟩
    rw [Text.cut_eq_some_append hcut, List.append_assoc, List.append_assoc]
    rfl

theorem occursIn_eq_false_of_suffix {needle t u : Text} (hsuffix : u <:+ t)
    (h : needle.occursIn t = false) : needle.occursIn u = false :=
  Text.occursIn_eq_false_iff.2 fun hin =>
    Text.occursIn_eq_false_iff.1 h (hin.trans hsuffix.isInfix)

theorem Marker.search_suffix (markers : List Marker) (t : Text) :
    (Marker.search markers t).2 <:+ t := by
  induction markers generalizing t with
  | nil => exact List.suffix_rfl
  | cons m markers ih =>
    rw [Marker.search]
    cases hfound : m.behind? t with
    | some after => exact (ih after).trans (Marker.behind?_suffix hfound)
    | none => exact List.suffix_rfl

theorem splitLocation?_append_of_some {t before after : Text}
    (h : splitLocation? t = some (before, after)) (rest : Text) :
    splitLocation? (t ++ '\n' :: rest) = some (before, after ++ '\n' :: rest) := by
  obtain ⟨hcut, hleft⟩ := cut_of_splitLocation h
  unfold splitLocation?
  rw [Text.cut_append_cons (by decide) (by decide), Text.cut_append_cons (by decide) (by decide),
    hcut]
  have hlen := congrArg List.length (Text.cut_eq_some_append hcut)
  simp only [List.length_append] at hlen
  simp only [Option.map_some, Option.some_or]
  cases hclose : Text.cut callClose t with
  | some closed =>
    obtain ⟨unclosed, behind⟩ := closed
    simp only [Option.map_some, Option.some_or, if_pos (hleft unclosed behind hclose)]
  | none =>
    cases Text.cut callClose rest with
    | none => rfl
    | some closed =>
      simp only [Option.map_some, Option.map_none, Option.none_or]
      rw [if_pos]
      simp only [List.length_append, List.length_cons]
      omega

theorem Marker.behind?_append_of_some {m : Marker} {t after : Text}
    (h : m.behind? t = some after) (rest : Text) :
    m.behind? (t ++ '\n' :: rest) = some (after ++ '\n' :: rest) := by
  cases m with
  | location =>
    obtain ⟨⟨before, _⟩, hsplit, rfl⟩ := Option.map_eq_some_iff.1 h
    rw [behind?, splitLocation?_append_of_some hsplit]
    rfl
  | quote =>
    obtain ⟨⟨before, _⟩, hcut, rfl⟩ := Option.map_eq_some_iff.1 h
    rw [behind?, Text.cut_append_cons (by decide) (by decide), hcut]
    rfl
  | messageEnd =>
    obtain ⟨⟨before, _⟩, hcut, rfl⟩ := Option.map_eq_some_iff.1 h
    rw [behind?, Text.cut_append_cons (by decide) (by decide), hcut]
    rfl

/-- **A line break does not stop the search.** Where a text leaves a call open, looking through it
and then through the rest finds what looking through both finds. -/
theorem Marker.search_append (markers : List Marker) {t : Text}
    (h : callClose.occursIn (Marker.search markers t).2 = false) (rest : Text) :
    (Marker.search markers (t ++ '\n' :: rest)).1 =
        (Marker.search (Marker.search markers t).1 rest).1 ∧
      callClose.occursIn (Marker.search markers (t ++ '\n' :: rest)).2 =
        callClose.occursIn (Marker.search (Marker.search markers t).1 rest).2 := by
  have hrest {t : Text} (h : callClose.occursIn t = false) :
      callClose.occursIn (t ++ '\n' :: rest) = callClose.occursIn rest := by
    rw [Text.occursIn_append_cons (by decide) (by decide), h, Bool.false_or]
  induction markers generalizing t with
  | nil => exact ⟨rfl, hrest h⟩
  | cons m markers ih =>
    cases hfound : m.behind? t with
    | some after =>
      simp only [Marker.search, hfound] at h
      simp only [Marker.search, Marker.behind?_append_of_some hfound, hfound]
      exact ih h
    | none =>
      -- nothing more is found in `t`, so all of it is still to be read, and it holds no `);`
      simp only [Marker.search, hfound] at h
      simp only [Marker.search, Marker.behind?_append_of_none hfound h, hfound]
      cases m.behind? rest with
      | some after => exact ⟨rfl, rfl⟩
      | none => exact ⟨rfl, hrest h⟩

/-- What the inline style searches for the end of a call, in all its lines joined. -/
def behindMessage (args : Text) : Text := (Marker.search [.location, .quote, .messageEnd] args).2

/-- Whether the inline style finds the end of a call on the line where the guard style does. -/
def CallSite.endsBehindMessage (c : CallSite) : Bool :=
  callClose.occursIn (behindMessage (['\n'].intercalate (c.args :: c.more)))

/-! ## The end of a call -/

namespace InlineState

variable {s : InlineState} {line : Text} {e : TracedEdit} {more : List Text}

theorem start?_of_call {call : PendingInline} (hcall : s.call = some call) (line : Text) :
    s.start? line = some { call, unread := line } := by
  rw [start?, hcall]

section Valid

variable (hs : s.Valid) (hstart : s.start? line = some e)
include hs hstart

theorem call_next_eq_none_iff :
    (s.next line).call = none ↔
      callClose.occursIn (Marker.search e.call.markers e.unread).2 = true := by
  have hsearch := TracedEdit.edit_eq_search (s.identifier line) (valid_start? hs hstart)
  rw [← hsearch, call_next_of_start? hstart, TracedEdit.finish_snd]
  simp

/-- Behind a line that does not end it, a call is searched for what was not found. -/
theorem exists_call_next (hopen : callClose.occursIn e.unread = false) :
    ∃ call, (s.next line).call = some call ∧
      call.markers = (Marker.search e.call.markers e.unread).1 := by
  have hsearch := TracedEdit.edit_eq_search (s.identifier line) (valid_start? hs hstart)
  have hsuffix := (TracedEdit.reads_edit (s.identifier line) e).unread_suffix
  refine ⟨(e.edit (s.identifier line)).call, ?_, congrArg Prod.fst hsearch⟩
  rw [call_next_of_start? hstart, TracedEdit.finish_snd, occursIn_eq_false_of_suffix hsuffix hopen]
  rfl

/-- **The end of a call, for the inline style**: on the line that ends it for the guard style, if
`);` stands there behind all that the inline style finds. -/
theorem call_after_eq_none_iff (hends : endsAt e.unread more = true) :
    (s.after (line :: more)).call = none ↔
      callClose.occursIn
        (Marker.search e.call.markers (['\n'].intercalate (e.unread :: more))).2 = true := by
  induction more generalizing s line e with
  | nil =>
    rw [List.intercalate_singleton]
    exact call_next_eq_none_iff hs hstart
  | cons next more ih =>
    obtain ⟨hopen, hends⟩ : callClose.occursIn e.unread = false ∧ endsAt next more = true := by
      simpa [endsAt] using hends
    obtain ⟨call, hcall, hmarkers⟩ := exists_call_next hs hstart hopen
    have hnext := ih (valid_next hs line) (start?_of_call hcall next) hends
    have hunread := occursIn_eq_false_of_suffix (Marker.search_suffix e.call.markers e.unread) hopen
    rw [after_cons, hnext, List.intercalate_cons_cons, List.append_assoc, List.singleton_append,
      (Marker.search_append _ hunread _).2, hmarkers]

/-- A call that no line ends is open at the end. -/
theorem call_after_ne_none (hopen : callClose.occursIn e.unread = false)
    (hmore : ∀ l ∈ more, callClose.occursIn l = false) : (s.after (line :: more)).call ≠ none := by
  induction more generalizing s line e with
  | nil =>
    obtain ⟨call, hcall, -⟩ := exists_call_next hs hstart hopen
    show (s.next line).call ≠ none
    rw [hcall]
    exact Option.some_ne_none call
  | cons next more ih =>
    obtain ⟨call, hcall, -⟩ := exists_call_next hs hstart hopen
    exact ih (valid_next hs line) (start?_of_call hcall next) (hmore next (by simp))
      fun l hl => hmore l (by simp [hl])

/-- The lines of a call hold one call, if it is not yet open. -/
theorem found_lines (hends : endsAt e.unread more = true) :
    s.found (line :: more) = if s.call.isNone then 1 else 0 := by
  induction more generalizing s line e with
  | nil =>
    rw [found_cons, traced_of_start? hstart]
    rfl
  | cons next more ih =>
    obtain ⟨hopen, hends⟩ : callClose.occursIn e.unread = false ∧ endsAt next more = true := by
      simpa [endsAt] using hends
    obtain ⟨call, hcall, -⟩ := exists_call_next hs hstart hopen
    rw [found_cons, traced_of_start? hstart,
      ih (valid_next hs line) (start?_of_call hcall next) hends, hcall]
    rfl

end Valid

end InlineState

/-! ## The two passes side by side -/

/-- Whether two passes both fail, or both succeed with the same number of changes. -/
def SameOutcome (a b : Except Unterminated Revision) : Prop :=
  ((∃ r, a = .ok r) ↔ ∃ r, b = .ok r) ∧ ∀ r r', a = .ok r → b = .ok r' → r.changed = r'.changed

theorem sameOutcome_error (e e' : Unterminated) : SameOutcome (.error e) (.error e') :=
  ⟨by simp, nofun⟩

theorem sameOutcome_prepend {a b : Except Unterminated Revision} (lines lines' : List Text)
    (changed : Nat) :
    SameOutcome (a.map (.prepend lines changed)) (b.map (.prepend lines' changed)) ↔
      SameOutcome a b := by
  cases a <;> cases b <;> simp [SameOutcome, Except.map, Revision.prepend]

/-- Whether the styles agree on lines that come behind others, where the inline style is in state
`s`. -/
def AgreeFrom (s : InlineState) (written : Nat) (previous : Option Text) (lines : List Text) :
    Prop :=
  SameOutcome (guardFrom written previous s.inBlock none lines) (s.revise lines)

section Agree

variable {s : InlineState} (hs : s.call = none) (written : Nat) (previous : Option Text)
include hs

theorem InlineState.valid_of_call_eq_none : s.Valid := by
  intro call hcall
  rw [hs] at hcall
  cases hcall

theorem InlineState.start?_of_findCall {line before args : Text}
    (hfound : findCall s.inBlock line = some (before, args)) :
    s.start? line =
      some ⟨{ progress := .condition s.number }, [.outside before, .name], args⟩ := by
  rw [start?, hs]
  show (findCall s.inBlock line).map _ = _
  rw [hfound]
  rfl

theorem agreeFrom_nil : AgreeFrom s written previous [] := by
  unfold AgreeFrom
  rw [InlineState.revise, hs]
  refine ⟨by simp [guardFrom, inlineFrom.eq_def], fun r r' h h' => ?_⟩
  cases h
  cases h'
  rfl

section Plain

variable {line : Text} (hnone : findCall s.inBlock line = none)
include hnone

theorem InlineState.start?_eq_none_of_findCall : s.start? line = none := by
  rw [start?, hs]
  show (findCall s.inBlock line).map _ = none
  rw [hnone]
  rfl

theorem agreeFrom_plain (rest : List Text) :
    AgreeFrom s written previous (line :: rest) ↔
      AgreeFrom (s.next line) (written + 1) (some line) rest := by
  have htraced := InlineState.traced_of_start?_eq_none
    (InlineState.start?_eq_none_of_findCall hs hnone)
  unfold AgreeFrom
  rw [guardFrom_plain _ _ _ hnone, InlineState.revise_cons, htraced]
  exact sameOutcome_prepend _ _ _

theorem forall_agreeFrom_plain_iff (rest : List Text) :
    (∀ n, AgreeFrom s written previous ((line :: rest).take n)) ↔
      ∀ n, AgreeFrom (s.next line) (written + 1) (some line) (rest.take n) := by
  constructor
  · intro h n
    exact (agreeFrom_plain hs written previous hnone _).1 (h (n + 1))
  · intro h n
    cases n with
    | zero => exact agreeFrom_nil hs written previous
    | succ n => exact (agreeFrom_plain hs written previous hnone _).2 (h n)

end Plain

/-- A call that no line ends is refused by both styles. -/
theorem agreeFrom_open {line before args : Text} {rest : List Text}
    (hfound : findCall s.inBlock line = some (before, args))
    (hargs : callClose.occursIn args = false)
    (hrest : ∀ l ∈ rest, callClose.occursIn l = false) :
    AgreeFrom s written previous (line :: rest) := by
  have hopen : (PendingGuard.opening written previous line).progress.inCall = true := rfl
  have he := guardCall_error hargs hrest hopen rfl written s.inBlock line
  have hvalid := InlineState.valid_of_call_eq_none hs
  have hcall := InlineState.call_after_ne_none hvalid (InlineState.start?_of_findCall hs hfound)
    hargs hrest
  unfold AgreeFrom
  rw [guardFrom_found _ _ _ hfound, he]
  cases hinline : s.revise (line :: rest) with
  | error e => exact sameOutcome_error _ e
  | ok r => exact absurd ((InlineState.revise_eq_ok_iff hvalid).1 hinline).1 hcall

section Call

variable {c : Call} {before : Text} (hfound : findCall s.inBlock c.opening = some (before, c.args))
include hfound

theorem call_after_lines_eq_none_iff :
    (s.after c.lines).call = none ↔
      callClose.occursIn (behindMessage (['\n'].intercalate (c.args :: c.more))) = true :=
  InlineState.call_after_eq_none_iff (InlineState.valid_of_call_eq_none hs)
    (InlineState.start?_of_findCall hs hfound) c.ends

variable (hprevious : previous.any isGuard = false)
include hprevious

theorem agreeFrom_call (rest : List Text) :
    AgreeFrom s written previous (c.lines ++ rest) ↔
      AgreeFrom (s.after c.lines) (written + (c.guards previous ++ c.lines).length)
        (some c.lastLine) rest := by
  have hcount : s.found c.lines = (c.guards previous).length := by
    rw [Call.lines, InlineState.found_lines (InlineState.valid_of_call_eq_none hs)
      (InlineState.start?_of_findCall hs hfound) c.ends, hs, Call.guards, hprevious]
    rfl
  unfold AgreeFrom
  rw [guardFrom_call _ _ _ hfound, InlineState.revise_append, hcount, InlineState.inBlock_after]
  exact sameOutcome_prepend _ _ _

/-- On a call alone the styles agree only if both end it. -/
theorem call_after_lines_of_agreeFrom (h : AgreeFrom s written previous c.lines) :
    (s.after c.lines).call = none := by
  rw [← List.append_nil c.lines, agreeFrom_call hs written previous hfound hprevious] at h
  obtain ⟨r, hr⟩ := h.1.1 ⟨_, rfl⟩
  have hvalid := InlineState.valid_after (InlineState.valid_of_call_eq_none hs) c.lines
  exact ((InlineState.revise_eq_ok_iff hvalid).1 hr).1

theorem forall_agreeFrom_call_iff (rest : List Text) :
    (∀ n, AgreeFrom s written previous ((c.lines ++ rest).take n)) ↔
      (s.after c.lines).call = none ∧
        ∀ n, AgreeFrom (s.after c.lines) (written + (c.guards previous ++ c.lines).length)
          (some c.lastLine) (rest.take n) := by
  constructor
  · intro h
    constructor
    · apply call_after_lines_of_agreeFrom hs written previous hfound hprevious
      have hcall := h c.lines.length
      rwa [List.take_left] at hcall
    · intro n
      have hcall := h (c.lines.length + n)
      rw [List.take_length_add_append] at hcall
      exact (agreeFrom_call hs written previous hfound hprevious _).1 hcall
  · rintro ⟨-, hrest⟩ n
    by_cases hn : n < c.lines.length
    · -- a part of the call has no end, so both styles refuse it
      rw [List.take_append_of_le_length (Nat.le_of_lt hn), Call.lines]
      cases n with
      | zero => exact agreeFrom_nil hs written previous
      | succ k =>
        rw [Call.lines, List.length_cons] at hn
        obtain ⟨hargs, hmore⟩ := occursIn_eq_false_of_endsAt c.ends (Nat.lt_of_succ_lt_succ hn)
        exact agreeFrom_open hs written previous hfound hargs hmore
    · obtain ⟨k, rfl⟩ := Nat.exists_eq_add_of_le (Nat.le_of_not_lt hn)
      rw [List.take_length_add_append, agreeFrom_call hs written previous hfound hprevious]
      exact hrest k

end Call

end Agree

/-! ## Whole files -/

/-- A call without end reaches to the end of the file, which does not end it. -/
theorem extent_of_open {args : Text} {rest : List Text} (hargs : callClose.occursIn args = false)
    (hrest : ∀ l ∈ rest, callClose.occursIn l = false) :
    extent args rest = rest ∧ endsAt args rest = false := by
  induction rest generalizing args with
  | nil => exact ⟨rfl, hargs⟩
  | cons line rest ih =>
    obtain ⟨hextent, hends⟩ := ih (hrest line (by simp)) fun l hl => hrest l (by simp [hl])
    constructor
    · rw [extent, hargs, hextent]
      rfl
    · rw [endsAt, hends, Bool.and_false]

theorem forall_agreeFrom_iff {lines : List Text} (hguards : ∀ line ∈ lines, isGuard line = false)
    {s : InlineState} (hs : s.call = none) (written i : Nat) (previous : Option Text)
    (hprevious : previous.any isGuard = false) :
    (∀ n, AgreeFrom s written previous (lines.take n)) ↔
      ∀ c ∈ callSitesFrom i previous s.inBlock lines,
        c.ended = true → c.endsBehindMessage = true := by
  -- a call takes several lines at once, so the induction is on the length
  induction hn : lines.length using Nat.strongRecOn
    generalizing lines s written i previous with
  | _ n ih =>
  cases lines with
  | nil =>
    rw [callSitesFrom]
    refine iff_of_true (fun n => ?_) fun c hc => absurd hc List.not_mem_nil
    rw [List.take_nil]
    exact agreeFrom_nil hs written previous
  | cons line rest =>
    cases hfound : findCall s.inBlock line with
    | none =>
      have hcall := InlineState.call_next_of_start?_eq_none
        (InlineState.start?_eq_none_of_findCall hs hfound)
      rw [callSitesFrom_plain _ _ _ hfound,
        forall_agreeFrom_plain_iff hs written previous hfound rest]
      exact ih rest.length (by simp [← hn]) (fun l hl => hguards l (by simp [hl])) hcall
        (written + 1) (i + 1) (some line) (hguards line (by simp)) rfl
    | some found =>
      obtain ⟨before, args⟩ := found
      rcases exists_endsAt_or args rest with ⟨more, after, rfl, hends⟩ | ⟨hargs, hopen⟩
      · let c : Call := ⟨line, args, more, hends⟩
        have hlast : isGuard c.lastLine = false := by
          have hmem : c.lastLine ∈ c.lines := List.getLast_mem _
          exact hguards _ (List.mem_append_left after hmem)
        have hlt : after.length < n := by
          rw [← hn, List.length_cons, List.length_append]
          omega
        have hafter (hcall : (s.after c.lines).call = none) :=
          ih after.length hlt (fun l hl => hguards l (by simp [hl])) hcall
            (written + (c.guards previous ++ c.lines).length) (i + c.lines.length)
            (some c.lastLine) hlast rfl
        have hsites : callSitesFrom i previous s.inBlock (line :: (more ++ after)) =
            c.site i previous :: callSitesFrom (i + c.lines.length) (some c.lastLine)
              (s.after c.lines).inBlock after := by
          rw [callSitesFrom_found _ _ _ hfound, extent_append hends, List.drop_left,
            InlineState.inBlock_after]
          show _ :: callSitesFrom _ c.lines.getLast? _ _ = _
          rw [c.getLast?_lines]
          rfl
        rw [hsites, List.forall_mem_cons]
        show (∀ n, AgreeFrom s written previous ((c.lines ++ after).take n)) ↔ _
        rw [forall_agreeFrom_call_iff hs written previous hfound hprevious after,
          and_congr_right hafter, call_after_lines_eq_none_iff hs hfound]
        exact and_congr_left' ⟨fun h _ => h, fun h => h hends⟩
      · obtain ⟨hextent, hended⟩ := extent_of_open hargs hopen
        rw [callSitesFrom_found _ _ _ hfound, hextent, List.drop_length, callSitesFrom]
        refine iff_of_true (fun n => ?_) fun c hc hcends => ?_
        · cases n with
          | zero => exact agreeFrom_nil hs written previous
          | succ n =>
            exact agreeFrom_open hs written previous hfound hargs fun l hl =>
              hopen l (List.mem_of_mem_take hl)
        · obtain rfl := List.mem_singleton.1 hc
          rw [CallSite.ended, hended] at hcends
          cases hcends

/-- **When the two styles see the same calls.** In a file without guards the styles agree, on the
file and on all that it starts with, exactly if in every call that has an end `);` stands behind all
that the inline style looks for before it. -/
theorem styles_agree_iff {lines : List Text} (hguards : ∀ line ∈ lines, isGuard line = false) :
    (∀ n, SameOutcome (insertGuards (lines.take n)) (inlinePreconditions (lines.take n))) ↔
      ∀ c ∈ callSites lines, c.ended = true → c.endsBehindMessage = true :=
  forall_agreeFrom_iff hguards (s := {}) rfl 0 0 none rfl

/-- Without a location argument the string behind the second call does no harm. -/
theorem styles_agree_without_location :
    SameOutcome
      (insertGuards ["Require.that(a,", "  FILE, \"m\", b);", "Require.that(c); f(\"x\");"])
      (inlinePreconditions
        ["Require.that(a,", "  FILE, \"m\", b);", "Require.that(c); f(\"x\");"]) := by
  set lines : List Text := ["Require.that(a,", "  FILE, \"m\", b);", "Require.that(c); f(\"x\");"]
  have hguards : ∀ line ∈ lines, isGuard line = false := by decide +kernel
  exact (styles_agree_iff hguards).2 (by decide +kernel) lines.length

/-- A string behind the end of a call keeps the inline style from seeing that end. Then it refuses
the file, or takes the next call for a part of this one. -/
theorem string_behind_end_missed :
    isGuard "Require.that(a, FILE, m); s = \"x\";" = false ∧
      ¬SameOutcome (insertGuards ["Require.that(a, FILE, m); s = \"x\";"])
          (inlinePreconditions ["Require.that(a, FILE, m); s = \"x\";"]) ∧
        isGuard "Require.that(b);" = false ∧
          ¬SameOutcome
            (insertGuards ["Require.that(a, FILE, m); s = \"x\";", "Require.that(b);"])
            (inlinePreconditions ["Require.that(a, FILE, m); s = \"x\";", "Require.that(b);"]) := by
  refine ⟨by decide +kernel, fun h => ?_, by decide +kernel, fun h => ?_⟩
  · have hguard : insertGuards ["Require.that(a, FILE, m); s = \"x\";"] =
        .ok ⟨["if (a) \x7b /* FOR COVERAGE TESTING */ \x7d",
          "Require.that(a, FILE, m); s = \"x\";"], 1⟩ := by decide +kernel
    have hinline : inlinePreconditions ["Require.that(a, FILE, m); s = \"x\";"] =
        .error ⟨.precondition, 1⟩ := by decide +kernel
    obtain ⟨r, hr⟩ := h.1.1 ⟨_, hguard⟩
    rw [hinline] at hr
    cases hr
  · have hguard : insertGuards ["Require.that(a, FILE, m); s = \"x\";", "Require.that(b);"] =
        .ok ⟨["if (a) \x7b /* FOR COVERAGE TESTING */ \x7d",
          "Require.that(a, FILE, m); s = \"x\";", "if (b) \x7b /* FOR COVERAGE TESTING */ \x7d",
          "Require.that(b);"], 2⟩ := by decide +kernel
    have hinline :
        inlinePreconditions ["Require.that(a, FILE, m); s = \"x\";", "Require.that(b);"] =
          .ok ⟨["require(a, /*FILE,*/ m); s = \"x\";", "Require.that(b);"], 1⟩ := by decide +kernel
    exact absurd (h.2 _ _ hguard hinline) (by decide)

end ContractLint.Coverage
