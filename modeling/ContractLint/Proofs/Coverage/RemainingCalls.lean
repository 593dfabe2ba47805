import ContractLint.Proofs.Coverage.InlineComments
import Mathlib.Data.List.Chain
import Mathlib.Data.List.Infix

/-!
# Calls that the inline style leaves behind

The inline style looks for one call on each line. A second one, or one inside the arguments of
another, stays as it is; whether it is still code depends on where it ends up.

## The architecture

* **`Piece.Seam`** — no call stands across the border of two pieces. The texts that the inline style
  puts in, and the places where it cuts, leave only such borders (`isChain_traced`).
* **`exists_piece_of_call`** — hence every call on a revised line stands in one of its pieces.
* **`no_call_left_iff`** — when every call in the result is inside a comment.
-/

namespace ContractLint.Coverage

/-! ## Borders of pieces -/

namespace Piece

/-- No call stands across the border of two pieces, whatever follows them. -/
def Seam (p q : Piece) : Prop :=
  ∀ l r rest, l ++ r = preconditionCall → l ≠ [] → r ≠ [] → l <:+ p.text → ¬r <+: q.text ++ rest

/-- A call that goes on behind a piece does not have the last character of that piece. -/
theorem seam_of_last {p : Piece} {t : Text} {c : Char} (hp : p.text = t ++ [c])
    (hc : c ∉ preconditionCall.dropLast) (q : Piece) : Seam p q := by
  intro l r rest hcall hl hr hsuffix
  obtain ⟨l, d, rfl⟩ := (List.eq_nil_or_concat' l).resolve_left hl
  obtain ⟨r, x, rfl⟩ := (List.eq_nil_or_concat' r).resolve_left hr
  obtain ⟨s, hs⟩ := hsuffix
  rw [hp, ← List.append_assoc] at hs
  obtain ⟨-, hd⟩ := List.append_inj' hs rfl
  obtain rfl : d = c := by simpa using hd
  rw [← hcall, ← List.append_assoc, List.dropLast_concat] at hc
  simp at hc

/-- The pieces with a text of their own. -/
def fixed : List Piece := [name, opener, location, closer, closing]

/-- No call goes on with the text of a fixed piece. -/
theorem seam_of_fixed (p : Piece) {q : Piece} (hq : q ∈ fixed) : Seam p q := by
  have hwords : ∀ q ∈ fixed, ∀ r ∈ preconditionCall.tails, r ≠ [] → r ≠ preconditionCall →
      ¬r <+: q.text ∧ ¬q.text <+: r := by decide
  intro l r rest hcall hl hr _ hprefix
  have htail : r ∈ preconditionCall.tails := (List.mem_tails _ _).2 ⟨l, hcall⟩
  have hproper : r ≠ preconditionCall := by
    rintro rfl
    exact hl (List.append_left_eq_self.1 hcall)
  obtain ⟨hword, hword'⟩ := hwords q hq r htail hr hproper
  rcases List.prefix_or_prefix_of_prefix hprefix (List.prefix_append q.text rest) with h | h
  · exact hword h
  · exact hword' h

/-- Pieces that no call stands across the end of. -/
def Sealed (pieces : List Piece) : Prop :=
  ∀ rest : List Piece, rest.IsChain Seam → (pieces ++ rest).IsChain Seam

theorem sealed_nil : Sealed [] := fun _ h => h

theorem Sealed.append {pieces more : List Piece} (h : Sealed pieces) (hmore : Sealed more) :
    Sealed (pieces ++ more) := by
  intro rest hrest
  rw [List.append_assoc]
  exact h _ (hmore _ hrest)

theorem Sealed.cons_of_last {p : Piece} {pieces : List Piece} (h : Sealed pieces) {t : Text}
    {c : Char} (hp : p.text = t ++ [c]) (hc : c ∉ preconditionCall.dropLast) :
    Sealed (p :: pieces) := by
  intro rest hrest
  rw [List.cons_append, List.isChain_cons]
  exact ⟨fun q _ => seam_of_last hp hc q, h rest hrest⟩

theorem Sealed.cons_of_fixed {q : Piece} {pieces : List Piece} (h : Sealed (q :: pieces))
    (p : Piece) (hq : q ∈ fixed) : Sealed (p :: q :: pieces) := by
  intro rest hrest
  exact List.isChain_cons_cons.2 ⟨seam_of_fixed p hq, h rest hrest⟩

/-- Fixed pieces end with characters that no call goes on behind. -/
theorem Sealed.cons_fixed {p : Piece} {pieces : List Piece} (h : Sealed pieces) (hp : p ∈ fixed) :
    Sealed (p :: pieces) := by
  have hne : ∀ p ∈ fixed, p.text ≠ [] := by decide
  have hlasts : ∀ p ∈ fixed, p.text.getLast?.all (· ∉ preconditionCall.dropLast) = true := by
    decide
  have hlast := hlasts p hp
  rw [List.getLast?_eq_some_getLast (hne p hp), Option.all_some, decide_eq_true_iff] at hlast
  exact h.cons_of_last (List.dropLast_append_getLast (hne p hp)).symm hlast

end Piece

/-! ## Borders on a revised line -/

namespace TracedEdit

open Piece

variable {e : TracedEdit}

theorem sealed_wrapLocation (h : Sealed e.written) : Sealed e.wrapLocation.written := by
  rcases e.wrapLocation_cases with hsame | ⟨start, before, after, -, -, hwrap⟩
  · rwa [hsame]
  · rw [hwrap]
    have hcomment : Sealed [.opener, .location, .closer] :=
      ((sealed_nil.cons_fixed (by decide)).cons_fixed (by decide)).cons_fixed (by decide)
    exact h.append (hcomment.cons_of_fixed _ (by decide))

theorem sealed_labels (fileId : Option Text) : Sealed (labels fileId) := by
  cases fileId with
  | none => exact sealed_nil
  | some name =>
    have htext : (Piece.label (name ++ ": ")).text = name ++ [':'] ++ [' '] := by
      rw [List.append_assoc]
      rfl
    exact sealed_nil.cons_of_last htext (by decide)

theorem sealed_startMessage (fileId : Option Text) (h : Sealed e.written) :
    Sealed (e.startMessage fileId).written := by
  rcases e.startMessage_cases fileId with hsame | ⟨start, before, after, -, -, -, hstart⟩
  · rwa [hsame]
  · rw [hstart]
    exact h.append ((sealed_labels fileId).cons_of_last rfl (by decide))

theorem sealed_openPayload (h : Sealed e.written) : Sealed e.openPayload.written := by
  rcases e.openPayload_cases with hsame | ⟨before, after, -, -, -, hopen⟩
  · rwa [hsame]
  · rw [hopen]
    exact h.append ((sealed_nil.cons_fixed (by decide)).cons_of_last rfl (by decide))

theorem sealed_edit (fileId : Option Text) (h : Sealed e.written) :
    Sealed (e.edit fileId).written :=
  sealed_openPayload (sealed_startMessage fileId (sealed_wrapLocation h))

theorem isChain_finish (h : Sealed e.written) : e.finish.1.IsChain Seam := by
  unfold finish
  split
  · next before after hcut =>
    have hend : Sealed [.closing] := sealed_nil.cons_fixed (by decide)
    rw [List.append_assoc]
    apply h
    generalize remaining e.call before = p
    unfold closers
    cases e.call.payloadOpened with
    | true =>
      have hclose : Sealed [.closer, .closing] := hend.cons_fixed (by decide)
      exact hclose.cons_of_fixed p (by decide) [.outside after] (List.isChain_singleton _)
    | false => exact hend.cons_of_fixed p (by decide) [.outside after] (List.isChain_singleton _)
  · exact h _ (List.isChain_singleton _)

end TracedEdit

theorem InlineState.isChain_traced {s : InlineState} {line : Text} {opens : Bool}
    {pieces : List Piece} (h : s.traced line = .call opens pieces) :
    pieces.IsChain Piece.Seam := by
  obtain ⟨e, hstart, -, rfl⟩ := exists_start?_of_traced h
  apply TracedEdit.isChain_finish
  apply TracedEdit.sealed_edit
  rcases start?_cases hstart with ⟨call, -, rfl⟩ | ⟨-, before, args, -, rfl⟩
  · exact Piece.sealed_nil
  · have hname : Piece.Sealed [.name] := Piece.sealed_nil.cons_fixed (by decide)
    exact hname.cons_of_fixed _ (by decide)

/-- **A call on a revised line stands in one of its pieces.** -/
theorem exists_piece_of_call {pieces : List Piece} (h : pieces.IsChain Piece.Seam)
    {before after : Text} (hcall : Piece.textOf pieces = before ++ (preconditionCall ++ after)) :
    ∃ front p back t u, pieces = front ++ p :: back ∧ p.text = t ++ (preconditionCall ++ u) ∧
      before = Piece.textOf front ++ t := by
  induction pieces generalizing before with
  | nil =>
    obtain ⟨-, hempty⟩ := List.append_eq_nil_iff.1 hcall.symm
    exact absurd (List.append_eq_nil_iff.1 hempty).1 (by decide)
  | cons p rest ih =>
    have hrest (before : Text) (hcall : Piece.textOf rest = before ++ (preconditionCall ++ after)) :
        ∃ front q back t u, p :: rest = front ++ q :: back ∧
          q.text = t ++ (preconditionCall ++ u) ∧ p.text ++ before = Piece.textOf front ++ t := by
      obtain ⟨front, q, back, t, u, rfl, htext, rfl⟩ := ih h.tail hcall
      exact ⟨p :: front, q, back, t, u, rfl, htext, by simp⟩
    rw [Piece.textOf_cons, List.append_eq_append_iff] at hcall
    rcases hcall with ⟨t, rfl, hcall⟩ | ⟨c, hp, hcall⟩
    · exact hrest t hcall
    · -- the call starts in this piece, or right behind it
      rw [List.append_eq_append_iff] at hcall
      rcases hcall with ⟨u, rfl, -⟩ | ⟨r, hsplit, hcall⟩
      · exact ⟨[], p, rest, before, u, rfl, hp, rfl⟩
      · by_cases hc : c = []
        · subst hc
          rw [List.append_nil] at hp
          rw [List.nil_append] at hsplit
          rw [← hp]
          simpa using hrest [] (by rw [hsplit]; exact hcall)
        by_cases hr : r = []
        · subst hr
          rw [List.append_nil] at hsplit
          exact ⟨[], p, rest, before, [], rfl, by rw [hp, hsplit, List.append_nil], rfl⟩
        cases rest with
        | nil =>
          exact absurd (List.append_eq_nil_iff.1 hcall.symm).1 hr
        | cons q rest =>
          have hseam := (List.isChain_cons_cons.1 h).1
          refine absurd ?_ (hseam c r (Piece.textOf rest) hsplit.symm hc hr ⟨before, hp.symm⟩)
          exact ⟨after, hcall.symm⟩

/-! ## What is left in a file -/

/-- Whether every call on a line is inside a comment. -/
def CallsHidden (inBlock : Bool) (line : Text) : Prop :=
  ∀ before after, line = before ++ (preconditionCall ++ after) →
    Comment.hidesAt? inBlock line (Text.byteSize before) = some true

instance (inBlock : Bool) (line : Text) : Decidable (CallsHidden inBlock line) :=
  decidable_of_iff (∀ before ∈ line.inits, before ++ preconditionCall <+: line →
      Comment.hidesAt? inBlock line (Text.byteSize before) = some true)
    ⟨fun h before after hline => h before ((List.mem_inits _ _).2 ⟨_, hline.symm⟩)
        ⟨after, by rw [hline, List.append_assoc]⟩,
      fun h before _ ⟨after, hline⟩ => h before after (by rw [← hline, List.append_assoc])⟩

/-- Delimiters hold no call. -/
theorem Piece.not_call_of_hidden? {p : Piece} (h : p.hidden? = none) :
    ¬preconditionCall <:+: p.text := by
  cases p with
  | opener | closer => exact Text.occursIn_eq_false_iff.1 (by decide)
  | outside | name | argument | location | label | payload | closing => cases h

section File

variable {lines : List Text} (hfree : CallsEditable lines) {r : Revision}
  (h : inlinePreconditions lines = .ok r) {i : Nat}
include hfree h

theorem callsHidden_plain_iff {line : Text}
    (htrace : (inlineTrace lines)[i]? = some (.plain line)) :
    CallsHidden (Comment.advanceAll false (r.lines.take i)) line ↔
      CallsHidden (Comment.advanceAll false (lines.take i)) line := by
  have houtside : ¬ContinuesCall lines i := by
    rintro ⟨pieces, hcall⟩
    rw [htrace] at hcall
    cases hcall
  rw [advanceAll_of_not_continuesCall hfree h houtside]

theorem callsHidden_call_iff {opens : Bool} {pieces : List Piece}
    (htrace : (inlineTrace lines)[i]? = some (.call opens pieces)) :
    CallsHidden (Comment.advanceAll false (r.lines.take i)) (Piece.textOf pieces) ↔
      ∀ p ∈ pieces, preconditionCall <:+: p.text → p.hidden? = some true := by
  constructor
  · intro hhidden p hp hin
    obtain ⟨front, back, hsplit⟩ := List.append_of_mem hp
    obtain ⟨t, u, htext⟩ := hin
    have hplace := hhidden (Piece.textOf front ++ t) (u ++ Piece.textOf back)
      (by simp [hsplit, ← htext])
    cases hkind : p.hidden? with
    | none => exact absurd ⟨t, u, htext⟩ (Piece.not_call_of_hidden? hkind)
    | some hidden =>
      -- the place is what its piece says, so the piece is no live one
      rw [List.append_assoc] at htext
      rw [hidesAt?_of_inlineTrace hfree h htrace hsplit htext.symm hkind] at hplace
      exact hplace
  · intro hpieces before after hcall
    obtain ⟨line, -, htraced⟩ := exists_traced_of_inlineTrace htrace
    obtain ⟨front, p, back, t, u, hsplit, htext, rfl⟩ :=
      exists_piece_of_call (InlineState.isChain_traced htraced) hcall
    have hin : preconditionCall <:+: p.text := ⟨t, u, by rw [htext, List.append_assoc]⟩
    have hkind := hpieces p (by simp [hsplit]) hin
    exact hidesAt?_of_inlineTrace hfree h htrace hsplit htext hkind

end File

/-- **When no live call is left.** In a file whose calls can be edited without touching a comment,
every precondition call of the result is inside a comment exactly if the same holds of all lines
that the inline style leaves alone, and calls inside the lines of another call are in its
payload. -/
theorem no_call_left_iff {lines : List Text} (hfree : CallsEditable lines) {r : Revision}
    (h : inlinePreconditions lines = .ok r) :
    (∀ (i : Nat) line, r.lines[i]? = some line →
        CallsHidden (Comment.advanceAll false (r.lines.take i)) line) ↔
      (∀ (i : Nat) line, (inlineTrace lines)[i]? = some (.plain line) →
          CallsHidden (Comment.advanceAll false (lines.take i)) line) ∧
        ∀ (i : Nat) opens pieces, (inlineTrace lines)[i]? = some (.call opens pieces) →
          ∀ p ∈ pieces, preconditionCall <:+: p.text → p.hidden? = some true := by
  constructor
  · intro hhidden
    constructor
    · intro i line htrace
      rw [← callsHidden_plain_iff hfree h htrace]
      exact hhidden i line (getElem?_of_inlineTrace h htrace)
    · intro i opens pieces htrace
      rw [← callsHidden_call_iff hfree h htrace]
      exact hhidden i _ (getElem?_of_inlineTrace h htrace)
  · rintro ⟨hplain, hcalls⟩ i line hline
    obtain ⟨traced, htrace, rfl⟩ := exists_inlineTrace_of_getElem? h hline
    cases traced with
    | plain line => exact (callsHidden_plain_iff hfree h htrace).2 (hplain i line htrace)
    | call opens pieces =>
      exact (callsHidden_call_iff hfree h htrace).2 (hcalls i opens pieces htrace)

/-- A call in the payload of another one, and one in a comment. -/
theorem no_call_left_nested :
    ∃ r, inlinePreconditions
        ["Require.that(a, FILE, \"m\", Require.that(b));", "f(); // Require.that(c);"] = .ok r ∧
      ∀ (i : Nat) line, r.lines[i]? = some line →
        CallsHidden (Comment.advanceAll false (r.lines.take i)) line := by
  set lines : List Text :=
    ["Require.that(a, FILE, \"m\", Require.that(b));", "f(); // Require.that(c);"]
  set pieces : List Piece := [.outside [], .name, .argument "a, ", .opener, .location, .closer,
    .argument " \"", .argument "m\"", .opener, .payload ", Require.that(b)", .closer, .closing,
    .outside []]
  have htrace : inlineTrace lines = [.call true pieces, .plain "f(); // Require.that(c);"] := by
    decide +kernel
  have hplain (i : Nat) (line : Text) (hline : (inlineTrace lines)[i]? = some (.plain line)) :
      i = 1 ∧ line = "f(); // Require.that(c);" := by
    rw [htrace] at hline
    match i, hline with
    | 0, hline | 1, hline | i + 2, hline => simpa using hline.symm
  have hcall (i : Nat) (opens : Bool) (p : List Piece)
      (hline : (inlineTrace lines)[i]? = some (.call opens p)) :
      i = 0 ∧ opens = true ∧ p = pieces := by
    rw [htrace] at hline
    match i, hline with
    | 0, hline | 1, hline | i + 2, hline => simpa using hline.symm
  have hfree : CallsEditable lines := by
    constructor
    · rintro i line hline ⟨opens, p, hline'⟩
      obtain ⟨rfl, -, -⟩ := hcall i opens p hline'
      cases hline
      decide +kernel
    · have hnames : ∀ line ∈ lines, FileIdentifier.declared? line = none := by decide +kernel
      intro line hline name hname
      rw [hnames line hline] at hname
      cases hname
  have h := (@inlinePreconditions_eq_ok_iff lines _).2 ⟨by decide +kernel, rfl⟩
  refine ⟨_, h, (no_call_left_iff hfree h).2 ⟨fun i line hline => ?_, fun i opens p hline => ?_⟩⟩
  · obtain ⟨rfl, rfl⟩ := hplain i line hline
    decide +kernel
  · obtain ⟨rfl, -, rfl⟩ := hcall i opens p hline
    decide +kernel

/-- The second call on a line is left as it is. -/
theorem second_call_left :
    inlinePreconditions ["Require.that(a); Require.that(b);"] =
        .ok ⟨["require(a); Require.that(b);"], 1⟩ ∧
      ¬CallsHidden (Comment.advanceAll false []) "require(a); Require.that(b);" := by
  decide +kernel

end ContractLint.Coverage
