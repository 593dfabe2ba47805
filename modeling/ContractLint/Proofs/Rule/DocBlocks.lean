import ContractLint.Proofs.Rule.Reread
import ContractLint.Proofs.Text.Words

/-!
# Blocks of documentation

A file is checked line by line, and what is known of a block is kept until the next one opens. So
the blocks of a file do not see each other: where no block is open, nothing that was kept is looked
at, and a block starts with nothing known.

## The architecture

* **`isOpenFrom`** — whether a block is open, by the lines that open and close one. It is what the
  scan knows (`inBlock_scan`).
* **`faultsFrom_outside`, `faults_append`** — below lines that leave no block open, everything is
  found as in a file of its own.
* **`IsBlock`** — one block of a file. The faults on its lines are those of the block alone
  (`IsBlock.faults_eq`).
* **`filter_isMissing_faultsFrom`** — the blank line above the parameters: one step either settles
  the matter or leaves it open (`filter_isMissing_step`, `isSettled_step`), so it is settled once.
* **`blocks_checked_apart`** — both together.
-/

namespace ContractLint

namespace DocBlock

/-! ## One line -/

/-- Whether a line starts a block, if none is open. -/
def opens (line : Text) : Bool := ("/**" : Text).isPrefixOf line.trimStart

/-- Whether a line ends the block that it is in. -/
def closes (line : Text) : Bool := ("*/" : Text).isSuffixOf line.trimEnd

/-- Whether a line has a parameter tag behind a star. -/
def listsParam (line : Text) : Bool :=
  Text.occursIn "*  param" line || Text.occursIn "* @param" line

variable {b c : DocBlock} {line : Text}

/-- The first description of a block sets its column. -/
theorem alignment_fst (b : DocBlock) (line : Text) : (b.alignment line).1 =
    { b with column := if b.column = 0 then descriptionColumn line else b.column } := by
  unfold alignment
  dsimp only
  by_cases hline : descriptionColumn line = 0
  · rw [if_pos hline, hline]
    by_cases hb : b.column = 0
    · rw [if_pos hb, ← hb]
    · rw [if_neg hb]
  · rw [if_neg hline]
    by_cases hb : b.column = 0
    · rw [if_pos hb, if_pos hb]
    · rw [if_neg hb, if_neg hb]

theorem blankLine_of_lone (hline : line.trim = ['*']) :
    b.blankLine line = ({ b with seenBlank := true }, []) := by
  have hstar : line.trimStart.trimEnd = ['*'] := hline
  simp only [blankLine, hstar, if_true, Bool.not_true, Bool.false_and, Bool.false_eq_true, if_false]

theorem blankLine_of_not_lone (hline : line.trim ≠ ['*']) :
    b.blankLine line = if !b.seenBlank && !b.complained && listsParam line
      then ({ b with complained := true }, [.noBlankLine]) else (b, []) := by
  have hstar : line.trimStart.trimEnd ≠ ['*'] := hline
  have hlists : (Text.occursIn "*  param" line.trimStart || Text.occursIn "* @param" line.trimStart) =
      listsParam line := by
    unfold listsParam
    exact congrArg₂ or (Text.occursIn_trimStart (by decide) _ line)
      (Text.occursIn_trimStart (by decide) _ line)
  simp only [blankLine, hstar, if_false, hlists]

theorem blankLine_fst (b : DocBlock) (line : Text) : ∃ seenBlank complained,
    (b.blankLine line).1 = { b with seenBlank, complained } := by
  by_cases hline : line.trim = ['*']
  · exact ⟨true, b.complained, by rw [blankLine_of_lone hline]⟩
  · rw [blankLine_of_not_lone hline]
    split
    · exact ⟨b.seenBlank, true, rfl⟩
    · exact ⟨b.seenBlank, b.complained, rfl⟩

theorem step_outside (hb : b.inBlock = false) (hline : opens line = false) :
    b.step line = (b, spacingFaults line) := by
  have hopen : ("/**" : Text).isPrefixOf line.trimStart = false := hline
  simp only [step, hb, hopen, Bool.and_false, Bool.false_eq_true, if_false]

theorem step_opens (hb : b.inBlock = false) (hline : opens line = true) :
    b.step line = step { inBlock := true } line := by
  have hopen : ("/**" : Text).isPrefixOf line.trimStart = true := hline
  simp only [step, hb, hopen, Bool.not_false, Bool.not_true, Bool.and_self, Bool.and_true,
    Bool.false_eq_true, if_false, if_true]

theorem step_inside (hb : b.inBlock = true) :
    b.step line = ({ ((b.alignment line).1.blankLine line).1 with inBlock := !closes line },
      spacingFaults line ++ (b.alignment line).2 ++ ((b.alignment line).1.blankLine line).2) := by
  have hkept : ((b.alignment line).1.blankLine line).1.inBlock = true := by
    obtain ⟨seenBlank, complained, hblank⟩ := blankLine_fst (b.alignment line).1 line
    rw [hblank, alignment_fst]
    exact hb
  unfold step closes
  simp only [hb, Bool.not_true, Bool.false_and, Bool.false_eq_true, if_false, if_true]
  cases hclose : ("*/" : Text).isSuffixOf line.trimEnd with
  | true => rfl
  | false =>
    rw [if_neg Bool.false_ne_true, Bool.not_false, ← hkept]

theorem inBlock_step : (b.step line).1.inBlock = ((b.inBlock || opens line) && !closes line) := by
  cases hb : b.inBlock with
  | true => simp [step_inside hb]
  | false =>
    cases hopen : opens line with
    | true => simp [step_opens hb hopen, step_inside]
    | false => simp [step_outside hb hopen, hb]

/-! ## Lines one after the other -/

/-- Whether a block is open below the lines, if one is above them. -/
def isOpenFrom (opened : Bool) : List Text → Bool
  | [] => opened
  | line :: rest => isOpenFrom ((opened || opens line) && !closes line) rest

/-- What is known below the lines. -/
def scan (b : DocBlock) (lines : List Text) : DocBlock :=
  lines.foldl (fun b line => (b.step line).1) b

theorem inBlock_scan (b : DocBlock) (lines : List Text) :
    (b.scan lines).inBlock = isOpenFrom b.inBlock lines := by
  induction lines generalizing b with
  | nil => rfl
  | cons line rest ih =>
    show ((b.step line).1.scan rest).inBlock = _
    rw [ih, inBlock_step, isOpenFrom]

/-- Outside of a block nothing is left of the blocks before. -/
theorem faultsFrom_outside (hb : b.inBlock = false) (hc : c.inBlock = false) (number : Nat)
    (lines : List Text) : faultsFrom number b lines = faultsFrom number c lines := by
  induction lines generalizing number with
  | nil => rfl
  | cons line rest ih =>
    unfold faultsFrom
    cases hopen : opens line with
    | true => rw [step_opens hb hopen, step_opens hc hopen]
    | false =>
      rw [step_outside hb hopen, step_outside hc hopen]
      dsimp only
      rw [ih]

theorem faultsFrom_append (number : Nat) (b : DocBlock) (xs ys : List Text) :
    faultsFrom number b (xs ++ ys) =
      faultsFrom number b xs ++ faultsFrom (number + xs.length) (b.scan xs) ys := by
  induction xs generalizing number b with
  | nil => rfl
  | cons line rest ih =>
    rw [List.cons_append, faultsFrom, faultsFrom]
    dsimp only
    rw [ih, List.append_assoc, List.length_cons,
      show number + 1 + rest.length = number + (rest.length + 1) by omega]
    rfl

/-- The fault a number of lines further down. -/
def moveDown (count : Nat) (f : Nat × DocFault) : Nat × DocFault := (f.1 + count, f.2)

theorem map_moveDown (m n : Nat) (faults : List (Nat × DocFault)) :
    (faults.map (moveDown m)).map (moveDown n) = faults.map (moveDown (n + m)) := by
  rw [List.map_map]
  refine List.map_congr_left fun f _ => ?_
  show (f.1 + m + n, f.2) = (f.1 + (n + m), f.2)
  rw [show f.1 + m + n = f.1 + (n + m) by omega]

theorem faultsFrom_add (number count : Nat) (b : DocBlock) (lines : List Text) :
    faultsFrom (number + count) b lines = (faultsFrom number b lines).map (moveDown count) := by
  induction lines generalizing number b with
  | nil => rfl
  | cons line rest ih =>
    unfold faultsFrom
    dsimp only
    rw [show number + count + 1 = number + 1 + count by omega, ih, List.map_append, List.map_map]
    rfl

/-- **What is found below lines that leave no block open** is found there as in a file of its own. -/
theorem faults_append {xs : List Text} (h : (scan {} xs).inBlock = false) (ys : List Text) :
    faults (xs ++ ys) = faults xs ++ (faults ys).map (moveDown xs.length) := by
  have hfresh : ({} : DocBlock).inBlock = false := rfl
  rw [faults, faultsFrom_append, faultsFrom_outside h hfresh, faultsFrom_add]
  rfl

/-! ## One block of a file -/

/-- A block of a file: it starts below lines that leave no block open, and goes on to the first line
that closes it or to the end of the file. -/
structure IsBlock (above block below : List Text) : Prop where
  outside : isOpenFrom false above = false
  opened : block.head?.any opens = true
  inside : ∀ line ∈ block.dropLast, closes line = false
  closed : block.getLast?.any closes = true ∨ below = []

theorem isOpenFrom_of_closes (opened : Bool) {lines : List Text}
    (h : lines.getLast?.any closes = true) : isOpenFrom opened lines = false := by
  induction lines generalizing opened with
  | nil => cases h
  | cons line rest ih =>
    cases rest with
    | nil =>
      have hline : closes line = true := h
      simp [isOpenFrom, hline]
    | cons next rest =>
      rw [isOpenFrom]
      exact ih _ (by rwa [List.getLast?_cons_cons] at h)

theorem faults_of_opens {block : List Text} (h : block.head?.any opens = true) :
    faults block = faultsFrom 1 { inBlock := true } block := by
  cases block with
  | nil => cases h
  | cons first rest =>
    have hfirst : opens first = true := h
    rw [faults, faultsFrom, faultsFrom, step_opens rfl hfirst]

namespace IsBlock

variable {above block below : List Text} (h : IsBlock above block below)
include h

theorem faults_eq : faults (above ++ (block ++ below)) =
    faults above ++ ((faultsFrom 1 { inBlock := true } block).map (moveDown above.length) ++
      (faults below).map (moveDown (above.length + block.length))) := by
  have hblock : faults (block ++ below) =
      faults block ++ (faults below).map (moveDown block.length) := by
    rcases h.closed with hclosed | rfl
    · refine faults_append ?_ below
      rw [inBlock_scan]
      exact isOpenFrom_of_closes _ hclosed
    · show faults (block ++ []) = faults block ++ []
      rw [List.append_nil, List.append_nil]
  rw [faults_append (by rw [inBlock_scan]; exact h.outside), hblock, List.map_append, map_moveDown,
    faults_of_opens h.opened]

/-- The faults on the lines of a block are those of the block. -/
theorem mem_faults_iff {k : Nat} (hk : k < block.length) {fault : DocFault} :
    (above.length + k + 1, fault) ∈ faults (above ++ (block ++ below)) ↔
      (1 + k, fault) ∈ faultsFrom 1 { inBlock := true } block := by
  rw [h.faults_eq, List.mem_append, List.mem_append]
  constructor
  · rintro (habove | hblock | hbelow)
    · have hbound := (line_of_mem_faultsFrom habove).2
      omega
    · obtain ⟨⟨number, fault⟩, hmem, heq⟩ := List.mem_map.1 hblock
      obtain ⟨hnumber, rfl⟩ := Prod.mk.inj heq
      obtain rfl : number = 1 + k := by omega
      exact hmem
    · obtain ⟨⟨number, fault⟩, hmem, heq⟩ := List.mem_map.1 hbelow
      have hnumber := (Prod.mk.inj heq).1
      have hbound := (line_of_mem_faultsFrom hmem).1
      omega
  · intro hmem
    refine .inr (.inl (List.mem_map.2 ⟨_, hmem, ?_⟩))
    show (1 + k + above.length, fault) = _
    rw [show 1 + k + above.length = above.length + k + 1 by omega]

end IsBlock

/-- A line of a block that is not the last one leaves the block open. -/
theorem block_goes_on {rest : List Text} (hrest : rest ≠ [])
    (hinside : ∀ other ∈ (line :: rest).dropLast, closes other = false) (hb : b.inBlock = true) :
    (b.step line).1.inBlock = true ∧ ∀ other ∈ rest.dropLast, closes other = false := by
  rw [List.dropLast_cons_of_ne_nil hrest, List.forall_mem_cons] at hinside
  refine ⟨?_, hinside.2⟩
  rw [inBlock_step, hb, hinside.1]
  rfl

/-! ## The blank line above the parameters -/

/-- The first line with a parameter, unless a lone star stands before it. -/
def missingAt? : List Text → Option Nat
  | [] => none
  | line :: rest =>
    if line.trim = ['*'] then none
    else if listsParam line then some 0
    else (missingAt? rest).map (· + 1)

theorem listsParam_of_lone (h : line.trim = ['*']) : listsParam line = false := by
  have hp : 'p' ∉ line := by
    intro hmem
    have htrim := Text.mem_trim_of_not_blank hmem (by decide)
    rw [h] at htrim
    revert htrim
    decide
  have hneedle {needle : Text} (hneedle : 'p' ∈ needle) : Text.occursIn needle line = false := by
    exact Text.occursIn_eq_false_iff.2 fun hin => hp (hin.subset hneedle)
  rw [listsParam, hneedle (by decide), hneedle (by decide)]
  rfl

theorem missingAt?_eq_some_iff {lines : List Text} {k : Nat} :
    missingAt? lines = some k ↔
      lines.findIdx? listsParam = some k ∧ ∀ line ∈ lines.take k, line.trim ≠ ['*'] := by
  induction lines generalizing k with
  | nil => simp [missingAt?]
  | cons line rest ih =>
    rw [missingAt?, List.findIdx?_cons]
    by_cases hlone : line.trim = ['*']
    · rw [if_pos hlone, listsParam_of_lone hlone]
      cases k with
      | zero => simp
      | succ k => simp [hlone]
    · rw [if_neg hlone]
      cases hlists : listsParam line with
      | true =>
        cases k with
        | zero => simp
        | succ k => simp
      | false =>
        cases k with
        | zero => simp
        | succ k => simp [ih, hlone]

/-- Whether nothing more is said about the blank line of the block. -/
def isSettled (b : DocBlock) : Bool := b.seenBlank || b.complained

theorem isSettled_alignment (b : DocBlock) (line : Text) :
    (b.alignment line).1.isSettled = b.isSettled := by
  rw [alignment_fst]
  rfl

theorem isSettled_blankLine (b : DocBlock) (line : Text) : (b.blankLine line).1.isSettled =
    (b.isSettled || decide (line.trim = ['*']) || listsParam line) := by
  by_cases hlone : line.trim = ['*']
  · simp [blankLine_of_lone hlone, isSettled, hlone]
  · rw [blankLine_of_not_lone hlone]
    cases hseen : b.seenBlank <;> cases hcomplained : b.complained <;>
      cases hlists : listsParam line <;> simp [isSettled, hlone, hseen, hcomplained]

theorem blankLine_snd (b : DocBlock) (line : Text) : (b.blankLine line).2 =
    if b.isSettled || decide (line.trim = ['*']) || !listsParam line then [] else [.noBlankLine] := by
  by_cases hlone : line.trim = ['*']
  · simp [blankLine_of_lone hlone, hlone]
  · rw [blankLine_of_not_lone hlone]
    cases hseen : b.seenBlank <;> cases hcomplained : b.complained <;>
      cases hlists : listsParam line <;> simp [isSettled, hlone, hseen, hcomplained]

/-- Whether a fault is a missing blank line. -/
def isMissing (f : Nat × DocFault) : Bool := f.2 == .noBlankLine

theorem eq_of_mem_spacingFaults {fault : DocFault} (h : fault ∈ spacingFaults line) :
    fault = .oneSpace ∨ fault = .manySpaces := by
  unfold spacingFaults at h
  dsimp only at h
  rcases List.mem_append.1 h with hone | hmany
  · split at hone
    · exact .inl (List.mem_singleton.1 hone)
    · cases hone
  · split at hmany
    · exact .inr (List.mem_singleton.1 hmany)
    · cases hmany

theorem noBlankLine_notMem_alignment (b : DocBlock) (line : Text) :
    DocFault.noBlankLine ∉ (b.alignment line).2 := by
  unfold alignment
  dsimp only
  split
  · simp
  · split
    · simp
    · split <;> simp

theorem filter_isMissing_step (hb : b.inBlock = true) (number : Nat) :
    ((b.step line).2.map (number, ·)).filter isMissing =
      if b.isSettled || decide (line.trim = ['*']) || !listsParam line then []
      else [(number, .noBlankLine)] := by
  have hother {faults : List DocFault} (h : DocFault.noBlankLine ∉ faults) :
      (faults.map (number, ·)).filter isMissing = [] := by
    refine List.filter_eq_nil_iff.2 fun f hf => ?_
    obtain ⟨fault, hmem, rfl⟩ := List.mem_map.1 hf
    simp only [isMissing, beq_iff_eq]
    rintro rfl
    exact h hmem
  have hspacing : DocFault.noBlankLine ∉ spacingFaults line := by
    intro hmem
    rcases eq_of_mem_spacingFaults hmem with heq | heq <;> cases heq
  rw [step_inside hb, List.map_append, List.map_append, List.filter_append, List.filter_append,
    hother hspacing, hother (noBlankLine_notMem_alignment b line), blankLine_snd,
    isSettled_alignment]
  split <;> rfl

theorem isSettled_step (hb : b.inBlock = true) : (b.step line).1.isSettled =
    (b.isSettled || decide (line.trim = ['*']) || listsParam line) := by
  rw [step_inside hb, ← isSettled_alignment b line, ← isSettled_blankLine]
  rfl

/-- **A missing blank line is reported once**, at the first parameter. -/
theorem filter_isMissing_faultsFrom {lines : List Text}
    (hinside : ∀ line ∈ lines.dropLast, closes line = false) {b : DocBlock} (hb : b.inBlock = true)
    (number : Nat) :
    (faultsFrom number b lines).filter isMissing =
      ((if b.isSettled then none else missingAt? lines).map (number + ·, .noBlankLine)).toList := by
  induction lines generalizing b number with
  | nil => simp [faultsFrom, missingAt?]
  | cons line rest ih =>
    have hrest : (faultsFrom (number + 1) (b.step line).1 rest).filter isMissing =
        ((if (b.step line).1.isSettled then none else missingAt? rest).map
          (number + 1 + ·, .noBlankLine)).toList := by
      by_cases hlast : rest = []
      · simp [hlast, faultsFrom, missingAt?]
      · obtain ⟨hnext, hbelow⟩ := block_goes_on hlast hinside hb
        exact ih hbelow hnext (number + 1)
    rw [faultsFrom]
    dsimp only
    rw [List.filter_append, filter_isMissing_step hb, hrest, isSettled_step hb, missingAt?]
    cases hsettled : b.isSettled with
    | true => simp
    | false =>
      by_cases hlone : line.trim = ['*']
      · simp [hlone]
      · cases hlists : listsParam line with
        | true => simp [hlone]
        | false =>
          simp only [hlone, if_false]
          cases missingAt? rest with
          | none => rfl
          | some k => simp; omega

theorem IsBlock.filter_isMissing {above block below : List Text} (h : IsBlock above block below) :
    (faultsFrom 1 { inBlock := true } block).filter isMissing =
      ((missingAt? block).map (1 + ·, .noBlankLine)).toList :=
  filter_isMissing_faultsFrom h.inside rfl 1

/-- A fault is on a line of the block and is a missing blank line. -/
def isMissingIn (above block : List Text) (f : Nat × DocFault) : Bool :=
  above.length < f.1 && f.1 ≤ above.length + block.length && isMissing f

theorem IsBlock.countP_isMissingIn_le {above block below : List Text}
    (h : IsBlock above block below) :
    (faults (above ++ (block ++ below))).countP (isMissingIn above block) ≤ 1 := by
  -- above and below no line is one of the block
  have habove : (faults above).countP (isMissingIn above block) = 0 := by
    refine List.countP_eq_zero.2 fun f hf => ?_
    have hbound : 1 ≤ f.1 ∧ f.1 < 1 + above.length := line_of_mem_faultsFrom hf
    simp only [isMissingIn, Bool.and_eq_true, decide_eq_true_eq]
    omega
  have hbelow : ((faults below).map (moveDown (above.length + block.length))).countP
      (isMissingIn above block) = 0 := by
    rw [List.countP_map]
    refine List.countP_eq_zero.2 fun f hf => ?_
    have hbound : 1 ≤ f.1 ∧ f.1 < 1 + below.length := line_of_mem_faultsFrom hf
    intro hin
    have hrange := of_decide_eq_true (Bool.and_eq_true_iff.1 (Bool.and_eq_true_iff.1 hin).1).2
    simp only [moveDown] at hrange
    omega
  have hblock : ((faultsFrom 1 { inBlock := true } block).map (moveDown above.length)).countP
      (isMissingIn above block) ≤ 1 := by
    rw [List.countP_map]
    refine Nat.le_trans (List.countP_mono_left (q := isMissing) fun f _ hf => ?_) ?_
    · exact (Bool.and_eq_true_iff.1 hf).2
    · rw [List.countP_eq_length_filter, h.filter_isMissing]
      cases missingAt? block with
      | none => exact Nat.zero_le 1
      | some k => exact Nat.le_refl 1
  rw [h.faults_eq, List.countP_append, List.countP_append, habove, hbelow]
  omega

theorem IsBlock.noBlankLine_mem_iff {above block below : List Text} (h : IsBlock above block below)
    {k : Nat} (hk : k < block.length) :
    (above.length + k + 1, .noBlankLine) ∈ faults (above ++ (block ++ below)) ↔
      missingAt? block = some k := by
  have hfilter : (1 + k, .noBlankLine) ∈ faultsFrom 1 { inBlock := true } block ↔
      (1 + k, .noBlankLine) ∈ (faultsFrom 1 { inBlock := true } block).filter isMissing := by
    simp [List.mem_filter, isMissing]
  rw [h.mem_faults_iff hk, hfilter, h.filter_isMissing, Option.mem_toList, Option.map_eq_some_iff]
  constructor
  · rintro ⟨j, hj, heq⟩
    obtain rfl : j = k := by
      have hline := (Prod.mk.inj heq).1
      omega
    exact hj
  · intro hj
    exact ⟨k, hj, rfl⟩

/-- **Blocks are checked one by one, and a missing blank line is reported once for each.** Below lines
that leave no block open everything is found as in a file of its own. In a block at most one fault
is a missing blank line; it is on the first line with a parameter, and only if no lone star stands
before that. -/
theorem blocks_checked_apart :
    (∀ xs ys : List Text, (scan {} xs).inBlock = false →
      faults (xs ++ ys) =
        faults xs ++ (faults ys).map fun (number, fault) => (number + xs.length, fault)) ∧
    ∀ above block below : List Text, IsBlock above block below →
      (faults (above ++ (block ++ below))).countP (fun (number, fault) =>
        above.length < number && number ≤ above.length + block.length && fault == .noBlankLine) ≤ 1 ∧
      ∀ k < block.length,
        ((above.length + k + 1, .noBlankLine) ∈ faults (above ++ (block ++ below)) ↔
          block.findIdx? listsParam = some k ∧ ∀ line ∈ block.take k, line.trim ≠ ['*']) := by
  refine ⟨fun xs ys h => faults_append h ys, fun above block below h => ?_⟩
  refine ⟨h.countP_isMissingIn_le, fun k hk => ?_⟩
  rw [h.noBlankLine_mem_iff hk, missingAt?_eq_some_iff]

/-- A block without a blank line, in which two parameters are listed. -/
def unspacedBlock : List Text :=
  ["/**", " * Summary.", " * @param  a  The a", " * @param  b  The b", " */"]

/-- A second block like it, which is not closed. -/
def unclosedBlock : List Text := ["/** Other.", " * @param  c  The c"]

/-- Each of the two blocks has one fault, on its first parameter. -/
theorem blocks_checked_apart_unspacedBlock :
    (scan {} unspacedBlock).inBlock = false ∧
      faults unspacedBlock = [(3, .noBlankLine)] ∧ faults unclosedBlock = [(2, .noBlankLine)] ∧
      faults (unspacedBlock ++ unclosedBlock) = [(3, .noBlankLine), (7, .noBlankLine)] ∧
      IsBlock unspacedBlock unclosedBlock [] ∧
      (5 + 1 + 1, .noBlankLine) ∈ faults (unspacedBlock ++ (unclosedBlock ++ [])) := by
  have houtside : (scan {} unspacedBlock).inBlock = false := by decide +kernel
  have hfirst : faults unspacedBlock = [(3, .noBlankLine)] := by decide +kernel
  have hsecond : faults unclosedBlock = [(2, .noBlankLine)] := by decide +kernel
  have hblock : IsBlock unspacedBlock unclosedBlock [] :=
    ⟨by decide +kernel, by decide +kernel, by decide +kernel, .inr rfl⟩
  refine ⟨houtside, hfirst, hsecond, ?_, hblock, ?_⟩
  · rw [blocks_checked_apart.1 _ unclosedBlock houtside, hfirst, hsecond]
    rfl
  · refine ((blocks_checked_apart.2 _ _ _ hblock).2 1 (by decide)).2 ⟨?_, ?_⟩
    · decide +kernel
    · decide +kernel

end DocBlock

end ContractLint
