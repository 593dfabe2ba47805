import ContractLint.Proofs.Rule.DocBlocks
import Mathlib.Data.List.Find

/-!
# Where descriptions start

The descriptions in a block are to start in one column. On a line with a parameter the description
is the fourth word, and its column is found by a search for the word's text with a space before it.
That is the place of the word unless the search stops further left, at a word that starts with the
same characters, or misses the word because the blank before it is no space.

## The architecture

* **`Text.firstAt_spaced`, `Text.not_infix_of_firstAt`** — where a word behind a space is found.
* **`FindsDescription`** — the lines on which the search finds the fourth word. It gives the column
  of that word exactly there (`descriptionColumn_eq_iff`).
* **`misaligned_mem_faultsFrom_iff`** — the lines of a block that are misaligned, by the columns that
  are found: one step compares a line with the first column known, or sets it (`column_step`).
* **`descriptions_compared`** — the same by fourth words.
-/

namespace ContractLint

namespace Text

/-- The byte offset at which the word with `n` words before it starts. -/
def wordOffset? (n : Nat) (t : Text) : Option Nat := (beforeWord? n t).map byteSize

/-- Starts of a text that take the same number of bytes are the same. -/
theorem eq_of_byteSize_eq {p q t : Text} (hp : p <+: t) (hq : q <+: t)
    (h : p.byteSize = q.byteSize) : p = q := by
  have hshort {p q : Text} (hpq : p <+: q) (h : p.byteSize = q.byteSize) : p = q := by
    obtain ⟨rest, rfl⟩ := hpq
    cases rest with
    | nil => exact (List.append_nil p).symm
    | cons c rest =>
      have hpos := Char.utf8Size_pos c
      rw [byteSize_append, byteSize_cons] at h
      omega
  rcases List.prefix_or_prefix_of_prefix hp hq with hpq | hqp
  · exact hshort hpq h
  · exact (hshort hqp h.symm).symm

section SpacedWord

variable {before word after b : Text}

/-- A word behind a space is found there, unless it was found before. -/
theorem firstAt_spaced (hspace : ' ' ∉ word) (hbefore : ¬(' ' :: word) <:+: b ++ [' ']) :
    FirstAt (' ' :: word) (b ++ [' '] ++ (word ++ after)) b := by
  refine ⟨⟨after, by simp⟩, fun p hp => ?_⟩
  by_contra hshort
  have hsplit : b ++ [' '] ++ (word ++ after) = b ++ ' ' :: (word ++ after) := by simp
  rw [hsplit] at hp
  -- an occurrence further left has its space inside of `b`, and cannot reach beyond the last one
  have hstart : p ++ [' '] <+: b := by
    have hp' : p ++ [' '] <+: b ++ ' ' :: (word ++ after) :=
      List.IsPrefix.trans ⟨word, by simp⟩ hp
    refine List.prefix_of_prefix_length_le hp' (List.prefix_append _ _) ?_
    rw [List.length_append, List.length_singleton]
    omega
  obtain ⟨rest, rfl⟩ := hstart
  have hword : word <+: rest ++ ' ' :: (word ++ after) := by
    have hparts : p ++ ' ' :: word = p ++ [' '] ++ word := by simp
    rw [hparts, List.append_assoc (p ++ [' ']), List.prefix_append_right_inj] at hp
    exact hp
  have hrest : word <+: rest := by
    rw [← List.isPrefixOf_iff_prefix, isPrefixOf_append_cons hspace, List.isPrefixOf_iff_prefix]
      at hword
    exact hword
  obtain ⟨tail, rfl⟩ := hrest
  exact hbefore ⟨p, tail ++ [' '], by simp⟩

theorem not_infix_of_firstAt (hword : word ≠ [])
    (h : FirstAt (' ' :: word) (b ++ [' '] ++ (word ++ after)) b) :
    ¬(' ' :: word) <:+: b ++ [' '] := by
  rintro ⟨p, q, hpq⟩
  have hle := h.first p ⟨q ++ (word ++ after), by rw [← hpq]; simp⟩
  have hlength := congrArg List.length hpq
  have hpos := List.length_pos_of_ne_nil hword
  simp only [List.length_append, List.length_cons, List.length_nil] at hlength
  omega

end SpacedWord

end Text

namespace DocBlock

variable {b : DocBlock} {line : Text}

/-! ## The column of a description -/

/-- Whether a line has a parameter with a description. -/
def describesParam (line : Text) : Bool :=
  Text.occursIn "param " line && !Text.occursIn "@returns" line && 4 ≤ line.words.length

/-- Whether a line has no tag. -/
def isUntagged (line : Text) : Bool :=
  !Text.occursIn "param " line && !Text.occursIn "@returns" line

theorem occursIn_param_trimStart (line : Text) :
    Text.occursIn "param " line.trimStart = Text.occursIn "param " line :=
  Text.occursIn_trimStart (by decide) _ line

theorem occursIn_returns_trimStart (line : Text) :
    Text.occursIn "@returns" line.trimStart = Text.occursIn "@returns" line :=
  Text.occursIn_trimStart (by decide) _ line

theorem descriptionColumn_of_untagged (h : isUntagged line = true) : descriptionColumn line = 0 := by
  obtain ⟨hparam, hreturns⟩ : Text.occursIn "param " line = false ∧
      Text.occursIn "@returns" line = false := by simpa [isUntagged] using h
  simp only [descriptionColumn, occursIn_param_trimStart, occursIn_returns_trimStart, hparam,
    hreturns, Bool.false_eq_true, if_false]
  split <;> split <;> rfl

theorem descriptionColumn_of_describesParam (h : describesParam line = true) {word : Text}
    (hword : line.words[3]? = some word) :
    descriptionColumn line =
      ((Text.cut (' ' :: word) line).map fun (before, _) => Text.byteSize before + 1).getD 0 := by
  obtain ⟨⟨hparam, hreturns⟩, -⟩ : (Text.occursIn "param " line = true ∧
      Text.occursIn "@returns" line = false) ∧ 4 ≤ line.words.length := by
    simpa [describesParam] using h
  simp only [descriptionColumn, occursIn_param_trimStart, occursIn_returns_trimStart, hparam,
    hreturns, hword, Bool.false_eq_true, if_false, if_true]
  split <;> rfl

/-- The fourth word of a line stands behind a space, and with a space before it not further left. -/
def FindsDescription (line : Text) : Prop :=
  ∃ before ∈ line.beforeWord? 3, ∃ word ∈ line.words[3]?,
    before.getLast? = some ' ' ∧ ¬(' ' :: word) <:+: before

instance (line : Text) : Decidable (FindsDescription line) :=
  inferInstanceAs (Decidable (∃ before ∈ line.beforeWord? 3, _))

/-- **The column of a description is that of the fourth word**, exactly if its text is found there
first. -/
theorem descriptionColumn_eq_iff (h : describesParam line = true) :
    ∃ offset, line.wordOffset? 3 = some offset ∧ 0 < offset ∧
      (descriptionColumn line = offset ↔ FindsDescription line) := by
  have hlength : 3 < line.words.length := by
    have hwords := (Bool.and_eq_true_iff.1 h).2
    exact of_decide_eq_true hwords
  obtain ⟨word, hword⟩ : ∃ word, line.words[3]? = some word :=
    ⟨_, List.getElem?_eq_getElem hlength⟩
  have hmem : word ∈ line.words := List.mem_of_getElem? hword
  have hspace : ' ' ∉ word := fun hin => by
    have hblank := Text.isBlank_of_mem_words hmem hin
    revert hblank
    decide
  obtain ⟨before, after, hbefore, hline, hne⟩ := Text.exists_beforeWord hword
  have hpos : 0 < Text.byteSize before := by
    cases hbytes : before with
    | nil => exact absurd hbytes (hne (by omega))
    | cons c rest =>
      have hchar := Char.utf8Size_pos c
      rw [Text.byteSize_cons]
      omega
  refine ⟨Text.byteSize before, by rw [Text.wordOffset?, hbefore, Option.map_some], hpos, ?_⟩
  have hfinds : FindsDescription line ↔ before.getLast? = some ' ' ∧ ¬(' ' :: word) <:+: before := by
    simp [FindsDescription, hbefore, hword]
  rw [hfinds, descriptionColumn_of_describesParam h hword]
  constructor
  · intro hcolumn
    cases hcut : Text.cut (' ' :: word) line with
    | none =>
      rw [hcut] at hcolumn
      exact absurd hcolumn (Nat.ne_of_lt hpos)
    | some parts =>
      obtain ⟨b, rest⟩ := parts
      rw [hcut] at hcolumn
      have hfirst := Text.firstAt_of_cut hcut
      -- the place that was found and the place of the word are as far from the start
      obtain rfl : b ++ [' '] = before := by
        refine Text.eq_of_byteSize_eq (t := line) ?_ ⟨word ++ after, hline.symm⟩ ?_
        · exact List.IsPrefix.trans ⟨word, by simp⟩ hfirst.occurs
        · rw [Text.byteSize_append]
          exact hcolumn
      rw [hline] at hfirst
      exact ⟨by simp, Text.not_infix_of_firstAt (Text.ne_nil_of_mem_words hmem) hfirst⟩
  · rintro ⟨hlast, hinfix⟩
    obtain ⟨b, rfl⟩ := List.getLast?_eq_some_iff.1 hlast
    have hfirst : Text.FirstAt (' ' :: word) line b := by
      rw [hline]
      exact Text.firstAt_spaced hspace hinfix
    obtain ⟨rest, hcut⟩ := hfirst.exists_cut
    rw [hcut, Text.byteSize_append]
    rfl

/-! ## Descriptions of one block -/

theorem misaligned_notMem_blankLine (column : Nat) (b : DocBlock) (line : Text) :
    DocFault.misaligned column ∉ (b.blankLine line).2 := by
  rw [blankLine_snd]
  split <;> simp

theorem misaligned_mem_alignment_iff {column : Nat} :
    .misaligned column ∈ (b.alignment line).2 ↔
      b.column = column ∧ column ≠ 0 ∧ descriptionColumn line ≠ 0 ∧
        descriptionColumn line ≠ column := by
  unfold alignment
  dsimp only
  split
  · next hline => simp [hline]
  · next hline =>
    split
    · next hb =>
      simp only [List.not_mem_nil, false_iff]
      omega
    · next hb =>
      split
      · next heq =>
        simp only [List.not_mem_nil, false_iff]
        omega
      · next hne =>
        simp only [List.mem_singleton, DocFault.misaligned.injEq]
        omega

theorem misaligned_mem_step_iff (hb : b.inBlock = true) {column : Nat} :
    .misaligned column ∈ (b.step line).2 ↔
      b.column = column ∧ column ≠ 0 ∧ descriptionColumn line ≠ 0 ∧
        descriptionColumn line ≠ column := by
  rw [step_inside hb, List.mem_append, List.mem_append, ← misaligned_mem_alignment_iff]
  have hspacing : DocFault.misaligned column ∉ spacingFaults line := by
    intro hmem
    rcases eq_of_mem_spacingFaults hmem with heq | heq <;> cases heq
  have hblank := misaligned_notMem_blankLine column (b.alignment line).1 line
  tauto

theorem column_step (hb : b.inBlock = true) :
    (b.step line).1.column = if b.column = 0 then descriptionColumn line else b.column := by
  obtain ⟨seenBlank, complained, hblank⟩ := blankLine_fst (b.alignment line).1 line
  rw [step_inside hb, hblank, alignment_fst]

theorem find?_ne_zero_cons (n : Nat) (l : List Nat) :
    (n :: l).find? (· ≠ 0) = if n = 0 then l.find? (· ≠ 0) else some n := by
  rw [List.find?_cons]
  by_cases hn : n = 0
  · simp [hn]
  · simp [hn]

/-- **Descriptions are compared with the first one.** The column that a fault names is the first that
is known, in the block so far or on the lines to come. -/
theorem misaligned_mem_faultsFrom_iff {lines : List Text}
    (hinside : ∀ line ∈ lines.dropLast, closes line = false) {b : DocBlock} (hb : b.inBlock = true)
    {number k column : Nat} :
    (number + k, .misaligned column) ∈ faultsFrom number b lines ↔
      (b.column :: lines.map descriptionColumn).find? (· ≠ 0) = some column ∧
        ∃ line, lines[k]? = some line ∧ descriptionColumn line ≠ 0 ∧
          descriptionColumn line ≠ column := by
  induction lines generalizing b number k with
  | nil => simp [faultsFrom]
  | cons line rest ih =>
    -- the first column that is known is the same with the line taken into the block
    have hfind : ((b.step line).1.column :: rest.map descriptionColumn).find? (· ≠ 0) =
        (b.column :: (line :: rest).map descriptionColumn).find? (· ≠ 0) := by
      rw [column_step hb, List.map_cons, find?_ne_zero_cons b.column]
      split
      · rfl
      · next hcolumn => rw [find?_ne_zero_cons, if_neg hcolumn]
    rw [faultsFrom]
    dsimp only
    rw [List.mem_append]
    cases k with
    | zero =>
      have hrest : (number + 0, DocFault.misaligned column) ∉
          faultsFrom (number + 1) (b.step line).1 rest := by
        intro hmem
        have hbound := (line_of_mem_faultsFrom hmem).1
        omega
      have hhead : (number + 0, DocFault.misaligned column) ∈ (b.step line).2.map (number, ·) ↔
          DocFault.misaligned column ∈ (b.step line).2 := by
        simp
      rw [hhead, misaligned_mem_step_iff hb]
      simp only [hrest, or_false, List.getElem?_cons_zero, Option.some.injEq, exists_eq_left']
      rw [find?_ne_zero_cons]
      by_cases hcolumn : b.column = 0
      · rw [if_pos hcolumn, List.map_cons, find?_ne_zero_cons]
        -- with nothing known before, the first column could only be that of the line itself
        constructor
        · rintro ⟨hzero, hne, -⟩
          omega
        · rintro ⟨hfound, hne, hother⟩
          rw [if_neg hne] at hfound
          exact absurd (Option.some.inj hfound) hother
      · rw [if_neg hcolumn, Option.some.injEq]
        omega
    | succ k =>
      have hhead : (number + (k + 1), DocFault.misaligned column) ∉
          (b.step line).2.map (number, ·) := by
        intro hmem
        obtain ⟨fault, -, heq⟩ := List.mem_map.1 hmem
        have hline := (Prod.mk.inj heq).1
        omega
      simp only [hhead, false_or, List.getElem?_cons_succ]
      by_cases hlast : rest = []
      · simp [hlast, faultsFrom]
      · obtain ⟨hnext, hbelow⟩ := block_goes_on hlast hinside hb
        rw [← hfind, ← ih hbelow hnext, show number + 1 + k = number + (k + 1) by omega]

section Block

variable {block : List Text}
  (hlines : ∀ line ∈ block, describesParam line = true ∧ FindsDescription line ∨
    isUntagged line = true)
include hlines

/-- On such lines a column is known of each parameter, and it is that of its fourth word. -/
theorem descriptionColumn_ne_zero_iff {line : Text} (hline : line ∈ block) :
    (descriptionColumn line ≠ 0 ↔ describesParam line = true) ∧
      (describesParam line = true → line.wordOffset? 3 = some (descriptionColumn line)) := by
  rcases hlines line hline with ⟨hparam, hfinds⟩ | huntagged
  · obtain ⟨offset, hoffset, hpos, hcolumn⟩ := descriptionColumn_eq_iff hparam
    rw [hcolumn.2 hfinds]
    exact ⟨iff_of_true (by omega) hparam, fun _ => hoffset⟩
  · have hparam : describesParam line = false := by
      have hnone : Text.occursIn "param " line = false := by
        simpa using (Bool.and_eq_true_iff.1 huntagged).1
      rw [describesParam, hnone, Bool.false_and, Bool.false_and]
    rw [descriptionColumn_of_untagged huntagged, hparam]
    simp

theorem find?_descriptionColumn {first : Text} (hfirst : block.find? describesParam = some first) :
    (block.map descriptionColumn).find? (· ≠ 0) = first.wordOffset? 3 := by
  have hsame : block.find? ((fun column : Nat => decide (column ≠ 0)) ∘ descriptionColumn) =
      block.find? describesParam := by
    refine List.find?_congr fun line hline => ?_
    rw [Bool.eq_iff_iff, Function.comp_apply, decide_eq_true_eq]
    exact (descriptionColumn_ne_zero_iff hlines hline).1
  rw [List.find?_map, hsame, hfirst]
  have hmem : first ∈ block := List.mem_of_find?_eq_some hfirst
  exact ((descriptionColumn_ne_zero_iff hlines hmem).2 (List.find?_some hfirst)).symm

end Block

/-- **Descriptions are compared by their fourth words.** The column of a line with a parameter is
where its fourth word starts, exactly if that word stands behind a space and does not stand behind
one further left. In a block where this holds of all such lines and the others have no tag, the line
is misaligned exactly if its fourth word does not start where that of the first such line does. -/
theorem descriptions_compared {line : Text} (hparam : describesParam line = true) :
    (∃ offset, line.wordOffset? 3 = some offset ∧
      (descriptionColumn line = offset ↔ FindsDescription line)) ∧
    ∀ above block below : List Text, IsBlock above block below →
      (∀ other ∈ block, describesParam other = true ∧ FindsDescription other ∨
        isUntagged other = true) →
      ∀ first, block.find? describesParam = some first → ∀ k, block[k]? = some line → ∀ column,
        ((above.length + k + 1, .misaligned column) ∈ faults (above ++ (block ++ below)) ↔
          first.wordOffset? 3 = some column ∧ line.wordOffset? 3 ≠ some column) := by
  constructor
  · obtain ⟨offset, hoffset, -, hcolumn⟩ := descriptionColumn_eq_iff hparam
    exact ⟨offset, hoffset, hcolumn⟩
  · intro above block below h hlines first hfirst k hline column
    obtain ⟨hk, -⟩ := List.getElem?_eq_some_iff.1 hline
    obtain ⟨hne, hoffset⟩ := descriptionColumn_ne_zero_iff hlines (List.mem_of_getElem? hline)
    rw [h.mem_faults_iff hk, misaligned_mem_faultsFrom_iff h.inside rfl, find?_ne_zero_cons,
      if_pos rfl, find?_descriptionColumn hlines hfirst, hoffset hparam, hline]
    simp [hne.2 hparam]

/-- A block whose second description is too far left. -/
def ownersBlock : List Text :=
  ["    /**", "     * Summary.", "     *", "     * @param  marketId  The market",
    "     * @param  owner  The owner", "     */"]

/-- It is reported with the column of the first one. -/
theorem descriptions_compared_ownersBlock :
    IsBlock [] ownersBlock [] ∧
      (∀ line ∈ ownersBlock, describesParam line = true ∧ FindsDescription line ∨
        isUntagged line = true) ∧
      Text.wordOffset? 3 "     * @param  marketId  The market" = some 25 ∧
      describesParam "     * @param  owner  The owner" = true ∧
      Text.wordOffset? 3 "     * @param  owner  The owner" = some 22 ∧
      (0 + 4 + 1, .misaligned 25) ∈ faults ([] ++ (ownersBlock ++ [])) := by
  have hblock : IsBlock [] ownersBlock [] :=
    ⟨rfl, by decide +kernel, by decide +kernel, .inr rfl⟩
  have hlines : ∀ line ∈ ownersBlock, describesParam line = true ∧ FindsDescription line ∨
      isUntagged line = true := by decide +kernel
  have hfirst : ownersBlock.find? describesParam =
      some "     * @param  marketId  The market".toList := by decide +kernel
  have hmarket : Text.wordOffset? 3 "     * @param  marketId  The market" = some 25 := by
    decide +kernel
  have howner : Text.wordOffset? 3 "     * @param  owner  The owner" = some 22 := by decide +kernel
  have hparam : describesParam "     * @param  owner  The owner" = true := by decide +kernel
  refine ⟨hblock, hlines, hmarket, hparam, howner, ?_⟩
  have hcompared := (descriptions_compared hparam).2 _ _ _ hblock hlines _ hfirst 4 rfl 25
  exact hcompared.2 ⟨hmarket, by rw [howner]; decide⟩

/-- A block whose descriptions start in one column. -/
def alignedBlock : List Text :=
  ["/**", " *", " * @param  abc  Some text", " * @param  The  The owner", " */"]

/-- A parameter that is called like the first word of its description is misaligned. Behind a tab a
description is not found at all. -/
theorem description_found_too_early :
    IsBlock [] alignedBlock [] ∧
      (∀ line ∈ alignedBlock, describesParam line = true ∨ isUntagged line = true) ∧
      alignedBlock.find? describesParam = some " * @param  abc  Some text".toList ∧
      Text.wordOffset? 3 " * @param  abc  Some text" = some 16 ∧
      Text.wordOffset? 3 " * @param  The  The owner" = some 16 ∧
      descriptionColumn " * @param  The  The owner" = 11 ∧
      (4, .misaligned 16) ∈ faults alignedBlock ∧
      describesParam " * @param  a\tThe a" = true ∧
      Text.wordOffset? 3 " * @param  a\tThe a" = some 13 ∧
      descriptionColumn " * @param  a\tThe a" = 0 := by
  refine ⟨⟨rfl, ?_, ?_, .inr rfl⟩, ?_⟩
  · decide +kernel
  · decide +kernel
  · decide +kernel

end DocBlock

end ContractLint
