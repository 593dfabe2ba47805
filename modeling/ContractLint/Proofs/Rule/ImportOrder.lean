import ContractLint.Rule.Imports
import ContractLint.Proofs.Sorting
import ContractLint.Proofs.Text.Words

/-!
# Arranged imports stay arranged

Putting imports right drops those that are not used, then duplicates, sorts the rest and writes them
in one block. Splitting the result again gives that block back, and nothing is left to do.

## The architecture

* **`ImportKey.le`** — a total and transitive comparison, so the imports that are expected are
  sorted.
* **`expected_eq_imports`** — a block whose imports are used, distinct and sorted is as expected.
  The imports that are expected have all three properties.
* **`importFree`** — lines that a split leaves alone. The lines below the imports stay so without
  the imports among them, because an import line does not start the code.
* **`renumber`** — the import lines of the result, read again: the same imports with new line
  numbers. No part of the comparison looks at these.
* **`ofLines_arranged`** — arranged lines, split again: the same lines above and below.
* **`isCorrect_arranged`** — arranged lines are correct, also without an empty line at their end.
-/

namespace ContractLint

/-! ## The order of imports -/

theorem Text.le_total (s t : Text) : s.le t = true ∨ t.le s = true := by
  rcases List.le_total s t with h | h
  · exact .inl (by simpa [Text.le] using List.not_lt.2 h)
  · exact .inr (by simpa [Text.le] using List.not_lt.2 h)

theorem Text.le_trans {s t u : Text} (hst : s.le t = true) (htu : t.le u = true) :
    s.le u = true := by
  simp only [Text.le, Bool.not_eq_true', decide_eq_false_iff_not] at hst htu ⊢
  exact List.not_lt.2 (List.le_trans (List.not_lt.1 hst) (List.not_lt.1 htu))

namespace ImportKey

theorem le_total (a b : ImportKey) : a.le b = true ∨ b.le a = true := by
  unfold le
  by_cases hbare : a.bare = b.bare
  · by_cases hdir : a.directory = b.directory
    · simpa [hbare, hdir] using Text.le_total a.base b.base
    · rcases Text.lt_or_lt_of_ne hdir with hlt | hlt
      · exact .inl (by simp [hbare, hdir, hlt])
      · exact .inr (by simp [hbare, Ne.symm hdir, hlt])
  · cases ha : a.bare <;> cases hb : b.bare <;> simp_all

theorem le_trans (a b c : ImportKey) (hab : a.le b = true) (hbc : b.le c = true) :
    a.le c = true := by
  obtain ⟨abare, adir, abase⟩ := a
  obtain ⟨bbare, bdir, bbase⟩ := b
  obtain ⟨cbare, cdir, cbase⟩ := c
  simp only [le] at hab hbc ⊢
  by_cases hbare : abare = bbare
  · subst hbare
    by_cases hbare' : abare = cbare
    · subst hbare'
      simp only [ne_eq, not_true_eq_false, if_false] at hab hbc ⊢
      by_cases hdir : adir = bdir
      · subst hdir
        by_cases hdir' : adir = cdir
        · subst hdir'
          simp only [not_true_eq_false, if_false] at hab hbc ⊢
          exact Text.le_trans hab hbc
        · simpa [hdir'] using hbc
      · by_cases hdir' : bdir = cdir
        · subst hdir'
          simpa [hdir] using hab
        · have hlt : adir < bdir := by simpa [hdir] using hab
          have hlt' : bdir < cdir := by simpa [hdir'] using hbc
          have htrans : adir < cdir := List.lt_trans hlt hlt'
          have hne : adir ≠ cdir := by
            rintro rfl
            exact List.lt_irrefl _ htrans
          simpa [hne] using htrans
    · simpa [hbare'] using hbc
  · -- only a path without a directory comes behind one with
    have hb : bbare = true := by simpa [hbare] using hab
    subst hb
    cases cbare with
    | true => simp [hbare]
    | false => simp at hbc

end ImportKey

/-! ## Distinct elements -/

theorem distinctBy_sublist {α : Type} (key : α → Text) (l : List α) :
    (distinctBy key l).Sublist l := by
  induction l with
  | nil => exact .slnil
  | cons a l ih => exact (List.filter_sublist.trans ih).cons_cons a

theorem nodup_map_distinctBy {α : Type} (key : α → Text) (l : List α) :
    ((distinctBy key l).map key).Nodup := by
  induction l with
  | nil => exact List.nodup_nil
  | cons a l ih =>
    rw [distinctBy, List.map_cons, List.nodup_cons]
    -- an element with the key of the first one was dropped
    refine ⟨fun hmem => ?_, ih.sublist (List.filter_sublist.map key)⟩
    obtain ⟨b, hb, hkey⟩ := List.mem_map.1 hmem
    simp [hkey] at hb

theorem distinctBy_of_nodup {α : Type} {key : α → Text} {l : List α} (h : (l.map key).Nodup) :
    distinctBy key l = l := by
  induction l with
  | nil => rfl
  | cons a l ih =>
    rw [List.map_cons, List.nodup_cons] at h
    rw [distinctBy, ih h.2, List.filter_eq_self.2 fun b hb => ?_]
    have hne : key b ≠ key a := fun hkey => h.1 (List.mem_map.2 ⟨b, hb, hkey⟩)
    simpa using hne

/-! ## Import lines read again -/

namespace ImportDecl

/-- A declaration that was read from an import line. -/
def FromLine (d : ImportDecl) : Prop :=
  ∃ line text, ImportBlock.isImport text = true ∧ d = ofLine line text

/-- The text of an import is read as the same import on another line. -/
theorem FromLine.ofLine_text {d : ImportDecl} (h : d.FromLine) (line : Nat) :
    ofLine line d.text = { d with line } := by
  obtain ⟨k, text, -, rfl⟩ := h
  simp only [ofLine, Text.trimStart_trimStart, Text.words_trimStart]

theorem FromLine.isImport_text {d : ImportDecl} (h : d.FromLine) :
    ImportBlock.isImport d.text = true := by
  obtain ⟨k, text, himport, rfl⟩ := h
  rw [ImportBlock.isImport, ofLine, Text.trimStart_trimStart]
  exact himport

theorem FromLine.symbol_ne_nil {d : ImportDecl} (h : d.FromLine) {name : Text}
    (hname : d.symbol = some name) : name ≠ [] := by
  obtain ⟨k, text, -, rfl⟩ := h
  unfold ofLine at hname
  dsimp only at hname
  split at hname
  · next word brace symbol rest hwords =>
    split at hname
    · cases hname
      exact Text.ne_nil_of_mem_words (t := text) (by rw [hwords]; simp)
    · cases hname
  · cases hname

/-- The same imports on lines that follow each other, from number `line` on. -/
def renumber (line : Nat) : List ImportDecl → List ImportDecl
  | [] => []
  | d :: rest => { d with line } :: renumber (line + 1) rest

theorem map_renumber {β : Type} {f : ImportDecl → β} (h : ∀ d line, f { d with line } = f d)
    (line : Nat) (imports : List ImportDecl) :
    (renumber line imports).map f = imports.map f := by
  induction imports generalizing line with
  | nil => rfl
  | cons d rest ih => rw [renumber, List.map_cons, List.map_cons, h, ih]

end ImportDecl

namespace ImportBlock

/-! ## What is expected -/

/-- Imports that are used, distinct and sorted are as expected. -/
theorem expected_eq_imports {b : ImportBlock} (huses : ∀ d ∈ b.imports, b.uses d = true)
    (hdistinct : (b.imports.map ImportDecl.identity).Nodup)
    (hsorted : (b.imports.map ImportDecl.key).Pairwise fun a b => a.le b = true) :
    b.expected = b.imports := by
  rw [expected, List.filter_eq_self.2 huses, distinctBy_of_nodup hdistinct]
  exact sortBy_of_pairwise (List.pairwise_map.1 hsorted)

theorem isCorrect_of_expected_eq {b : ImportBlock} (h : b.expected = b.imports) :
    b.isCorrect = true := by
  rw [isCorrect, h]
  exact beq_self_eq_true _

theorem mem_imports_of_mem_expected {b : ImportBlock} {d : ImportDecl} (h : d ∈ b.expected) :
    d ∈ b.imports ∧ b.uses d = true := by
  have hmem := (sortBy_perm _ _).mem_iff.1 h
  exact List.mem_filter.1 ((distinctBy_sublist _ _).subset hmem)

theorem nodup_identity_expected (b : ImportBlock) :
    (b.expected.map ImportDecl.identity).Nodup :=
  ((sortBy_perm _ _).map ImportDecl.identity).nodup_iff.2 (nodup_map_distinctBy _ _)

theorem pairwise_key_expected (b : ImportBlock) :
    (b.expected.map ImportDecl.key).Pairwise fun a b => a.le b = true := by
  refine List.pairwise_map.2 (pairwise_sortBy (fun d e => ?_) (fun d e f => ?_) _)
  · exact ImportKey.le_total d.key e.key
  · exact ImportKey.le_trans d.key e.key f.key

/-- What is expected of a block is expected again, whatever lines it stands on. -/
theorem isCorrect_renumber (b : ImportBlock) (above : List Text) (line : Nat) :
    isCorrect ⟨above, ImportDecl.renumber line b.expected, b.below⟩ = true := by
  refine isCorrect_of_expected_eq (expected_eq_imports (fun d hd => ?_) ?_ ?_)
  · -- being used is a matter of the symbol and the lines below
    have hsymbol : d.symbol ∈ (ImportDecl.renumber line b.expected).map ImportDecl.symbol :=
      List.mem_map_of_mem hd
    rw [ImportDecl.map_renumber (fun _ _ => rfl)] at hsymbol
    obtain ⟨e, he, hsame⟩ := List.mem_map.1 hsymbol
    have huse : b.uses e = true := (mem_imports_of_mem_expected he).2
    rw [uses] at huse ⊢
    rw [← hsame]
    exact huse
  · dsimp only
    rw [ImportDecl.map_renumber (fun _ _ => rfl)]
    exact nodup_identity_expected b
  · dsimp only
    rw [ImportDecl.map_renumber (fun _ _ => rfl)]
    exact pairwise_key_expected b

/-! ## Splitting -/

/-- Whether no line is an import, where `inCode` tells whether the code has started. -/
def importFree (inCode : Bool) : List Text → Bool
  | [] => true
  | text :: rest => (inCode || !isImport text) && importFree (inCode || startsCode text) rest

theorem importFree_true (lines : List Text) : importFree true lines = true := by
  induction lines with
  | nil => rfl
  | cons text rest ih => simpa [importFree] using ih

theorem splitFrom_import {text : Text} (h : isImport text = true) (line : Nat) (started : Bool)
    (rest : List Text) :
    splitFrom line started false (text :: rest) =
      { splitFrom (line + 1) true false rest with
        imports :=
          ImportDecl.ofLine line text :: (splitFrom (line + 1) true false rest).imports } := by
  simp [splitFrom, h]

theorem isImport_of_not_skip {inCode : Bool} {text : Text}
    (h : ¬(inCode || !isImport text) = true) : inCode = false ∧ isImport text = true := by
  cases inCode <;> simp_all

theorem splitFrom_other {inCode : Bool} {text : Text} (h : (inCode || !isImport text) = true)
    (line : Nat) (started : Bool) (rest : List Text) :
    splitFrom line started inCode (text :: rest) =
      let block := splitFrom (line + 1) started (inCode || startsCode text) rest
      if started then { block with below := text :: block.below }
      else { block with above := text :: block.above } := by
  have hskip : (!inCode && isImport text) = false := by
    cases inCode <;> simp_all
  rw [splitFrom, hskip]
  rfl

/-- Lines without imports stay where they are. -/
theorem splitFrom_of_importFree {inCode : Bool} {lines : List Text}
    (h : importFree inCode lines = true) (line : Nat) (started : Bool) :
    splitFrom line started inCode lines =
      if started then { below := lines } else { above := lines } := by
  induction lines generalizing inCode line with
  | nil => cases started <;> rfl
  | cons text rest ih =>
    rw [importFree, Bool.and_eq_true] at h
    rw [splitFrom_other h.1, ih h.2]
    cases started <;> rfl

/-- Behind the first import no line goes above, and what goes below is free of imports. -/
theorem splitFrom_started (inCode : Bool) (lines : List Text) (line : Nat) :
    (splitFrom line true inCode lines).above = [] ∧
      importFree inCode (splitFrom line true inCode lines).below = true := by
  induction lines generalizing inCode line with
  | nil => exact ⟨rfl, rfl⟩
  | cons text rest ih =>
    by_cases hskip : (inCode || !isImport text) = true
    · rw [splitFrom_other hskip]
      refine ⟨(ih _ _).1, ?_⟩
      simp only [if_true, importFree, hskip, Bool.true_and]
      exact (ih _ _).2
    · obtain ⟨rfl, himport⟩ := isImport_of_not_skip hskip
      rw [splitFrom_import himport]
      exact ih false (line + 1)

theorem fromLine_of_mem_splitFrom {inCode started : Bool} {lines : List Text} {line : Nat}
    {d : ImportDecl} (h : d ∈ (splitFrom line started inCode lines).imports) : d.FromLine := by
  induction lines generalizing inCode started line with
  | nil => cases h
  | cons text rest ih =>
    by_cases hskip : (inCode || !isImport text) = true
    · rw [splitFrom_other hskip] at h
      cases started with
      | true => exact ih h
      | false => exact ih h
    · obtain ⟨rfl, himport⟩ := isImport_of_not_skip hskip
      rw [splitFrom_import himport] at h
      rcases List.mem_cons.1 h with rfl | h
      · exact ⟨line, text, himport, rfl⟩
      · exact ih h

/-- Every line of a split block is a line of the file, or one without its indentation. -/
theorem exists_line_of_mem_splitFrom {inCode started : Bool} {lines : List Text} {line : Nat} :
    (∀ l ∈ (splitFrom line started inCode lines).above, l ∈ lines) ∧
      (∀ l ∈ (splitFrom line started inCode lines).below, l ∈ lines) ∧
        ∀ d ∈ (splitFrom line started inCode lines).imports, ∃ l ∈ lines, d.text = l.trimStart := by
  induction lines generalizing inCode started line with
  | nil => simp [splitFrom]
  | cons text rest ih =>
    have hcons {P : Text → Prop} (h : ∃ l ∈ rest, P l) : ∃ l ∈ text :: rest, P l := by
      obtain ⟨l, hl, hP⟩ := h
      exact ⟨l, List.mem_cons_of_mem _ hl, hP⟩
    by_cases hskip : (inCode || !isImport text) = true
    · obtain ⟨habove, hbelow, himports⟩ :=
        @ih (inCode || startsCode text) started (line + 1)
      -- a line that is no import goes below once the imports have started, and above before
      rw [splitFrom_other hskip]
      cases started with
      | true =>
        refine ⟨fun l hl => List.mem_cons_of_mem _ (habove l hl), fun l hl => ?_,
          fun d hd => hcons (himports d hd)⟩
        rcases List.mem_cons.1 hl with rfl | hl
        · exact List.mem_cons_self ..
        · exact List.mem_cons_of_mem _ (hbelow l hl)
      | false =>
        refine ⟨fun l hl => ?_, fun l hl => List.mem_cons_of_mem _ (hbelow l hl),
          fun d hd => hcons (himports d hd)⟩
        rcases List.mem_cons.1 hl with rfl | hl
        · exact List.mem_cons_self ..
        · exact List.mem_cons_of_mem _ (habove l hl)
    · obtain ⟨rfl, himport⟩ := isImport_of_not_skip hskip
      obtain ⟨habove, hbelow, himports⟩ := @ih false true (line + 1)
      rw [splitFrom_import himport]
      refine ⟨fun l hl => List.mem_cons_of_mem _ (habove l hl),
        fun l hl => List.mem_cons_of_mem _ (hbelow l hl), fun d hd => ?_⟩
      rcases List.mem_cons.1 hd with rfl | hd
      · exact ⟨text, List.mem_cons_self .., rfl⟩
      · exact hcons (himports d hd)

/-- A file without imports, or the lines above its first import. -/
theorem importFree_or_exists_import (lines : List Text) :
    importFree false lines = true ∨
      ∃ above text rest, lines = above ++ text :: rest ∧
        (∀ l ∈ above, isImport l = false ∧ startsCode l = false) ∧ isImport text = true := by
  induction lines with
  | nil => exact .inl rfl
  | cons text rest ih =>
    cases himport : isImport text with
    | true => exact .inr ⟨[], text, rest, rfl, by simp, himport⟩
    | false =>
      cases hcode : startsCode text with
      | true => exact .inl (by simp [importFree, himport, hcode, importFree_true])
      | false =>
        rcases ih with hfree | ⟨above, next, after, rfl, habove, hnext⟩
        · exact .inl (by simpa [importFree, himport, hcode] using hfree)
        · refine .inr ⟨text :: above, next, after, rfl, ?_, hnext⟩
          exact List.forall_mem_cons.2 ⟨⟨himport, hcode⟩, habove⟩

/-- Lines that are neither imports nor code go above. -/
theorem splitFrom_above {above : List Text}
    (h : ∀ l ∈ above, isImport l = false ∧ startsCode l = false) (line : Nat) (rest : List Text) :
    splitFrom line false false (above ++ rest) =
      { splitFrom (line + above.length) false false rest with
        above := above ++ (splitFrom (line + above.length) false false rest).above } := by
  induction above generalizing line with
  | nil => rfl
  | cons text above ih =>
    obtain ⟨himport, hcode⟩ := h text (by simp)
    have hlength : line + 1 + above.length = line + (text :: above).length := by
      rw [List.length_cons]
      omega
    rw [List.cons_append, splitFrom_other (by simp [himport]), hcode, Bool.false_or,
      ih (fun l hl => h l (by simp [hl])), hlength]
    rfl

/-- Import lines are read one after the other. -/
theorem splitFrom_imports {imports : List ImportDecl} (h : ∀ d ∈ imports, d.FromLine) (line : Nat)
    (rest : List Text) :
    splitFrom line true false (imports.map (·.text) ++ rest) =
      { splitFrom (line + imports.length) true false rest with
        imports := ImportDecl.renumber line imports ++
          (splitFrom (line + imports.length) true false rest).imports } := by
  induction imports generalizing line with
  | nil => rfl
  | cons d imports ih =>
    have hd := h d (by simp)
    have hlength : line + 1 + imports.length = line + (d :: imports).length := by
      rw [List.length_cons]
      omega
    rw [List.map_cons, List.cons_append, splitFrom_import hd.isImport_text,
      ih (fun e he => h e (by simp [he])), hlength, hd.ofLine_text]
    rfl

/-! ## Splitting what was arranged -/

/-- A file without imports is arranged already. -/
theorem ofLines_of_importFree {lines : List Text} (h : importFree false lines = true) :
    ofLines lines = { above := lines } ∧ (ofLines lines).expected = [] ∧
      (ofLines lines).arranged = lines := by
  have hsplit : ofLines lines = { above := lines } := splitFrom_of_importFree h 1 false
  rw [hsplit]
  exact ⟨rfl, rfl, by simp [arranged, expected, distinctBy]⟩

/-- In a file with imports these are the only ones above the code, which starts below them. -/
theorem importFree_or_parts (lines : List Text) :
    importFree false lines = true ∨
      (∀ l ∈ (ofLines lines).above, isImport l = false ∧ startsCode l = false) ∧
        importFree false (ofLines lines).below = true := by
  rcases importFree_or_exists_import lines with hfree | ⟨above, text, rest, rfl, habove, himport⟩
  · exact .inl hfree
  · obtain ⟨hstarted, hbelow⟩ := splitFrom_started false rest (1 + above.length + 1)
    rw [ofLines, splitFrom_above habove, splitFrom_import himport]
    exact .inr ⟨by simpa [hstarted] using habove, hbelow⟩

/-- **Arranged lines are split as they were arranged.** -/
theorem ofLines_arranged {lines : List Text} (h : (ofLines lines).expected ≠ []) :
    ofLines (ofLines lines).arranged =
      ⟨(ofLines lines).above,
        ImportDecl.renumber (1 + (ofLines lines).above.length) (ofLines lines).expected,
        (ofLines lines).below⟩ := by
  rcases importFree_or_parts lines with hfree | ⟨habove, hbelow⟩
  · exact absurd (ofLines_of_importFree hfree).2.1 h
  · set b := ofLines lines
    have hfrom : ∀ d ∈ b.expected, d.FromLine := fun d hd =>
      fromLine_of_mem_splitFrom (mem_imports_of_mem_expected hd).1
    -- the first import line starts the block, so the flag makes no difference
    have hflag : splitFrom (1 + b.above.length) false false (b.expected.map (·.text) ++ b.below) =
        splitFrom (1 + b.above.length) true false (b.expected.map (·.text) ++ b.below) := by
      cases hlist : b.expected with
      | nil => exact absurd hlist h
      | cons d ds =>
        have hd := (hfrom d (by rw [hlist]; simp)).isImport_text
        rw [List.map_cons, List.cons_append, splitFrom_import hd, splitFrom_import hd]
    rw [ofLines, arranged, List.append_assoc, splitFrom_above habove, hflag,
      splitFrom_imports hfrom, splitFrom_of_importFree hbelow]
    simp

/-- Lines that no import is left in are a file without imports. -/
theorem ofLines_arranged_of_expected_eq_nil {lines : List Text}
    (h : (ofLines lines).expected = []) :
    ofLines (ofLines lines).arranged = { above := (ofLines lines).arranged } := by
  rcases importFree_or_parts lines with hfree | ⟨habove, hbelow⟩
  · obtain ⟨hsplit, -, hsame⟩ := ofLines_of_importFree hfree
    rw [hsame, hsplit]
  · have hnone : (ofLines lines).arranged = (ofLines lines).above ++ (ofLines lines).below := by
      rw [arranged, h, List.map_nil, List.append_nil]
    rw [hnone, ofLines, splitFrom_above habove, splitFrom_of_importFree hbelow]
    rfl

/-- What was arranged is as expected. -/
theorem isCorrect_arranged (lines : List Text) :
    (ofLines (ofLines lines).arranged).isCorrect = true := by
  by_cases h : (ofLines lines).expected = []
  · rw [ofLines_arranged_of_expected_eq_nil h]
    rfl
  · rw [ofLines_arranged h]
    exact isCorrect_renumber (ofLines lines) _ _

theorem exists_line_of_mem_arranged {lines : List Text} {l : Text}
    (h : l ∈ (ofLines lines).arranged) : ∃ k ∈ lines, l = k ∨ l = k.trimStart := by
  obtain ⟨habove, hbelow, himports⟩ := @exists_line_of_mem_splitFrom false false lines 1
  rw [arranged, List.mem_append, List.mem_append] at h
  rcases h with (h | h) | h
  · exact ⟨l, habove l h, .inl rfl⟩
  · obtain ⟨d, hd, rfl⟩ := List.mem_map.1 h
    obtain ⟨k, hk, htext⟩ := himports d (mem_imports_of_mem_expected hd).1
    exact ⟨k, hk, .inr htext⟩
  · exact ⟨l, hbelow l h, .inl rfl⟩

/-! ## An empty line at the end -/

theorem splitFrom_append_empty (inCode started : Bool) (lines : List Text) (line : Nat) :
    (splitFrom line started inCode (lines ++ [[]])).imports =
        (splitFrom line started inCode lines).imports ∧
      ((splitFrom line started inCode (lines ++ [[]])).below =
          (splitFrom line started inCode lines).below ∨
        (splitFrom line started inCode (lines ++ [[]])).below =
          (splitFrom line started inCode lines).below ++ [[]]) := by
  induction lines generalizing inCode started line with
  | nil =>
    have hempty : (inCode || !isImport []) = true := by
      rw [show isImport [] = false by decide, Bool.not_false, Bool.or_true]
    rw [List.nil_append, splitFrom_other hempty]
    cases started with
    | true => exact ⟨rfl, .inr rfl⟩
    | false => exact ⟨rfl, .inl rfl⟩
  | cons text rest ih =>
    by_cases hskip : (inCode || !isImport text) = true
    · obtain ⟨himports, hbelow⟩ := ih (inCode || startsCode text) started (line + 1)
      rw [List.cons_append, splitFrom_other hskip, splitFrom_other hskip]
      cases started with
      | true =>
        refine ⟨himports, ?_⟩
        rcases hbelow with hbelow | hbelow
        · exact .inl (congrArg (text :: ·) hbelow)
        · exact .inr (congrArg (text :: ·) hbelow)
      | false => exact ⟨himports, hbelow⟩
    · obtain ⟨rfl, himport⟩ := isImport_of_not_skip hskip
      obtain ⟨himports, hbelow⟩ := ih false true (line + 1)
      rw [List.cons_append, splitFrom_import himport, splitFrom_import himport]
      exact ⟨congrArg (_ :: ·) himports, hbelow⟩

/-- An empty line at the end has no influence on the imports. -/
theorem isCorrect_append_empty (lines : List Text) :
    (ofLines (lines ++ [[]])).isCorrect = (ofLines lines).isCorrect := by
  obtain ⟨himports, hbelow⟩ := splitFrom_append_empty false false lines 1
  set b := ofLines lines with hb
  set c := ofLines (lines ++ [[]]) with hc
  have himports : c.imports = b.imports := himports
  have huses : ∀ d ∈ b.imports, c.uses d = b.uses d := by
    intro d hd
    have hfrom : d.FromLine := fromLine_of_mem_splitFrom hd
    rw [uses, uses]
    cases hsymbol : d.symbol with
    | none => rfl
    | some name =>
      -- a symbol is a word, and no word is found in the empty line
      have hname : Text.occursIn name [] = false := by
        refine Text.occursIn_eq_false_iff.2 fun hin => hfrom.symbol_ne_nil hsymbol ?_
        exact List.infix_nil.1 hin
      rcases hbelow with hbelow | hbelow
      · rw [show c.below = b.below from hbelow]
      · rw [show c.below = b.below ++ [[]] from hbelow]
        simp [hname]
  have hexpected : c.expected = b.expected := by
    rw [expected, expected, himports, List.filter_congr huses]
  rw [isCorrect, isCorrect, hexpected, himports]

end ImportBlock

end ContractLint
