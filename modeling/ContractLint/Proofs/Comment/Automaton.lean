import ContractLint.Comment
import ContractLint.Proofs.Text.Occurrence
import Mathlib.Data.List.Induction

/-!
# The comment scanner as an automaton

`Comment.scan` jumps from delimiter to delimiter and starts over after each one, so what it says
about `s ++ t` is not a function of what it says about `s`: a delimiter may be cut in two. This
module reads a text character by character instead, with a state that remembers half a delimiter.

## The architecture

* **`Lexer`** — the five states: code, code after a `/`, block comment, block comment after a `*`,
  line comment. `Lexer.run` reads a text, and `Lexer.run_append` reads it in pieces.
* **`scan_eq_region_run`** — the scanner and the automaton agree on every text. One equation per
  kind of character says how the scanner moves; the induction on the text is then a case split.
* **delimiter lemmas** — what the automaton does on texts in which a delimiter does not occur. All
  statements about comments in rewritten lines rest on these.
-/

namespace ContractLint

/-- What the characters read so far amount to, half a delimiter included. -/
inductive Lexer where
  | code
  /-- In code, right after a `/`. -/
  | slash
  | block
  /-- In a block comment, right after a `*` that does not belong to its opening. -/
  | star
  | line
  deriving DecidableEq, Repr

namespace Lexer

/-- Reads one character. -/
def step : Lexer → Char → Lexer
  | code, c => if c = '/' then slash else code
  | slash, c => if c = '*' then block else if c = '/' then line else code
  | block, c => if c = '*' then star else block
  | star, c => if c = '/' then code else if c = '*' then star else block
  | line, _ => line

/-- Reads a text. -/
def run (s : Lexer) (t : Text) : Lexer := t.foldl step s

/-- The region that a state belongs to. Half a delimiter decides nothing yet. -/
def region : Lexer → Region
  | code | slash => .code
  | block | star => .block
  | line => .line

/-- The state at the start of a line. -/
def start (inBlock : Bool) : Lexer := if inBlock then block else code

@[simp] theorem start_true : start true = block := rfl

@[simp] theorem start_false : start false = code := rfl

@[simp] theorem run_nil (s : Lexer) : run s [] = s := rfl

@[simp] theorem run_cons (s : Lexer) (c : Char) (t : Text) :
    run s (c :: t) = run (step s c) t := rfl

theorem run_append (s : Lexer) (t u : Text) : run s (t ++ u) = run (run s t) u :=
  List.foldl_append

@[simp] theorem run_line (t : Text) : run line t = line := by
  induction t with
  | nil => rfl
  | cons c t ih => exact ih

end Lexer

namespace Comment

/-! ## The scanner, one character at a time

The scanner restarts after each delimiter, so its own recursion gives equations by character: a
delimiter at the front is consumed, and any other character is dropped. -/

/-- Unfolding equation for a scan that starts in a block comment. -/
theorem scan_true_eq (t : Text) :
    scan true t =
      match Text.cut closer t with
      | some (_, rest) => scan false rest
      | none => .block := by
  conv_lhs => rw [scan]
  cases Text.cut closer t <;> rfl

/-- Unfolding equation for a scan that starts in code. -/
theorem scan_false_eq (t : Text) :
    scan false t =
      match Text.cut opener t with
      | some (before, rest) =>
        if (Text.cut lineMark t).all fun (unmarked, _) => before.length < unmarked.length then
          scan true rest
        else .line
      | none => if (Text.cut lineMark t).isSome then .line else .code := by
  conv_lhs => rw [scan]
  cases Text.cut opener t <;> rfl

theorem scan_code_cons {c : Char} {t : Text} (hopen : opener.isPrefixOf (c :: t) = false)
    (hmark : lineMark.isPrefixOf (c :: t) = false) : scan false (c :: t) = scan false t := by
  rw [scan_false_eq, scan_false_eq]
  simp only [Text.cut, hopen, hmark, Bool.false_eq_true, if_false]
  cases Text.cut opener t with
  | none => cases Text.cut lineMark t <;> rfl
  | some parts => cases Text.cut lineMark t <;> simp

theorem scan_code_opener (t : Text) : scan false ('/' :: '*' :: t) = scan true t := by
  rw [scan_false_eq]
  have hopen : Text.cut opener ('/' :: '*' :: t) = some ([], t) := by
    simp [Text.cut, opener]
  -- a line mark further right starts after the opening
  have hmark : ∀ parts, Text.cut lineMark ('/' :: '*' :: t) = some parts → 0 < parts.1.length := by
    simp only [Text.cut, lineMark]
    rintro _ h
    obtain ⟨⟨before, after⟩, _, rfl⟩ := Option.map_eq_some_iff.1 h
    simp
  rw [hopen]
  cases hcut : Text.cut lineMark ('/' :: '*' :: t) with
  | none => rfl
  | some parts => simp [hmark parts hcut]

theorem scan_code_lineMark (t : Text) : scan false ('/' :: '/' :: t) = .line := by
  rw [scan_false_eq]
  have hmark : Text.cut lineMark ('/' :: '/' :: t) = some ([], t) := by
    simp [Text.cut, lineMark]
  rw [hmark]
  cases Text.cut opener ('/' :: '/' :: t) <;> simp

theorem scan_block_closer (t : Text) : scan true ('*' :: '/' :: t) = scan false t := by
  rw [scan_true_eq]
  simp [Text.cut, closer]

theorem scan_block_cons {c : Char} {t : Text} (h : closer.isPrefixOf (c :: t) = false) :
    scan true (c :: t) = scan true t := by
  rw [scan_true_eq, scan_true_eq]
  simp only [Text.cut, h, Bool.false_eq_true, if_false]
  cases Text.cut closer t <;> rfl

/-! ## Agreement

The induction carries one equation for each state that is not a line comment; the states with half a
delimiter stand for the scan of a text that starts with it. -/

theorem scan_eq_run_all (t : Text) :
    (scan false t = (Lexer.run .code t).region ∧ scan true t = (Lexer.run .block t).region) ∧
      scan false ('/' :: t) = (Lexer.run .slash t).region ∧
        scan true ('*' :: t) = (Lexer.run .star t).region := by
  -- the characters that are no part of a delimiter, by the character in front of them
  have hslash {c : Char} {t : Text} (hs : c ≠ '*') (hl : c ≠ '/') :
      scan false ('/' :: c :: t) = scan false (c :: t) := by
    apply scan_code_cons
    · simp [opener, List.isPrefixOf, hs.symm]
    · simp [lineMark, List.isPrefixOf, hl.symm]
  have hcode {c : Char} {t : Text} (hl : c ≠ '/') : scan false (c :: t) = scan false t := by
    apply scan_code_cons
    · simp [opener, List.isPrefixOf, hl.symm]
    · simp [lineMark, List.isPrefixOf, hl.symm]
  have hblock {c : Char} {t : Text} (hs : c ≠ '*') : scan true (c :: t) = scan true t :=
    scan_block_cons (by simp [closer, List.isPrefixOf, hs.symm])
  have hstar {c : Char} {t : Text} (hl : c ≠ '/') :
      scan true ('*' :: c :: t) = scan true (c :: t) :=
    scan_block_cons (by simp [closer, List.isPrefixOf, hl.symm])
  induction t with
  | nil =>
    refine ⟨⟨?_, ?_⟩, ?_, ?_⟩
    · rw [scan_false_eq]; rfl
    · rw [scan_true_eq]; rfl
    · rw [scan_false_eq]; rfl
    · rw [scan_true_eq]; rfl
  | cons c t ih =>
    obtain ⟨⟨ihcode, ihblock⟩, ihslash, ihstar⟩ := ih
    by_cases hl : c = '/'
    · subst hl
      refine ⟨⟨ihslash, ?_⟩, ?_, ?_⟩
      · rw [hblock (by decide), ihblock]; rfl
      · rw [scan_code_lineMark]; simp [Lexer.step, Lexer.region]
      · rw [scan_block_closer, ihcode]; rfl
    · by_cases hs : c = '*'
      · subst hs
        refine ⟨⟨?_, ihstar⟩, ?_, ?_⟩
        · rw [hcode hl, ihcode]; rfl
        · rw [scan_code_opener, ihblock]; rfl
        · rw [hstar hl, ihstar]; rfl
      · refine ⟨⟨?_, ?_⟩, ?_, ?_⟩
        · rw [hcode hl, ihcode]; simp [Lexer.step, hl]
        · rw [hblock hs, ihblock]; simp [Lexer.step, hs]
        · rw [hslash hs hl, hcode hl, ihcode]; simp [Lexer.step, hl, hs]
        · rw [hstar hl, hblock hs, ihblock]; simp [Lexer.step, hl, hs]

/-- **The scanner is the automaton.** What a scan says about the end of a text is the region of the
state that the automaton ends in. -/
theorem scan_eq_region_run (inBlock : Bool) (t : Text) :
    scan inBlock t = (Lexer.run (Lexer.start inBlock) t).region := by
  cases inBlock with
  | false => exact (scan_eq_run_all t).1.1
  | true => exact (scan_eq_run_all t).1.2

theorem hides_eq_run (inBlock : Bool) (before : Text) :
    hides inBlock before = ((Lexer.run (Lexer.start inBlock) before).region != .code) := by
  rw [hides, scan_eq_region_run]

theorem advance_eq_run (inBlock : Bool) (line : Text) :
    advance inBlock line = ((Lexer.run (Lexer.start inBlock) line).region == .block) := by
  rw [advance, scan_eq_region_run]

/-! ## Several lines -/

@[simp] theorem advanceAll_nil (inBlock : Bool) : advanceAll inBlock [] = inBlock := rfl

@[simp] theorem advanceAll_cons (inBlock : Bool) (line : Text) (lines : List Text) :
    advanceAll inBlock (line :: lines) = advanceAll (advance inBlock line) lines := rfl

theorem advanceAll_append (inBlock : Bool) (lines rest : List Text) :
    advanceAll inBlock (lines ++ rest) = advanceAll (advanceAll inBlock lines) rest :=
  List.foldl_append

theorem advanceAll_concat (inBlock : Bool) (lines : List Text) (line : Text) :
    advanceAll inBlock (lines ++ [line]) = advance (advanceAll inBlock lines) line :=
  advanceAll_append inBlock lines [line]

theorem advanceAll_take_succ {lines : List Text} {i : Nat} {line : Text} (inBlock : Bool)
    (h : lines[i]? = some line) :
    advanceAll inBlock (lines.take (i + 1)) = advance (advanceAll inBlock (lines.take i)) line := by
  rw [List.take_add_one, h, advanceAll_append]
  rfl

/-! ## Texts without a delimiter

Without `*/` a block comment goes on, and without `/*` none starts. The inductions carry the state
with half a delimiter along, for the text that starts with that half. -/

theorem run_block_of_not_closer {t : Text} (h : ¬closer <:+: t) :
    Lexer.run .block t = .block ∨ Lexer.run .block t = .star := by
  suffices hall : (¬closer <:+: t → (Lexer.run .block t = .block ∨ Lexer.run .block t = .star)) ∧
      (¬closer <:+: '*' :: t → (Lexer.run .star t = .block ∨ Lexer.run .star t = .star)) from
    hall.1 h
  clear h
  induction t with
  | nil => exact ⟨fun _ => .inl rfl, fun _ => .inr rfl⟩
  | cons c t ih =>
    have hrest (h : ¬closer <:+: c :: t) : ¬closer <:+: t :=
      fun hin => h (List.infix_cons_iff.2 (.inr hin))
    refine ⟨fun h => ?_, fun h => ?_⟩
    · by_cases hs : c = '*'
      · subst hs
        exact ih.2 h
      · simpa [Lexer.step, hs] using ih.1 (hrest h)
    · have htail : ¬closer <:+: c :: t := fun hin => h (List.infix_cons_iff.2 (.inr hin))
      -- a `/` right after the star would complete the delimiter
      have hl : c ≠ '/' := by
        rintro rfl
        exact h ⟨[], t, rfl⟩
      by_cases hs : c = '*'
      · subst hs
        exact ih.2 htail
      · simpa [Lexer.step, hs, hl] using ih.1 (hrest htail)

theorem run_code_of_not_opener {t : Text} (h : ¬opener <:+: t) :
    (Lexer.run .code t).region ≠ .block := by
  suffices hall : (¬opener <:+: t → (Lexer.run .code t).region ≠ .block) ∧
      (¬opener <:+: '/' :: t → (Lexer.run .slash t).region ≠ .block) from hall.1 h
  clear h
  induction t with
  | nil => exact ⟨fun _ => by decide, fun _ => by decide⟩
  | cons c t ih =>
    have hrest (h : ¬opener <:+: c :: t) : ¬opener <:+: t :=
      fun hin => h (List.infix_cons_iff.2 (.inr hin))
    refine ⟨fun h => ?_, fun h => ?_⟩
    · by_cases hl : c = '/'
      · subst hl
        exact ih.2 h
      · simpa [Lexer.step, hl] using ih.1 (hrest h)
    · have htail : ¬opener <:+: c :: t := fun hin => h (List.infix_cons_iff.2 (.inr hin))
      have hs : c ≠ '*' := by
        rintro rfl
        exact h ⟨[], t, rfl⟩
      by_cases hl : c = '/'
      · subst hl
        simp [Lexer.step, Lexer.region]
      · simpa [Lexer.step, hs, hl] using ih.1 (hrest htail)

theorem run_code_of_slash_notMem {t : Text} (h : '/' ∉ t) : Lexer.run .code t = .code := by
  induction t with
  | nil => rfl
  | cons c t ih =>
    obtain ⟨hc, ht⟩ : '/' ≠ c ∧ '/' ∉ t := by simpa using h
    rw [Lexer.run_cons, Lexer.step, if_neg hc.symm]
    exact ih ht

/-- A text without the characters of delimiters leaves the region as it is. -/
theorem region_run_of_notMem {t : Text} (hslash : '/' ∉ t) (hstar : '*' ∉ t) (s : Lexer) :
    (s.run t).region = s.region := by
  induction t generalizing s with
  | nil => rfl
  | cons c t ih =>
    obtain ⟨hc, ht⟩ : '/' ≠ c ∧ '/' ∉ t := by simpa using hslash
    obtain ⟨hc', ht'⟩ : '*' ≠ c ∧ '*' ∉ t := by simpa using hstar
    rw [Lexer.run_cons, ih ht ht']
    cases s <;> simp [Lexer.step, hc.symm, hc'.symm, Lexer.region]

/-- Whether no block comment starts or ends in a text. -/
def blockFree (t : Text) : Bool := !opener.occursIn t && !closer.occursIn t

theorem blockFree_iff {t : Text} : blockFree t = true ↔ ¬opener <:+: t ∧ ¬closer <:+: t := by
  simp [blockFree, Text.occursIn_eq_false_iff]

/-- Whether no comment starts or ends in a text. -/
def free (t : Text) : Bool := blockFree t && !lineMark.occursIn t

theorem free_iff {t : Text} :
    free t = true ↔ ¬opener <:+: t ∧ ¬closer <:+: t ∧ ¬lineMark <:+: t := by
  simp [free, blockFree_iff, Text.occursIn_eq_false_iff, and_assoc]

theorem free_of_isInfix {s t : Text} (hin : s <:+: t) (h : free t = true) : free s = true := by
  obtain ⟨hopener, hcloser, hmark⟩ := free_iff.1 h
  exact free_iff.2 ⟨fun hs => hopener (hs.trans hin), fun hs => hcloser (hs.trans hin),
    fun hs => hmark (hs.trans hin)⟩

/-- Code without delimiters stays code; only a `/` at its end is left to be decided. -/
theorem run_code_of_free {t : Text} (h : free t = true) :
    Lexer.run .code t = .code ∨ Lexer.run .code t = .slash ∧ t.getLast? = some '/' := by
  induction t using List.reverseRecOn with
  | nil => exact .inl rfl
  | append_singleton t c ih =>
    have hstep : Lexer.run .code (t ++ [c]) = (Lexer.run .code t).step c := by
      rw [Lexer.run_append]
      rfl
    rw [hstep]
    rcases ih (free_of_isInfix ⟨[], [c], rfl⟩ h) with hcode | ⟨hslash, hlast⟩
    · rw [hcode]
      by_cases hc : c = '/'
      · exact .inr ⟨by simp [Lexer.step, hc], by simp [hc]⟩
      · exact .inl (by simp [Lexer.step, hc])
    · -- the last character would complete a delimiter with the `/` before it
      obtain ⟨u, rfl⟩ : ∃ u, t = u ++ ['/'] := List.getLast?_eq_some_iff.1 hlast
      obtain ⟨hopener, -, hmark⟩ := free_iff.1 h
      have hstar : c ≠ '*' := by
        rintro rfl
        exact hopener ⟨u, [], by simp [opener]⟩
      have hc : c ≠ '/' := by
        rintro rfl
        exact hmark ⟨u, [], by simp [lineMark]⟩
      exact .inl (by rw [hslash]; simp [Lexer.step, hstar, hc])

theorem region_run_code_of_free {t : Text} (h : free t = true) :
    (Lexer.run .code t).region = .code := by
  rcases run_code_of_free h with hrun | ⟨hrun, -⟩ <;> rw [hrun] <;> rfl

/-- A block comment stays open over a line without `*/`. -/
theorem advance_true_of_not_closer {line : Text} (h : ¬closer <:+: line) :
    advance true line = true := by
  rw [advance_eq_run]
  rcases run_block_of_not_closer h with hrun | hrun <;> simp [hrun, Lexer.region]

/-- No block comment is open after a line without `/*`, if none was before. -/
theorem advance_false_of_not_opener {line : Text} (h : ¬opener <:+: line) :
    advance false line = false := by
  rw [advance_eq_run]
  simpa using run_code_of_not_opener h

/-- A state that every line keeps is kept by all of them. -/
theorem advanceAll_of_forall {inBlock : Bool} {lines : List Text}
    (h : ∀ line ∈ lines, advance inBlock line = inBlock) : advanceAll inBlock lines = inBlock := by
  induction lines with
  | nil => rfl
  | cons line lines ih =>
    rw [advanceAll_cons, h line (by simp)]
    exact ih fun l hl => h l (by simp [hl])

theorem advanceAll_true_of_not_closer {lines : List Text} (h : ∀ line ∈ lines, ¬closer <:+: line) :
    advanceAll true lines = true :=
  advanceAll_of_forall fun line hline => advance_true_of_not_closer (h line hline)

theorem advanceAll_false_of_not_opener {lines : List Text} (h : ∀ line ∈ lines, ¬opener <:+: line) :
    advanceAll false lines = false :=
  advanceAll_of_forall fun line hline => advance_false_of_not_opener (h line hline)

theorem advanceAll_false_of_blockFree {lines : List Text}
    (h : ∀ line ∈ lines, blockFree line = true) : advanceAll false lines = false :=
  advanceAll_false_of_not_opener fun line hline => (blockFree_iff.1 (h line hline)).1

/-- A place on a line that starts in a block comment is code only after a `*/`. -/
theorem closer_infix_of_not_hides {before : Text} (h : hides true before = false) :
    closer <:+: before := by
  by_contra hfree
  rw [hides_eq_run] at h
  rcases run_block_of_not_closer hfree with hrun | hrun <;> simp [hrun, Lexer.region] at h

end Comment

end ContractLint
