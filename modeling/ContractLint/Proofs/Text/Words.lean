import ContractLint.Proofs.Text.Occurrence

/-!
# Where the words of a text stand

Words are what is left between blanks. A text with a word in it is its indentation, the word and a
rest that a blank starts (`words_of_firstWord_ne_nil`), so the place of a word is found by taking
words off the front (`beforeWord?`).
-/

namespace ContractLint.Text

/-! ## Pieces -/

/-- A piece is made of characters of the text that are no breaks. -/
theorem mem_of_mem_pieces {isBreak : Char → Bool} {t w : Text} (h : w ∈ pieces isBreak t)
    {c : Char} (hc : c ∈ w) : c ∈ t ∧ isBreak c = false := by
  induction t generalizing w with
  | nil =>
    obtain rfl : w = [] := by simpa [pieces] using h
    cases hc
  | cons a t ih =>
    have hlater {u : Text} (hu : u ∈ pieces isBreak t) (hcu : c ∈ u) :
        c ∈ a :: t ∧ isBreak c = false :=
      ⟨List.mem_cons_of_mem _ (ih hu hcu).1, (ih hu hcu).2⟩
    rw [pieces] at h
    split at h
    · rcases List.mem_cons.1 h with rfl | h
      · cases hc
      · exact hlater h hc
    · next hbreak =>
      cases hpieces : pieces isBreak t with
      | nil => simp [hpieces] at h
      | cons first rest =>
        rw [hpieces, List.modifyHead_cons] at h
        rcases List.mem_cons.1 h with rfl | h
        · rcases List.mem_cons.1 hc with rfl | hc
          · exact ⟨List.mem_cons_self .., by simpa using hbreak⟩
          · exact hlater (by simp [hpieces]) hc
        · exact hlater (by simp [hpieces, h]) hc

/-- What stands before the first break goes in front of the first piece. -/
theorem pieces_append {isBreak : Char → Bool} {w : Text} (h : ∀ c ∈ w, isBreak c = false)
    (t : Text) : pieces isBreak (w ++ t) = (pieces isBreak t).modifyHead (w ++ ·) := by
  induction w with
  | nil =>
    rw [List.nil_append]
    cases pieces isBreak t <;> rfl
  | cons c w ih =>
    rw [List.forall_mem_cons] at h
    rw [List.cons_append, pieces, h.1, if_neg Bool.false_ne_true, ih h.2]
    cases pieces isBreak t <;> rfl

/-! ## Words -/

/-- Leading blanks hold no word. -/
theorem words_trimStart (t : Text) : t.trimStart.words = t.words := by
  induction t with
  | nil => rfl
  | cons c t ih =>
    cases hc : isBlank c with
    | false =>
      have htrim : trimStart (c :: t) = c :: t := by simp [trimStart, hc]
      rw [htrim]
    | true =>
      have htrim : trimStart (c :: t) = trimStart t := by simp [trimStart, hc]
      have hwords : words (c :: t) = words t := by simp [words, pieces, hc]
      rw [htrim, hwords, ih]

theorem ne_nil_of_mem_words {t w : Text} (h : w ∈ t.words) : w ≠ [] := by
  have hword := (List.mem_filter.1 h).2
  simpa using hword

theorem isBlank_of_mem_words {t w : Text} (h : w ∈ t.words) {c : Char} (hc : c ∈ w) :
    isBlank c = false :=
  (mem_of_mem_pieces (List.mem_filter.1 h).1 hc).2

/-- The first word of a text, empty if there is none. -/
def firstWord (t : Text) : Text := t.trimStart.takeWhile (!isBlank ·)

/-- What follows the first word of a text. -/
def behindFirstWord (t : Text) : Text := t.trimStart.dropWhile (!isBlank ·)

theorem indent_append_firstWord (t : Text) :
    t.indent ++ (t.firstWord ++ t.behindFirstWord) = t := by
  rw [firstWord, behindFirstWord, List.takeWhile_append_dropWhile, indent_append_trimStart]

theorem trimStart_eq_nil_of_firstWord {t : Text} (h : t.firstWord = []) : t.trimStart = [] := by
  cases htrim : t.trimStart with
  | nil => rfl
  | cons c rest =>
    have hc : isBlank c = false := by
      have hhead := List.head?_dropWhile_not isBlank t
      rw [show t.dropWhile isBlank = c :: rest from htrim] at hhead
      simpa using hhead
    simp [firstWord, htrim, hc] at h

theorem words_of_firstWord_eq_nil {t : Text} (h : t.firstWord = []) : t.words = [] := by
  rw [← words_trimStart, trimStart_eq_nil_of_firstWord h]
  rfl

theorem words_of_firstWord_ne_nil {t : Text} (h : t.firstWord ≠ []) :
    t.words = t.firstWord :: t.behindFirstWord.words := by
  have hword : ∀ c ∈ t.firstWord, isBlank c = false := by
    intro c hc
    simpa using List.mem_takeWhile_imp hc
  -- what follows is empty or starts with a blank, so its first piece is empty
  obtain ⟨tail, htail⟩ : ∃ tail, pieces isBlank t.behindFirstWord = [] :: tail := by
    cases hrest : t.behindFirstWord with
    | nil => exact ⟨[], rfl⟩
    | cons c rest =>
      have hc : isBlank c = true := by
        have hhead := List.head?_dropWhile_not (!isBlank ·) t.trimStart
        rw [show t.trimStart.dropWhile (!isBlank ·) = c :: rest from hrest] at hhead
        simpa using hhead
      exact ⟨pieces isBlank rest, by rw [pieces, if_pos hc]⟩
  have hpieces : pieces isBlank t.trimStart = t.firstWord :: tail := by
    have hsplit : t.firstWord ++ t.behindFirstWord = t.trimStart :=
      List.takeWhile_append_dropWhile
    have happend := pieces_append hword t.behindFirstWord
    rw [hsplit, htail] at happend
    simpa using happend
  rw [← words_trimStart, words, hpieces, words, htail]
  simp [h]

/-- What stands before the word that has `n` words before it. -/
def beforeWord? : Nat → Text → Option Text
  | 0, t => if t.firstWord.isEmpty then none else some t.indent
  | n + 1, t =>
    if t.firstWord.isEmpty then none
    else (beforeWord? n t.behindFirstWord).map (t.indent ++ t.firstWord ++ ·)

/-- **A word stands behind what is before it.** -/
theorem exists_beforeWord {n : Nat} {t w : Text} (h : t.words[n]? = some w) :
    ∃ before after, beforeWord? n t = some before ∧ t = before ++ (w ++ after) ∧
      (0 < n → before ≠ []) := by
  induction n generalizing t with
  | zero =>
    by_cases hfirst : t.firstWord = []
    · rw [words_of_firstWord_eq_nil hfirst] at h
      cases h
    · rw [words_of_firstWord_ne_nil hfirst] at h
      obtain rfl : t.firstWord = w := by simpa using h
      refine ⟨t.indent, t.behindFirstWord, ?_, (indent_append_firstWord t).symm, by omega⟩
      rw [beforeWord?, if_neg (by simpa using hfirst)]
  | succ n ih =>
    by_cases hfirst : t.firstWord = []
    · rw [words_of_firstWord_eq_nil hfirst] at h
      cases h
    · rw [words_of_firstWord_ne_nil hfirst, List.getElem?_cons_succ] at h
      obtain ⟨before, after, hbefore, hrest, -⟩ := ih h
      refine ⟨t.indent ++ t.firstWord ++ before, after, ?_, ?_, fun _ => by simp [hfirst]⟩
      · rw [beforeWord?, if_neg (by simpa using hfirst), hbefore]
        rfl
      · conv_lhs => rw [← indent_append_firstWord t, hrest]
        simp only [List.append_assoc]

/-! ## Characters that are not blank -/

theorem occursIn_trimStart {c : Char} (hc : isBlank c = false) (needle t : Text) :
    occursIn (c :: needle) t.trimStart = occursIn (c :: needle) t := by
  have hindent : c ∉ t.indent := by
    intro hmem
    rw [isBlank_of_mem_indent hmem] at hc
    cases hc
  have hcut : cut (c :: needle) (t.indent ++ t.trimStart) = _ :=
    cut_append_of_notMem hindent t.trimStart
  rw [indent_append_trimStart] at hcut
  rw [occursIn, occursIn, hcut, Option.isSome_map]

theorem mem_trim_of_not_blank {c : Char} {t : Text} (hmem : c ∈ t) (hc : isBlank c = false) :
    c ∈ t.trim := by
  have hkept {u : Text} (hu : c ∈ u) : c ∈ u.dropWhile isBlank := by
    rw [← List.takeWhile_append_dropWhile (p := isBlank) (l := u)] at hu
    rcases List.mem_append.1 hu with hblank | hrest
    · rw [List.mem_takeWhile_imp hblank] at hc
      cases hc
    · exact hrest
  show c ∈ (t.trimStart.reverse.dropWhile isBlank).reverse
  exact List.mem_reverse.2 (hkept (List.mem_reverse.2 (hkept hmem)))

end ContractLint.Text
