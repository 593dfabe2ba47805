import ContractLint.Coverage.FileIdentifier
import ContractLint.Proofs.Text.Occurrence
import Mathlib.Data.List.Infix

/-!
# Lines that declare a file identifier

A declaration is its words, the blanks between them and a quoted name (`Declaration.text`), and a
line can be taken for one in as many ways as it can be cut into such parts. The reader does not try
them out. It takes one word after the other off the front, each with all the blanks behind it, and
skips a visibility whenever it meets one.

Nothing is lost by that, for two reasons. No part that follows blanks starts with a blank, so
leaving some of them for later would not help (`afterSpacedWord?_eq_some_iff`). And of the words
that may stand before `constant` and `constant` itself none starts another, so a line allows one of
them only (`eq_of_starts`). Therefore the reader finds the name of every declaration
(`declared?_text`) and finds nothing else (`exists_declaration`).
-/

namespace ContractLint.Coverage.FileIdentifier

/-! ## The parts of a declaration -/

/-- A run of blanks, which may be empty. -/
structure Blanks where
  text : Text
  all_isBlank : text.all Text.isBlank = true

/-- A run of at least one blank. -/
structure Gap extends Blanks where
  ne_nil : text ≠ []

/-- A word that may stand before `constant`, with the blanks behind it. -/
structure Visibility where
  word : Text
  gap : Gap
  mem_visibilities : word ∈ visibilities

/-- The parts of a line that declares an identifier, in the order in which they stand there. -/
structure Declaration where
  indent : Blanks
  typeGap : Gap
  visibility : Option Visibility
  constantGap : Gap
  beforeSign : Blanks
  afterSign : Blanks
  name : Text
  rest : Text
  unquoted : '"' ∉ name

/-- How an optional visibility is written. -/
def visibilityText : Option Visibility → Text
  | none => []
  | some v => v.word ++ v.gap.text

namespace Declaration

/-- The line from the quoted name on. -/
def value (d : Declaration) : Text := List.flatten ["\"", d.name, "\"", d.rest]

/-- The line from the declared variable on. -/
def assignment (d : Declaration) : Text :=
  List.flatten ["FILE", d.beforeSign.text, "=", d.afterSign.text, d.value]

/-- The line that the parts make up. -/
def text (d : Declaration) : Text :=
  List.flatten [d.indent.text, "bytes32", d.typeGap.text, visibilityText d.visibility, "constant",
    d.constantGap.text, d.assignment]

theorem value_eq (d : Declaration) : d.value = ("\"" : Text) ++ (d.name ++ '"' :: d.rest) := by
  simp [value]

theorem assignment_eq (d : Declaration) :
    d.assignment = ("FILE" : Text) ++
      (d.beforeSign.text ++ (("=" : Text) ++ (d.afterSign.text ++ d.value))) := by
  simp [assignment]

theorem text_eq (d : Declaration) :
    d.text = d.indent.text ++ (("bytes32" : Text) ++ (d.typeGap.text ++
      (visibilityText d.visibility ++ (("constant" : Text) ++
        (d.constantGap.text ++ d.assignment))))) := by
  simp [text]

end Declaration

/-! ## Blanks -/

/-- The blanks that a text starts with. -/
def leading (t : Text) : Blanks where
  text := t.indent
  all_isBlank := List.all_eq_true.2 fun _ => Text.isBlank_of_mem_indent

theorem leading_append_trimStart (t : Text) : (leading t).text ++ t.trimStart = t :=
  Text.indent_append_trimStart t

/-- Trimming takes a run of blanks and stops at a text that starts with none. -/
theorem Blanks.trimStart_append (b : Blanks) {t : Text} (ht : t.trimStart = t) :
    Text.trimStart (b.text ++ t) = t := by
  rw [Text.trimStart_append_of_blank (List.all_eq_true.1 b.all_isBlank), ht]

/-! ## Words -/

theorem afterWord?_eq_some_iff {word t rest : Text} :
    afterWord? word t = some rest ↔ t = word ++ rest := by
  rw [afterWord?, Option.ite_none_right_eq_some, List.isPrefixOf_iff_prefix]
  constructor
  · rintro ⟨⟨r, rfl⟩, h⟩
    rw [List.drop_left] at h
    rw [Option.some.inj h]
  · rintro rfl
    exact ⟨List.prefix_append word rest, by rw [List.drop_left]⟩

/-- A word with blanks behind it is read together with all of them. -/
theorem afterSpacedWord?_eq_some_iff {word t rest : Text} :
    afterSpacedWord? word t = some rest ↔
      (∃ gap : Gap, t = word ++ (gap.text ++ rest)) ∧ rest.trimStart = rest := by
  have hread : afterSpacedWord? word t = some rest ↔ ∃ behind, afterWord? word t = some behind ∧
      behind.trimStart.length < behind.length ∧ some behind.trimStart = some rest := by
    simp only [afterSpacedWord?, Option.bind_eq_bind, Option.bind_eq_some_iff,
      Option.ite_none_right_eq_some]
  rw [hread]
  constructor
  · rintro ⟨behind, hword, hshorter, htrim⟩
    obtain rfl : behind.trimStart = rest := Option.some.inj htrim
    have hgap : (leading behind).text ≠ [] := by
      intro hnil
      have hsame := leading_append_trimStart behind
      rw [hnil, List.nil_append] at hsame
      rw [hsame] at hshorter
      exact Nat.lt_irrefl _ hshorter
    refine ⟨⟨⟨leading behind, hgap⟩, ?_⟩, Text.trimStart_trimStart behind⟩
    rw [leading_append_trimStart]
    exact afterWord?_eq_some_iff.1 hword
  · rintro ⟨⟨gap, rfl⟩, hsolid⟩
    refine ⟨gap.text ++ rest, afterWord?_eq_some_iff.2 rfl, ?_, ?_⟩
    · rw [gap.trimStart_append hsolid, List.length_append]
      have hpos := List.length_pos_iff.2 gap.ne_nil
      omega
    · rw [gap.trimStart_append hsolid]

/-! ## The visibility -/

/-- The words of which one stands behind the type. -/
def keywords : List Text := "constant" :: visibilities

theorem eq_of_keyword_isPrefix : ∀ w ∈ keywords, ∀ w' ∈ keywords, w <+: w' → w = w' := by
  decide

/-- A keyword does not start with a blank. -/
theorem trimStart_keyword {w : Text} (hw : w ∈ keywords) (t : Text) :
    Text.trimStart (w ++ t) = w ++ t := by
  simp only [keywords, visibilities, List.mem_cons, List.not_mem_nil, or_false] at hw
  rcases hw with rfl | rfl | rfl | rfl <;> rfl

/-- A text starts with one keyword at most. -/
theorem eq_of_starts {w w' t : Text} (hw : w ∈ keywords) (hw' : w' ∈ keywords) (h : w <+: t)
    (h' : w' <+: t) : w = w' := by
  rcases List.prefix_or_prefix_of_prefix h h' with hshort | hlong
  · exact eq_of_keyword_isPrefix w hw w' hw' hshort
  · exact (eq_of_keyword_isPrefix w' hw' w hw hlong).symm

/-- A visibility that is read off a text is the keyword that the text starts with. -/
theorem eq_of_afterSpacedWord? {w word t rest : Text} (hw : w ∈ keywords) (hstarts : w <+: t)
    (hmem : word ∈ visibilities) (h : afterSpacedWord? word t = some rest) : word = w := by
  obtain ⟨⟨gap, rfl⟩, -⟩ := afterSpacedWord?_eq_some_iff.1 h
  exact eq_of_starts (List.mem_cons_of_mem _ hmem) hw (List.prefix_append word _) hstarts

/-- What is skipped is a visibility, or nothing. -/
theorem exists_visibility (t : Text) :
    ∃ v : Option Visibility, visibilityText v ++ skipVisibility t = t := by
  unfold skipVisibility
  cases hfound : visibilities.findSome? (afterSpacedWord? · t) with
  | none => exact ⟨none, rfl⟩
  | some rest =>
    obtain ⟨word, hmem, hword⟩ := List.exists_of_findSome?_eq_some hfound
    obtain ⟨⟨gap, ht⟩, -⟩ := afterSpacedWord?_eq_some_iff.1 hword
    refine ⟨some ⟨word, gap, hmem⟩, ?_⟩
    rw [ht, visibilityText, Option.getD_some, List.append_assoc]

/-- The word `constant` is not taken for a visibility. -/
theorem skipVisibility_constant (rest : Text) :
    skipVisibility (("constant" : Text) ++ rest) = ("constant" : Text) ++ rest := by
  have hnone : visibilities.findSome? (afterSpacedWord? · (("constant" : Text) ++ rest)) = none := by
    rw [List.findSome?_eq_none_iff]
    intro word hmem
    refine Option.eq_none_iff_forall_ne_some.2 fun behind hword => ?_
    obtain rfl : word = "constant" :=
      eq_of_afterSpacedWord? (List.mem_cons_self ..) (List.prefix_append _ rest) hmem hword
    exact absurd hmem (by decide)
  rw [skipVisibility, hnone, Option.getD_none]

/-- A visibility is skipped with the blanks behind it, for no other one starts the same text. -/
theorem skipVisibility_append (v : Visibility) {rest : Text} (hrest : rest.trimStart = rest) :
    skipVisibility (v.word ++ (v.gap.text ++ rest)) = rest := by
  have hread : afterSpacedWord? v.word (v.word ++ (v.gap.text ++ rest)) = some rest :=
    afterSpacedWord?_eq_some_iff.2 ⟨⟨v.gap, rfl⟩, hrest⟩
  unfold skipVisibility
  cases hfound : visibilities.findSome? (afterSpacedWord? · (v.word ++ (v.gap.text ++ rest))) with
  | none =>
    rw [List.findSome?_eq_none_iff.1 hfound v.word v.mem_visibilities] at hread
    cases hread
  | some behind =>
    obtain ⟨word, hmem, hword⟩ := List.exists_of_findSome?_eq_some hfound
    obtain rfl : word = v.word :=
      eq_of_afterSpacedWord? (List.mem_cons_of_mem _ v.mem_visibilities) (List.prefix_append ..)
        hmem hword
    rw [hword] at hread
    rw [Option.getD_some, Option.some.inj hread]

theorem skipVisibility_visibilityText (v : Option Visibility) (rest : Text) :
    skipVisibility (visibilityText v ++ (("constant" : Text) ++ rest)) =
      ("constant" : Text) ++ rest := by
  cases v with
  | none => exact skipVisibility_constant rest
  | some v =>
    rw [visibilityText, List.append_assoc]
    exact skipVisibility_append v (trimStart_keyword (List.mem_cons_self ..) rest)

/-- The text behind the type starts with a keyword. -/
theorem trimStart_visibilityText (v : Option Visibility) (rest : Text) :
    Text.trimStart (visibilityText v ++ (("constant" : Text) ++ rest)) =
      visibilityText v ++ (("constant" : Text) ++ rest) := by
  cases v with
  | none => exact trimStart_keyword (List.mem_cons_self ..) rest
  | some v =>
    rw [visibilityText, List.append_assoc]
    exact trimStart_keyword (List.mem_cons_of_mem _ v.mem_visibilities) _

/-! ## The name -/

theorem cut_quote_eq_some_iff {t name rest : Text} :
    Text.cut ['"'] t = some (name, rest) ↔ '"' ∉ name ∧ t = name ++ '"' :: rest := by
  constructor
  · intro h
    have hfirst := Text.not_infix_of_cut (List.cons_ne_nil _ _) h
    rw [List.singleton_infix_iff] at hfirst
    refine ⟨hfirst, ?_⟩
    rw [Text.cut_eq_some_append h, List.append_assoc]
    rfl
  · rintro ⟨hname, rfl⟩
    have hquote : Text.cut ['"'] ('"' :: rest) = some ([], rest) := by simp [Text.cut]
    rw [Text.cut_append_of_notMem hname, hquote]
    simp

/-! ## Declarations -/

/-- **The reader finds the name of every declaration.** -/
theorem declared?_text (d : Declaration) : declared? d.text = some d.name := by
  have htype : afterSpacedWord? "bytes32" d.text.trimStart = some (visibilityText d.visibility ++
      (("constant" : Text) ++ (d.constantGap.text ++ d.assignment))) := by
    rw [d.text_eq, d.indent.trimStart_append rfl]
    exact afterSpacedWord?_eq_some_iff.2 ⟨⟨d.typeGap, rfl⟩, trimStart_visibilityText ..⟩
  have hconstant : afterSpacedWord? "constant" (skipVisibility (visibilityText d.visibility ++
      (("constant" : Text) ++ (d.constantGap.text ++ d.assignment)))) = some d.assignment := by
    rw [skipVisibility_visibilityText]
    refine afterSpacedWord?_eq_some_iff.2 ⟨⟨d.constantGap, rfl⟩, ?_⟩
    rw [d.assignment_eq]
    rfl
  have hfile := afterWord?_eq_some_iff.2 d.assignment_eq
  have hsign : afterWord? "=" (Text.trimStart (d.beforeSign.text ++
      (("=" : Text) ++ (d.afterSign.text ++ d.value)))) = some (d.afterSign.text ++ d.value) := by
    rw [d.beforeSign.trimStart_append rfl]
    exact afterWord?_eq_some_iff.2 rfl
  have hquote : afterWord? "\"" (Text.trimStart (d.afterSign.text ++ d.value)) =
      some (d.name ++ '"' :: d.rest) := by
    rw [d.value_eq, d.afterSign.trimStart_append rfl]
    exact afterWord?_eq_some_iff.2 rfl
  have hname : Text.cut ['"'] (d.name ++ '"' :: d.rest) = some (d.name, d.rest) :=
    cut_quote_eq_some_iff.2 ⟨d.unquoted, rfl⟩
  simp only [declared?, Option.bind_eq_bind, Option.bind_eq_some_iff]
  exact ⟨_, htype, _, hconstant, _, hfile, _, hsign, _, hquote, _, hname, rfl⟩

/-- **The reader finds nothing but declarations.** -/
theorem exists_declaration {line name : Text} (h : declared? line = some name) :
    ∃ d : Declaration, d.text = line ∧ d.name = name := by
  simp only [declared?, Option.bind_eq_bind, Option.bind_eq_some_iff, Option.some.injEq] at h
  obtain ⟨behindType, htype, assignment, hconstant, behindFile, hfile, behindSign, hsign, quoted,
    hquote, ⟨found, rest⟩, hcut, rfl⟩ := h
  obtain ⟨⟨typeGap, htype⟩, -⟩ := afterSpacedWord?_eq_some_iff.1 htype
  obtain ⟨visibility, hvisibility⟩ := exists_visibility behindType
  obtain ⟨⟨constantGap, hconstant⟩, -⟩ := afterSpacedWord?_eq_some_iff.1 hconstant
  rw [afterWord?_eq_some_iff] at hfile hsign hquote
  obtain ⟨hunquoted, hquoted⟩ := cut_quote_eq_some_iff.1 hcut
  let d : Declaration :=
    { indent := leading line, typeGap, visibility, constantGap, beforeSign := leading behindFile,
      afterSign := leading behindSign, name := found, rest, unquoted := hunquoted }
  have hvalue : d.value = behindSign.trimStart := by
    rw [d.value_eq, hquote, hquoted]
  have hassignment : d.assignment = assignment := by
    rw [d.assignment_eq, hvalue, leading_append_trimStart, ← hsign, leading_append_trimStart, hfile]
  refine ⟨d, ?_, rfl⟩
  rw [d.text_eq, hassignment, ← hconstant, hvisibility, ← htype, leading_append_trimStart]

/-- **A line declares a name exactly if it is a declaration of that name**, and it is a declaration
of one name only. -/
theorem declaration_read_iff (line : Text) :
    (∀ name, declared? line = some name ↔ ∃ d : Declaration, d.text = line ∧ d.name = name) ∧
      ∀ d d' : Declaration, d.text = line → d'.text = line → d.name = d'.name := by
  refine ⟨fun name => ⟨exists_declaration, ?_⟩, fun d d' hd hd' => ?_⟩
  · rintro ⟨d, rfl, rfl⟩
    exact declared?_text d
  · have hread := declared?_text d
    rw [hd, ← hd', declared?_text d'] at hread
    exact (Option.some.inj hread).symm

-- blanks may be missing around the sign, but not behind a word
example : declared? "bytes32 constant FILE=\"Vault\"" = some "Vault" := by decide

example : declared? "bytes32 privateconstant FILE = \"Vault\"" = none := by decide

/-- A declaration with a visibility and with quotes behind the name, one of its gaps a no-break
space. -/
def vaultDeclaration : Declaration where
  indent := ⟨"\t", by decide⟩
  typeGap := ⟨⟨"\u00a0", by decide⟩, by decide⟩
  visibility := some ⟨"internal", ⟨⟨"  ", by decide⟩, by decide⟩, by decide⟩
  constantGap := ⟨⟨" ", by decide⟩, by decide⟩
  beforeSign := ⟨[], by decide⟩
  afterSign := ⟨" ", by decide⟩
  name := "Vault"
  rest := "; // \"Safe\""
  unquoted := by decide

/-- The line of that declaration. -/
def vaultLine : Text := "\tbytes32\u00a0internal  constant FILE= \"Vault\"; // \"Safe\""

theorem declaration_read_iff_vaultLine :
    vaultDeclaration.text = vaultLine ∧ declared? vaultLine = some "Vault" ∧
      ∀ d : Declaration, d.text = vaultLine → d.name = "Vault" := by
  have htext : vaultDeclaration.text = vaultLine := by decide
  refine ⟨htext, ?_, fun d hd => ?_⟩
  · exact ((declaration_read_iff vaultLine).1 "Vault").2 ⟨vaultDeclaration, htext, rfl⟩
  · exact (declaration_read_iff vaultLine).2 d vaultDeclaration hd htext

end ContractLint.Coverage.FileIdentifier
