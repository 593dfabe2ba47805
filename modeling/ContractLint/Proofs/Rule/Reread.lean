import ContractLint.Rule
import ContractLint.Proofs.Rule.ImportOrder
import ContractLint.Proofs.Source.RoundTrip

/-!
# Checking a file that was read back

A file that was put right is checked in memory, and checked again when it is read from disk. The two
may differ in an empty last line and in the line ending of a file that has none. No rule looks at
either, so both checks report the same.

## The architecture

* **`Source.Reread`** — the two files. An empty last line has no findings, rule by rule
  (`Check.findings_eq`).
* **`Check.line_le_of_mem_findings`** — rules only report lines that are there, or the first one.
* **`Reread.location_eq`** — the place of such a line is the same in both files: all line endings
  that count towards its offset are in the text.
-/

namespace ContractLint

/-! ## An empty line at the end -/

namespace DocBlock

/-- An empty line has no fault, wherever it stands. -/
theorem step_empty (b : DocBlock) : (b.step []).2 = [] := by
  -- the parts of a step, each on its own: none of their texts occurs in an empty line
  have hspacing : spacingFaults [] = [] := by decide
  have halign (b : DocBlock) : b.alignment [] = (b, []) := by
    rw [alignment, if_pos (by decide)]
  have hblank (b : DocBlock) : b.blankLine [] = (b, []) := by
    have hstar : ¬(Text.trimStart []).trimEnd = ['*'] := by decide
    have hparam : (Text.occursIn "*  param" (Text.trimStart []) ||
        Text.occursIn "* @param" (Text.trimStart [])) = false := by decide
    simp only [blankLine, if_neg hstar, hparam, Bool.and_false, Bool.false_eq_true, if_false]
  have hopen : ("/**" : Text).isPrefixOf (Text.trimStart []) = false := by decide
  simp only [step, hspacing, hopen, Bool.and_false, Bool.false_eq_true, if_false, halign, hblank]
  split <;> rfl

theorem faultsFrom_append_empty (line : Nat) (b : DocBlock) (lines : List Text) :
    faultsFrom line b (lines ++ [[]]) = faultsFrom line b lines := by
  induction lines generalizing line b with
  | nil => simp [faultsFrom, step_empty]
  | cons text rest ih => simp only [List.cons_append, faultsFrom, ih]

theorem line_of_mem_faultsFrom {line k : Nat} {b : DocBlock} {lines : List Text} {fault : DocFault}
    (h : (k, fault) ∈ faultsFrom line b lines) : line ≤ k ∧ k < line + lines.length := by
  induction lines generalizing line b with
  | nil => cases h
  | cons text rest ih =>
    rw [List.length_cons]
    rcases List.mem_append.1 h with h | h
    · obtain ⟨_, -, heq⟩ := List.mem_map.1 h
      obtain ⟨rfl, -⟩ := Prod.mk.inj heq
      omega
    · have hrest := ih h
      omega

end DocBlock

namespace Marker

theorem placesFrom_append_empty {marker : Text} (h : marker ≠ []) (line : Nat)
    (lines : List Text) :
    placesFrom marker line (lines ++ [[]]) = placesFrom marker line lines := by
  induction lines generalizing line with
  | nil =>
    have hcut : Text.cut marker [] = none := by simp [Text.cut, h]
    simp [placesFrom, hcut]
  | cons text rest ih => simp only [List.cons_append, placesFrom, ih]

theorem line_of_mem_placesFrom {marker : Text} {line k column : Nat} {lines : List Text}
    (h : (k, column) ∈ placesFrom marker line lines) : line ≤ k ∧ k < line + lines.length := by
  induction lines generalizing line with
  | nil => cases h
  | cons text rest ih =>
    rw [List.length_cons]
    rw [placesFrom] at h
    split at h
    · rcases List.mem_cons.1 h with heq | h
      · obtain ⟨rfl, -⟩ := Prod.mk.inj heq
        omega
      · have hrest := ih h
        omega
    · have hrest := ih h
      omega

end Marker

namespace Header

theorem ne_nil_of_mem_requirements {h : Header} {s : Source} {line message : Text}
    (hmem : (line, message) ∈ h.requirements s) : line ≠ [] := by
  rintro rfl
  simp [requirements] at hmem

end Header

/-! ## The same findings -/

namespace Source.Reread

variable {s u : Source} (h : s.Reread u)
include h

theorem isCorrect_eq : (ImportBlock.ofLines u.lines).isCorrect =
    (ImportBlock.ofLines s.lines).isCorrect := by
  rcases h.lines with hlines | hlines
  · rw [hlines]
  · rw [hlines, ImportBlock.isCorrect_append_empty]

theorem containsLine_eq {line : Text} (hline : line ≠ []) :
    s.containsLine line = u.containsLine line := by
  rw [containsLine, containsLine]
  rcases h.lines with hlines | hlines
  · rw [hlines]
  · rw [hlines, Bool.eq_iff_iff]
    simp [hline]

theorem headerFindings_eq (root : Path) (header : Header) :
    header.findings (.ofRoot root s) = header.findings (.ofRoot root u) := by
  have hrequirements : header.requirements s = header.requirements u := by
    simp only [Header.requirements, Source.fileStem, Source.fileName, h.path]
  simp only [Header.findings, SourceView.ofRoot, hrequirements]
  refine congrArg (List.map _) (List.filter_congr ?_)
  rintro ⟨line, message⟩ hmem
  show (!s.containsLine line) = !u.containsLine line
  rw [h.containsLine_eq (Header.ne_nil_of_mem_requirements hmem)]

theorem docFindings_eq (root : Path) :
    DocBlock.findings (.ofRoot root s) = DocBlock.findings (.ofRoot root u) := by
  have hfaults : DocBlock.faults s.lines = DocBlock.faults u.lines := by
    rcases h.lines with hlines | hlines
    · rw [hlines]
    · rw [hlines]
      exact DocBlock.faultsFrom_append_empty 1 {} u.lines
  simp only [DocBlock.findings, SourceView.ofRoot, SourceView.fileName, Source.fileName, hfaults,
    h.path]

theorem markerFindings_eq (root : Path) (marker : Text) :
    Marker.findings marker (.ofRoot root s) = Marker.findings marker (.ofRoot root u) := by
  by_cases hmarker : marker = []
  · rw [hmarker]
    rfl
  · have hplaces : Marker.placesFrom marker 1 s.lines = Marker.placesFrom marker 1 u.lines := by
      rcases h.lines with hlines | hlines
      · rw [hlines]
      · rw [hlines]
        exact Marker.placesFrom_append_empty hmarker 1 u.lines
    simp only [Marker.findings, SourceView.ofRoot, SourceView.fileName, Source.fileName, hplaces,
      h.path]

/-- **Both files have the same findings**, if their imports are in order. -/
theorem findings_eq (root : Path) {check : Check}
    (hcorrect : check = .importOrder → (ImportBlock.ofLines s.lines).isCorrect = true) :
    check.findings (.ofRoot root s) = check.findings (.ofRoot root u) := by
  cases check with
  | importOrder =>
    -- imports that are in order have no findings, in either file
    have hs := hcorrect rfl
    have hu := h.isCorrect_eq.trans hs
    simp only [Check.findings, ImportBlock.findings, SourceView.ofRoot, hs, hu, if_true]
  | fileHeader header => exact h.headerFindings_eq root header
  | functionComments => exact h.docFindings_eq root
  | exclusiveTests marker => exact h.markerFindings_eq root marker

end Source.Reread

/-- No other check goes by the name of the one for imports. -/
theorem Check.eq_importOrder_of_name {check : Check}
    (h : check.name = Check.importOrder.name) : check = .importOrder := by
  cases check with
  | importOrder => rfl
  | fileHeader header =>
    have hname : ("file-header" : Text) = "import-order" := h
    exact absurd hname (by decide)
  | functionComments => exact absurd h (by decide)
  | exclusiveTests marker =>
    have hname : ("no-exclusive-tests" : Text) = "import-order" := h
    exact absurd hname (by decide)

/-- What a rule finds is on a line that is there, or on the first one. -/
theorem Check.line_le_of_mem_findings {check : Check} {v : SourceView} {f : Finding}
    (hcorrect : check = .importOrder → (ImportBlock.ofLines v.source.lines).isCorrect = true)
    (hf : f ∈ check.findings v) : 1 ≤ f.line ∧ f.line ≤ max 1 v.source.lines.length := by
  cases check with
  | importOrder =>
    simp [findings, ImportBlock.findings, hcorrect rfl] at hf
  | fileHeader header =>
    obtain ⟨requirement, -, rfl⟩ := List.mem_map.1 hf
    exact ⟨Nat.le_refl 1, Nat.le_max_left ..⟩
  | functionComments =>
    obtain ⟨⟨line, fault⟩, hmem, rfl⟩ := List.mem_map.1 hf
    have hbounds := DocBlock.line_of_mem_faultsFrom hmem
    simp only
    omega
  | exclusiveTests marker =>
    rw [findings, Marker.findings] at hf
    split at hf
    · cases hf
    · obtain ⟨⟨line, column⟩, hmem, rfl⟩ := List.mem_map.1 hf
      have hbounds := Marker.line_of_mem_placesFrom hmem
      simp only
      omega

/-! ## The same places -/

namespace Source.Reread

variable {s u : Source} (h : s.Reread u)
include h

theorem take_eq {n : Nat} (hn : n ≤ u.lines.length) : s.lines.take n = u.lines.take n := by
  rcases h.lines with hlines | hlines
  · rw [hlines]
  · rw [hlines, List.take_append_of_le_length hn]

/-- Of a line that is only in one of the files nothing is measured. -/
theorem map_getElem?_eq {f : Text → Nat} (hf : f [] = 0) (n : Nat) :
    (s.lines[n]?.map f).getD 0 = (u.lines[n]?.map f).getD 0 := by
  rcases h.lines with hlines | hlines
  · rw [hlines]
  · rw [hlines]
    rcases Nat.lt_or_ge n u.lines.length with hlt | hge
    · rw [List.getElem?_append_left hlt]
    · rw [List.getElem?_append_right hge, List.getElem?_eq_none hge]
      cases n - u.lines.length with
      | zero => simp [hf]
      | succ k => simp

/-- **A line has the same place in both files.** -/
theorem location_eq (root : Path) {line : Nat} (column : Nat)
    (hline : 1 ≤ line ∧ line ≤ max 1 u.lines.length) :
    (SourceView.ofRoot root s).location line column =
      (SourceView.ofRoot root u).location line column := by
  -- the offset of a line counts the lines before it, endings included
  have hbefore : (s.lines.take (line - 1)).flatMap (· ++ s.ending.text) =
      (u.lines.take (line - 1)).flatMap (· ++ u.ending.text) := by
    rw [h.take_eq (by omega)]
    rcases h.ending with hending | hshort
    · rw [hending]
    · -- only the first line can be asked for, and nothing stands before it
      have hzero : line - 1 = 0 := by omega
      rw [hzero]
      rfl
  have hindex : SourceView.byteIndex [] column = 0 := by simp [SourceView.byteIndex]
  have hoffset : (SourceView.ofRoot root s).offsetOf line column =
      (SourceView.ofRoot root u).offsetOf line column := by
    have hne : line ≠ 0 := by omega
    have hcolumn := h.map_getElem?_eq (f := (SourceView.byteIndex · column)) hindex (line - 1)
    simp only [SourceView.offsetOf, SourceView.ofRoot, if_neg hne, hbefore, hcolumn]
  have hlength : (SourceView.ofRoot root s).lengthOf line column =
      (SourceView.ofRoot root u).lengthOf line column := by
    have hempty : Text.byteSize [] - SourceView.byteIndex [] column = 0 := by simp
    exact h.map_getElem?_eq (f := fun l => l.byteSize - SourceView.byteIndex l column) hempty
      (line - 1)
  have hpath : (SourceView.ofRoot root s).relativePath =
      (SourceView.ofRoot root u).relativePath := by
    simp only [SourceView.ofRoot, h.path]
  simp only [SourceView.location, hpath, hoffset, hlength]

/-- **Both files violate a rule in the same way.** -/
theorem violations_eq (root : Path) {r : Rule}
    (hcorrect : r.check = .importOrder → (ImportBlock.ofLines s.lines).isCorrect = true) :
    r.violations (.ofRoot root s) = r.violations (.ofRoot root u) := by
  rw [Rule.violations, Rule.violations, h.findings_eq root hcorrect]
  refine List.map_congr_left fun f hf => ?_
  have hbound := Check.line_le_of_mem_findings
    (fun himport => h.isCorrect_eq.trans (hcorrect himport)) hf
  rw [h.location_eq root f.column hbound]

end Source.Reread

end ContractLint
