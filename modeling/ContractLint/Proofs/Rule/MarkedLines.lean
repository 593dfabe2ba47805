import ContractLint.Rule
import ContractLint.Proofs.Source.Spans

/-!
# Where markers are reported

A marker is searched for in each line, and the place of its first occurrence is given as a column in
characters and as an offset in bytes. The offset counts the lines above with the ending of the file,
so it is a place in the text that the file is written as, whatever endings were read.

## The architecture

* **`Source.LineIn`** — where a line stands in the text of its file.
* **`map_fst_placesFrom`, `exists_cut_of_mem_placesFrom`** — which lines are reported, and what is
  known of each of them.
* **`marked_lines_reported`** — the violations of the rule, by lines and by bytes.
-/

namespace ContractLint

/-! ## Lines of a written file -/

namespace Source

/-- The line with `number` lines before it stands right behind `above` in the text of the file, which
goes on with a line ending or not at all. -/
structure LineIn (s : Source) (number : Nat) (above line : Text) : Prop where
  isLine : s.lines[number]? = some line
  isAbove : above = (s.lines.take number).flatMap (· ++ s.ending.text)
  text : ∃ below, s.toText = above ++ (line ++ below) ∧ (below = [] ∨ s.ending.text <+: below)

theorem lineIn {s : Source} {number : Nat} {line : Text} (h : s.lines[number]? = some line) :
    s.LineIn number ((s.lines.take number).flatMap (· ++ s.ending.text)) line := by
  refine ⟨h, rfl, ?_⟩
  obtain ⟨hnumber, hline⟩ := List.getElem?_eq_some_iff.1 h
  have hlines : s.lines = s.lines.take number ++ line :: s.lines.drop (number + 1) := by
    rw [← hline, ← List.drop_eq_getElem_cons hnumber, List.take_append_drop]
  generalize s.lines.take number = init at hlines ⊢
  generalize s.lines.drop (number + 1) = rest at hlines
  cases hfinal : s.finalNewline with
  | true =>
    refine ⟨s.ending.text ++ rest.flatMap (· ++ s.ending.text), ?_, .inr (List.prefix_append _ _)⟩
    rw [toText_of_finalNewline hfinal, hlines]
    simp
  | false =>
    -- only the last line has no ending behind it
    rcases List.eq_nil_or_concat' rest with rfl | ⟨mid, last, rfl⟩
    · refine ⟨[], ?_, .inl rfl⟩
      rw [toText_of_not_finalNewline hfinal hlines, List.append_nil]
    · have hconcat : s.lines = (init ++ line :: mid) ++ [last] := by
        rw [hlines, List.append_assoc, List.cons_append]
      refine ⟨s.ending.text ++ (mid.flatMap (· ++ s.ending.text) ++ last), ?_,
        .inr (List.prefix_append _ _)⟩
      rw [toText_of_not_finalNewline hfinal hconcat]
      simp

end Source

namespace Marker

/-! ## Lines that hold the marker -/

theorem map_fst_placesFrom (marker : Text) (line : Nat) (lines : List Text) :
    (placesFrom marker line lines).map Prod.fst =
      ((lines.zipIdx line).filter fun (text, _) => marker.occursIn text).map Prod.snd := by
  induction lines generalizing line with
  | nil => rfl
  | cons text rest ih =>
    rw [placesFrom, List.zipIdx_cons, List.filter_cons]
    show _ = List.map Prod.snd (if (Text.cut marker text).isSome = true then _ else _)
    cases hcut : Text.cut marker text with
    | none => exact ih (line + 1)
    | some parts =>
      simp only [List.map_cons, ih (line + 1)]
      rfl

theorem exists_cut_of_mem_placesFrom {marker : Text} {line number column : Nat} {lines : List Text}
    (h : (number, column) ∈ placesFrom marker line lines) :
    ∃ k text before after, number = k + line ∧ lines[k]? = some text ∧
      Text.cut marker text = some (before, after) ∧ column = before.length + 1 := by
  induction lines generalizing line with
  | nil => cases h
  | cons text rest ih =>
    have hrest (hmem : (number, column) ∈ placesFrom marker (line + 1) rest) :
        ∃ k other before after, number = k + line ∧ (text :: rest)[k]? = some other ∧
          Text.cut marker other = some (before, after) ∧ column = before.length + 1 := by
      obtain ⟨k, other, before, after, hnumber, hline, hcut, hcolumn⟩ := ih hmem
      exact ⟨k + 1, other, before, after, by omega, hline, hcut, hcolumn⟩
    rw [placesFrom] at h
    split at h
    · next before after hcut =>
      rcases List.mem_cons.1 h with heq | hmem
      · obtain ⟨rfl, rfl⟩ := Prod.mk.inj heq
        exact ⟨0, text, before, after, by omega, rfl, hcut, rfl⟩
      · exact hrest hmem
    · exact hrest h

theorem findings_of_ne_nil {marker : Text} (h : marker ≠ []) (v : SourceView) :
    findings marker v = (placesFrom marker 1 v.source.lines).map fun (line, column) =>
      { line, column, message := marker ++ " found in " ++ v.fileName ++ ":" ++ Text.decimal line } := by
  rw [findings, if_neg (by simpa using h)]

/-! ## Places of the marker -/

section Place

variable {v : SourceView} {number : Nat} {line marker before after : Text}
  (hline : v.source.lines[number]? = some line)
  (hcut : Text.cut marker line = some (before, after))
include hline hcut

theorem offset_of_cut : (v.location (number + 1) (before.length + 1)).offset =
    Text.byteSize ((v.source.lines.take number).flatMap (· ++ v.source.ending.text) ++ before) := by
  rw [SourceView.offset_location hline, Text.byteSize_append, Text.cut_eq_some_append hcut,
    List.append_assoc, List.take_left]

theorem length_of_cut : (v.location (number + 1) (before.length + 1)).length =
    Text.byteSize (marker ++ after) := by
  rw [SourceView.length_location hline, Text.cut_eq_some_append hcut, List.append_assoc,
    List.drop_left]

theorem end_of_cut : (v.location (number + 1) (before.length + 1)).offset +
      (v.location (number + 1) (before.length + 1)).length =
    Text.byteSize ((v.source.lines.take number).flatMap (· ++ v.source.ending.text) ++ line) := by
  rw [offset_of_cut hline hcut, length_of_cut hline hcut, Text.cut_eq_some_append hcut]
  simp only [Text.byteSize_append]
  omega

/-- The text of the file goes on with the marker where the place starts. -/
theorem bytes_prefix_of_cut : marker.bytes <+:
    v.source.toText.bytes.drop (v.location (number + 1) (before.length + 1)).offset := by
  obtain ⟨below, htext, -⟩ := (Source.lineIn hline).text
  rw [offset_of_cut hline hcut, htext, Text.cut_eq_some_append hcut]
  set above := (v.source.lines.take number).flatMap (· ++ v.source.ending.text)
  have hparts : above ++ (before ++ marker ++ after ++ below) =
      (above ++ before) ++ (marker ++ (after ++ below)) := by
    simp only [List.append_assoc]
  rw [hparts, Text.bytes_append, ← Text.length_bytes, List.drop_left, Text.bytes_append]
  exact List.prefix_append _ _

end Place

/-- **Every line that holds the marker is reported once, at the marker.** The violations are those of
the lines that hold it, in their order. Each names the column of the first occurrence; its offset is
where that stands in the text of the file, and its length reaches to the end of the line. -/
theorem marked_lines_reported {marker : Text} (hmarker : marker ≠ []) (severity : Severity)
    (v : SourceView) :
    (Rule.violations ⟨.exclusiveTests marker, severity⟩ v).map (·.location.line) =
        ((v.source.lines.zipIdx 1).filter fun (line, _) => marker.occursIn line).map Prod.snd ∧
      ∀ w ∈ Rule.violations ⟨.exclusiveTests marker, severity⟩ v,
        ∃ number above line before, v.source.LineIn number above line ∧
          Text.FirstAt marker line before ∧ w.location.line = number + 1 ∧
          w.location.column - 1 = before.length ∧
          w.location.offset = Text.byteSize (above ++ before) ∧
          w.location.offset + w.location.length = Text.byteSize (above ++ line) ∧
          marker.bytes <+: v.source.toText.bytes.drop w.location.offset := by
  have hviolations : Rule.violations ⟨.exclusiveTests marker, severity⟩ v = _ :=
    congrArg (List.map _) (findings_of_ne_nil hmarker v)
  rw [List.map_map] at hviolations
  constructor
  · rw [hviolations, List.map_map, ← map_fst_placesFrom]
    rfl
  · intro w hw
    rw [hviolations] at hw
    obtain ⟨⟨n, column⟩, hplace, rfl⟩ := List.mem_map.1 hw
    obtain ⟨number, line, before, after, rfl, hline, hcut, rfl⟩ :=
      exists_cut_of_mem_placesFrom hplace
    exact ⟨number, _, line, before, Source.lineIn hline, Text.firstAt_of_cut hcut, rfl,
      Nat.add_sub_cancel .., offset_of_cut hline hcut, end_of_cut hline hcut,
      bytes_prefix_of_cut hline hcut⟩

/-- A file with the marker twice on its second line, behind characters of several bytes. -/
def markedTwice : SourceView := .ofRoot "." (.ofText "a.js" "é\r\ndé.only(x).only(\r\n")

/-- The line is reported once, at the first of the two. -/
theorem marked_lines_reported_markedTwice :
    (Rule.violations ⟨.exclusiveTests ".only(", .error⟩ markedTwice).map (·.location) =
        [⟨"a.js", 2, 3, 7, 14⟩] ∧
      (Rule.violations ⟨.exclusiveTests ".only(", .error⟩ markedTwice).map (·.location.line) = [2] ∧
        ∀ w ∈ Rule.violations ⟨.exclusiveTests ".only(", .error⟩ markedTwice,
          Text.bytes ".only(" <+: markedTwice.source.toText.bytes.drop w.location.offset := by
  have hmarker : (".only(" : Text) ≠ [] := by decide
  obtain ⟨hlines, hplaces⟩ := marked_lines_reported hmarker .error markedTwice
  refine ⟨by decide +kernel, hlines.trans (by decide +kernel), fun w hw => ?_⟩
  obtain ⟨number, above, line, before, -, -, -, -, -, -, hbytes⟩ := hplaces w hw
  exact hbytes

end Marker

end ContractLint
