import ContractLint.Proofs.Rule.DroppedImports
import ContractLint.Proofs.Text.ByteOrder
import ContractLint.Rule
import Mathlib.Data.List.Nodup

/-!
# What is expected of imports

The imports that are expected are made by a filter, a pass that drops duplicates and a sort. Here
they are described without these: by which imports are among them and by the order of any two. A
block is correct if its imports have these properties as they stand, and the rule reports a file
exactly if they do not.

## The architecture

* **`ImportKey.Precedes`** — the order of imports, by bytes; it is the one that they are sorted by.
* **`NamesUsed`** — an import that the lines below have a use for.
* **`expected_filtered_distinct_sorted`** — the imports that are expected.
* **`InOrder`** — imports that are used, distinct and sorted. Comparing their texts with those that
  are expected tells whether they are (`isCorrect_iff_inOrder`), because nothing is dropped if the
  numbers are the same, and a text settles its key.
* **`imports_reported_iff`** — what the rule says about a file.
-/

namespace ContractLint

/-! ## The order by bytes -/

namespace ImportKey

/-- Paths without a directory come last; otherwise the bytes of the directories decide, and then
those of the last names. -/
def Precedes (a b : ImportKey) : Prop :=
  a.bare = false ∧ b.bare = true ∨
    a.bare = b.bare ∧ (a.directory.bytes < b.directory.bytes ∨
      a.directory = b.directory ∧ a.base.bytes ≤ b.base.bytes)

theorem le_iff_precedes {a b : ImportKey} : a.le b = true ↔ a.Precedes b := by
  rw [le, Precedes, Text.bytes_lt_iff, Text.bytes_le_iff]
  by_cases hbare : a.bare = b.bare
  · have hkind : ¬(a.bare = false ∧ b.bare = true) := by simp [hbare]
    rw [if_neg (not_not.2 hbare), or_iff_right hkind, and_iff_right hbare]
    by_cases hdir : a.directory = b.directory
    · have hlt : ¬a.directory < b.directory := hdir ▸ List.lt_irrefl _
      rw [if_neg (not_not.2 hdir), or_iff_right hlt, and_iff_right hdir]
    · rw [if_pos hdir, decide_eq_true_iff, or_iff_left fun h => hdir h.1]
  · cases ha : a.bare <;> cases hb : b.bare <;> simp_all

theorem le_refl (a : ImportKey) : a.le a = true := by
  rcases le_total a a with h | h
  · exact h
  · exact h

end ImportKey

namespace ImportBlock

/-! ## The imports that are expected -/

/-- The symbol of an import, if it has one, stands somewhere below. -/
def NamesUsed (b : ImportBlock) (d : ImportDecl) : Prop :=
  ∀ name ∈ d.symbol, ∃ line ∈ b.below, name <:+: line

theorem uses_iff_namesUsed {b : ImportBlock} {d : ImportDecl} :
    b.uses d = true ↔ b.NamesUsed d := by
  rw [uses, NamesUsed]
  cases d.symbol with
  | none => simp
  | some name => simp [Text.occursIn_iff_infix]

/-- Imports that are expected stand as they are sorted, and as in the file if they have one key. -/
theorem pairwise_expected (b : ImportBlock) :
    b.expected.Pairwise fun d e =>
      d.key.Precedes e.key ∧ (d.key = e.key → [d, e].Sublist b.imports) := by
  have hkept : (distinctBy ImportDecl.identity (b.imports.filter b.uses)).Sublist b.imports :=
    (distinctBy_sublist _ _).trans List.filter_sublist
  have horder : (distinctBy ImportDecl.identity (b.imports.filter b.uses)).Pairwise
      fun d e => [d, e].Sublist b.imports :=
    List.pairwise_iff_forall_sublist.2 fun hsub => hsub.trans hkept
  have hsorted : b.expected.Pairwise fun d e =>
      d.key.le e.key = true ∧ (e.key.le d.key = true → [d, e].Sublist b.imports) :=
    pairwise_sortBy_stable (fun d e => ImportKey.le_total d.key e.key)
      (fun d e f => ImportKey.le_trans d.key e.key f.key) horder
  refine hsorted.imp fun ⟨hle, hstable⟩ => ⟨ImportKey.le_iff_precedes.1 hle, fun hkey => ?_⟩
  exact hstable (by rw [hkey]; exact ImportKey.le_refl _)

/-- **What is expected of the imports of a file.** These are the imports that are used, the first of
each identity among them; each stands there once. They are sorted by their keys, and of two with the
same key the one that is first in the file is first. -/
theorem expected_filtered_distinct_sorted (lines : List Text) :
    (∀ d, d ∈ (ofLines lines).expected ↔
      ∃ before after, (ofLines lines).imports = before ++ d :: after ∧
        (ofLines lines).NamesUsed d ∧
        ∀ e ∈ before, (ofLines lines).NamesUsed e → e.identity ≠ d.identity) ∧
      (ofLines lines).expected.Nodup ∧
      (ofLines lines).expected.Pairwise (fun d e => d.key.Precedes e.key) ∧
      (ofLines lines).expected.Pairwise
        fun d e => d.key = e.key → [d, e].Sublist (ofLines lines).imports := by
  have hpairs := pairwise_expected (ofLines lines)
  refine ⟨fun d => ⟨fun hd => ?_, ?_⟩, ?_, hpairs.imp And.left, hpairs.imp And.right⟩
  · obtain ⟨before, after, himports⟩ := List.append_of_mem (mem_imports_of_mem_expected hd).1
    have hfirst := (mem_expected_iff himports).1 hd
    simp only [uses_iff_namesUsed] at hfirst
    exact ⟨before, after, himports, hfirst⟩
  · rintro ⟨before, after, himports, hused, hfirst⟩
    refine (mem_expected_iff himports).2 ⟨uses_iff_namesUsed.2 hused, fun e he huses => ?_⟩
    exact hfirst e he (uses_iff_namesUsed.1 huses)
  · exact List.Nodup.of_map ImportDecl.identity (nodup_identity_expected (ofLines lines))

-- two imports from one file keep their order, and a path without a directory goes last
example : (ofLines ["import \"C.sol\";", "import { B } from \"./x.sol\";",
    "import { A } from \"./x.sol\";", "contract D is A, B"]).expected.map (·.line) = [2, 3, 1] := by
  decide +kernel

/-! ## Correct blocks -/

/-- Imports that are used, distinct and sorted. -/
structure InOrder (b : ImportBlock) : Prop where
  used : ∀ d ∈ b.imports, b.NamesUsed d
  distinct : (b.imports.map ImportDecl.identity).Nodup
  sorted : (b.imports.map ImportDecl.key).Pairwise ImportKey.Precedes

/-- If nothing is dropped, all imports are used and distinct. -/
theorem used_distinct_of_length {b : ImportBlock} (h : b.expected.length = b.imports.length) :
    (∀ d ∈ b.imports, b.uses d = true) ∧ (b.imports.map ImportDecl.identity).Nodup := by
  rw [expected, (sortBy_perm _ _).length_eq] at h
  have hfilter : b.imports.filter b.uses = b.imports := by
    refine List.filter_sublist.eq_of_length_le ?_
    rw [← h]
    exact (distinctBy_sublist _ _).length_le
  rw [hfilter] at h
  have hdistinct := (distinctBy_sublist ImportDecl.identity b.imports).eq_of_length h
  refine ⟨List.filter_eq_self.1 hfilter, ?_⟩
  rw [← hdistinct]
  exact nodup_map_distinctBy _ _

/-- The key of an import is settled by its text. -/
theorem map_key_eq (lines : List Text) {imports : List ImportDecl}
    (h : imports ⊆ (ofLines lines).imports) :
    imports.map ImportDecl.key =
      (imports.map ImportDecl.text).map fun text => (ImportDecl.ofLine 1 text).key := by
  rw [List.map_map]
  refine List.map_congr_left fun d hd => ?_
  have hfrom : d.FromLine := fromLine_of_mem_splitFrom (h hd)
  show d.key = (ImportDecl.ofLine 1 d.text).key
  rw [hfrom.ofLine_text]
  rfl

theorem isCorrect_iff_inOrder (lines : List Text) :
    (ofLines lines).isCorrect = true ↔ (ofLines lines).InOrder := by
  constructor
  · intro hcorrect
    have htexts : (ofLines lines).expected.map (·.text) = (ofLines lines).imports.map (·.text) :=
      beq_iff_eq.1 hcorrect
    have hlength := congrArg List.length htexts
    rw [List.length_map, List.length_map] at hlength
    obtain ⟨huses, hdistinct⟩ := used_distinct_of_length hlength
    refine ⟨fun d hd => uses_iff_namesUsed.1 (huses d hd), hdistinct, ?_⟩
    -- the imports have the keys of those that are expected, which are sorted
    have hkeys : (ofLines lines).imports.map ImportDecl.key =
        (ofLines lines).expected.map ImportDecl.key := by
      rw [map_key_eq lines (List.Subset.refl _), ← htexts,
        ← map_key_eq lines fun d hd => (mem_imports_of_mem_expected hd).1]
    rw [hkeys, List.pairwise_map]
    exact (pairwise_expected _).imp And.left
  · rintro ⟨hused, hdistinct, hsorted⟩
    refine isCorrect_of_expected_eq (expected_eq_imports (fun d hd => ?_) hdistinct ?_)
    · exact uses_iff_namesUsed.2 (hused d hd)
    · exact hsorted.imp ImportKey.le_iff_precedes.2

/-! ## What the rule reports -/

/-- A file whose imports are not correct has a first import line, and that is where the block
starts. -/
theorem exists_first_import {lines : List Text} (h : (ofLines lines).isCorrect = false) :
    ∃ above text rest, lines = above ++ text :: rest ∧
      (∀ l ∈ above, isImport l = false ∧ startsCode l = false) ∧ isImport text = true ∧
        (ofLines lines).imports.head?.map (·.line) = some (above.length + 1) := by
  rcases importFree_or_exists_import lines with hfree | ⟨above, text, rest, rfl, habove, himport⟩
  · have hsplit : ofLines lines = { above := lines } := splitFrom_of_importFree hfree 1 false
    rw [hsplit] at h
    cases h
  · refine ⟨above, text, rest, rfl, habove, himport, ?_⟩
    rw [ofLines, splitFrom_above habove, splitFrom_import himport]
    show some (1 + above.length) = _
    rw [Nat.add_comm]

/-- **When imports are reported.** A block counts as correct exactly if its imports are used,
distinct and sorted, and then the rule neither finds nor fixes anything. Otherwise it finds one
thing, at the first import line of the file, and its fix is not what the file holds. -/
theorem imports_reported_iff (v : SourceView) (severity : Severity) :
    ((ofLines v.source.lines).isCorrect = true ↔ (ofLines v.source.lines).InOrder) ∧
    ((ofLines v.source.lines).isCorrect = true ↔ Rule.violations ⟨.importOrder, severity⟩ v = []) ∧
    ((ofLines v.source.lines).isCorrect = true ↔ Rule.fix ⟨.importOrder, severity⟩ v = none) ∧
    (¬(ofLines v.source.lines).InOrder →
      (∃ violation above text rest, Rule.violations ⟨.importOrder, severity⟩ v = [violation] ∧
        v.source.lines = above ++ text :: rest ∧
        (∀ l ∈ above, isImport l = false ∧ startsCode l = false) ∧ isImport text = true ∧
        violation.location = v.location (above.length + 1) 1) ∧
      ∃ lines, Rule.fix ⟨.importOrder, severity⟩ v = some lines ∧ lines ≠ v.source.lines) := by
  have hviolations : Rule.violations ⟨.importOrder, severity⟩ v =
      (ImportBlock.findings v).map _ := rfl
  have hfix : Rule.fix ⟨.importOrder, severity⟩ v = ImportBlock.fix v := rfl
  have hinOrder := isCorrect_iff_inOrder v.source.lines
  rw [hviolations, hfix, findings, fix]
  cases hcorrect : (ofLines v.source.lines).isCorrect with
  | true =>
    have hdone : (ofLines v.source.lines).InOrder := hinOrder.1 hcorrect
    simp [hdone]
  | false =>
    obtain ⟨above, text, rest, hlines, habove, himport, hline⟩ := exists_first_import hcorrect
    rw [hcorrect] at hinOrder
    refine ⟨hinOrder, by simp, by simp, fun _ => ⟨⟨_, above, text, rest, rfl, hlines, habove,
      himport, ?_⟩, _, rfl, fun hsame => ?_⟩⟩
    · show v.location (((ofLines v.source.lines).imports.head?.map (·.line)).getD 1) 1 = _
      rw [hline]
      rfl
    · -- what is arranged is correct, and the file is not
      have harranged := isCorrect_arranged v.source.lines
      rw [hsame, hcorrect] at harranged
      cases harranged

end ImportBlock

end ContractLint
