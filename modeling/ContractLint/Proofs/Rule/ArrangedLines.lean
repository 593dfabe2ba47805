import ContractLint.Proofs.Rule.DroppedImports
import Mathlib.Data.List.Perm.Subperm

/-!
# Lines that are moved and lines that stay

A split routes each line by what was read before it: imports above the code are collected, and every
other line goes above or below, depending on whether an import was seen. Here a split is described
without its flags. What is arranged from it keeps all other lines in their order, and splitting that
again takes each line to the part it came from.

## The architecture

* **`aboveCode`** — the lines that imports are collected from. An import line does not start the
  code, so the flag for it is set where these lines end.
* **`imports_splitFrom`** — the imports of a split, with their numbers.
* **`others_splitFrom`** — the other lines, by the numbers that no import has.
* **`arranged_moves_only_imports`** — the whole, with `ofLines_arranged` for the second split.
-/

namespace ContractLint.ImportBlock

/-- The lines above the first one that starts the code. -/
def aboveCode (lines : List Text) : List Text := lines.takeWhile (!startsCode ·)

theorem startsCode_of_isImport {text : Text} (h : isImport text = true) :
    startsCode text = false := by
  -- a line that starts the code starts with a letter, and that is not the one of an import
  have hletter {c : Char} {word : Text} (hblank : Text.isBlank c = false)
      (hne : (c == 'i') = false) : (c :: word).isPrefixOf text = false := by
    by_contra hpre
    obtain ⟨rest, rfl⟩ := List.isPrefixOf_iff_prefix.1 (Bool.not_eq_false _ ▸ hpre)
    simp [isImport, Text.trimStart, hblank] at h
    simp [← h.1] at hne
  rw [startsCode, Bool.or_eq_false_iff]
  exact ⟨hletter (by decide) (by decide), hletter (by decide) (by decide)⟩

/-- **The imports of a split** are the import lines above the code, with their numbers. -/
theorem imports_splitFrom (line : Nat) (started : Bool) (lines : List Text) :
    (splitFrom line started false lines).imports =
      (((aboveCode lines).zipIdx line).filter fun l => isImport l.1).map
        fun l => ImportDecl.ofLine l.2 l.1 := by
  induction lines generalizing line started with
  | nil => rfl
  | cons text rest ih =>
    cases himport : isImport text with
    | true =>
      have habove : aboveCode (text :: rest) = text :: aboveCode rest := by
        simp [aboveCode, startsCode_of_isImport himport]
      rw [splitFrom_import himport, habove, List.zipIdx_cons,
        List.filter_cons_of_pos (by simpa using himport), ih]
      rfl
    | false =>
      have hskip (block : ImportBlock) : (if started then { block with below := text :: block.below }
          else { block with above := text :: block.above }).imports = block.imports := by
        cases started <;> rfl
      rw [splitFrom_other (by simp [himport]), hskip, Bool.false_or]
      cases hcode : startsCode text with
      | true =>
        -- from here on no import is collected
        rw [splitFrom_of_importFree (importFree_true rest), show aboveCode (text :: rest) = [] by
          simp [aboveCode, hcode]]
        cases started <;> rfl
      | false =>
        have habove : aboveCode (text :: rest) = text :: aboveCode rest := by
          simp [aboveCode, hcode]
        rw [habove, List.zipIdx_cons, List.filter_cons_of_neg (by simp [himport]), ih]

/-- The texts of the imports are their lines without indentation. -/
theorem texts_imports (lines : List Text) :
    (ofLines lines).imports.map (·.text) =
      ((aboveCode lines).filter isImport).map Text.trimStart := by
  rw [ofLines, imports_splitFrom, List.map_map]
  -- the numbers play no part
  conv_rhs => rw [← List.zipIdx_map_fst 1 (aboveCode lines), List.filter_map, List.map_map]
  rfl

/-- The lines whose number is not in a list, with numbers from `line` on. -/
def linesExcept (numbers : List Nat) (line : Nat) (lines : List Text) : List Text :=
  ((lines.zipIdx line).filter fun l => l.2 ∉ numbers).map (·.1)

theorem linesExcept_cons_of_mem {numbers : List Nat} {line : Nat} (h : line ∈ numbers)
    (text : Text) (rest : List Text) :
    linesExcept numbers line (text :: rest) = linesExcept numbers (line + 1) rest := by
  simp [linesExcept, h]

theorem linesExcept_cons_of_notMem {numbers : List Nat} {line : Nat} (h : line ∉ numbers)
    (text : Text) (rest : List Text) :
    linesExcept numbers line (text :: rest) = text :: linesExcept numbers (line + 1) rest := by
  simp [linesExcept, h]

/-- A number that was passed makes no difference. -/
theorem linesExcept_cons_of_lt {number line : Nat} (h : number < line) (numbers : List Nat)
    (lines : List Text) :
    linesExcept (number :: numbers) line lines = linesExcept numbers line lines := by
  refine congrArg (List.map _) (List.filter_congr fun l hl => ?_)
  have hle : line ≤ l.2 := (List.mem_zipIdx hl).1
  have hne : l.2 ≠ number := by omega
  simp [hne]

/-- **The other lines of a split** are all that are not collected, in their order. -/
theorem others_splitFrom (line : Nat) (started inCode : Bool) (lines : List Text) :
    (splitFrom line started inCode lines).above ++ (splitFrom line started inCode lines).below =
      linesExcept ((splitFrom line started inCode lines).imports.map (·.line)) line lines := by
  induction lines generalizing line started inCode with
  | nil => rfl
  | cons text rest ih =>
    by_cases hskip : (inCode || !isImport text) = true
    · -- the imports are below this line, and with one above it nothing else goes there
      have hbelow := (pairwise_line_splitFrom (inCode || startsCode text) started rest (line + 1)).1
      have hnumber : line ∉ (splitFrom (line + 1) started (inCode || startsCode text) rest).imports.map
          (·.line) := by
        intro hmem
        obtain ⟨d, hd, hline⟩ := List.mem_map.1 hmem
        have hle := hbelow d hd
        omega
      rw [splitFrom_other hskip]
      cases started with
      | true =>
        have habove := (splitFrom_started (inCode || startsCode text) rest (line + 1)).1
        rw [if_pos rfl, linesExcept_cons_of_notMem hnumber, ← ih, habove]
        rfl
      | false =>
        rw [if_neg Bool.false_ne_true, linesExcept_cons_of_notMem hnumber, ← ih]
        rfl
    · obtain ⟨rfl, himport⟩ := isImport_of_not_skip hskip
      rw [splitFrom_import himport]
      show (splitFrom (line + 1) true false rest).above ++ (splitFrom (line + 1) true false rest).below
        = linesExcept (line :: (splitFrom (line + 1) true false rest).imports.map (·.line)) line
          (text :: rest)
      rw [linesExcept_cons_of_mem (List.mem_cons_self ..),
        linesExcept_cons_of_lt (Nat.lt_succ_self line)]
      exact ih (line + 1) true false

/-- **Arranging moves imports only.** The lines above and below are all lines that are not collected,
in their order; those collected are the import lines above the code. What is arranged are the lines
above, some of the import lines in some order, without indentation, and the lines below. Split again
it has the imports that are expected; if there are any, above and below them are the same lines. -/
theorem arranged_moves_only_imports (lines : List Text) :
    (ofLines lines).above ++ (ofLines lines).below =
        linesExcept ((ofLines lines).imports.map (·.line)) 1 lines ∧
      (ofLines lines).imports = (((aboveCode lines).zipIdx 1).filter fun l => isImport l.1).map
        (fun l => ImportDecl.ofLine l.2 l.1) ∧
      (∃ moved, moved.Subperm (((aboveCode lines).filter isImport).map Text.trimStart) ∧
        (ofLines lines).arranged = (ofLines lines).above ++ moved ++ (ofLines lines).below) ∧
      (ofLines (ofLines lines).arranged).imports.map (·.text) =
        (ofLines lines).expected.map (·.text) ∧
      ((ofLines lines).expected ≠ [] →
        (ofLines (ofLines lines).arranged).above = (ofLines lines).above ∧
        (ofLines (ofLines lines).arranged).below = (ofLines lines).below) := by
  refine ⟨others_splitFrom 1 false false lines, imports_splitFrom 1 false lines,
    ⟨(ofLines lines).expected.map (·.text), ?_, rfl⟩, ?_, fun h => ?_⟩
  · have hkept := (distinctBy_sublist ImportDecl.identity
      ((ofLines lines).imports.filter (ofLines lines).uses)).trans List.filter_sublist
    rw [← texts_imports]
    exact ((sortBy_perm _ _).map _).subperm.trans (hkept.map _).subperm
  · by_cases h : (ofLines lines).expected = []
    · rw [ofLines_arranged_of_expected_eq_nil h, h]
    · rw [ofLines_arranged h]
      exact ImportDecl.map_renumber (fun _ _ => rfl) _ _
  · rw [ofLines_arranged h]
    exact ⟨rfl, rfl⟩

-- the blank line between the imports goes below them, and the import in the code stays
example : (ofLines ["import \"B.sol\";", "", "  import \"A.sol\";", "contract C", "import x"]).arranged =
    (["import \"A.sol\";", "import \"B.sol\";", "", "contract C", "import x"] : List Text) := by
  decide +kernel

end ContractLint.ImportBlock
