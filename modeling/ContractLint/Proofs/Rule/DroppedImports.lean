import ContractLint.Proofs.Rule.ImportOrder

/-!
# Imports that are dropped

Putting imports right drops an import whose symbol is not used below, and one that has the identity
of an earlier import. A file can do without an import if none of the names that it lists is used, if
its symbol was imported before, or if it imports a whole file that was imported before. The two do
not always go together, because the symbol is the first word behind a brace that stands apart, and
an import without a symbol goes by its path alone.

## The architecture

* **`Dispensable`** — what a file can do without, by the names between the braces of an import.
* **`mem_expected_iff`** — an import is kept exactly if it is used and the first of its identity
  among those that are.
* **`WellJudged`** — the condition on a single import, without regard to what is kept, under which
  it is dropped only if it is dispensable (`drops_dispensable_iff`).
-/

namespace ContractLint

namespace ImportDecl

/-- The names between the first pair of braces of an import, if there is one. -/
def listedNames? (d : ImportDecl) : Option (List Text) := do
  let (_, behindBrace) ← Text.cut ['\x7b'] d.text
  let (list, _) ← Text.cut ['\x7d'] behindBrace
  some (((Text.splitAt ',' list).map Text.trim).filter (!·.isEmpty))

/-- Whether an import has a list of names, which may go on below its line. -/
def isBraced (d : ImportDecl) : Bool := d.text.contains '\x7b'

theorem FromLine.isBraced_of_symbol {d : ImportDecl} (h : d.FromLine) {name : Text}
    (hname : d.symbol = some name) : d.isBraced = true := by
  obtain ⟨line, text, -, rfl⟩ := h
  unfold ofLine at hname
  dsimp only at hname
  split at hname
  · next word brace symbol rest hwords =>
    split at hname
    · next hbrace =>
      -- the brace is a word of the line, and trimming takes no word away
      have hmem : brace ∈ text.trimStart.words := by
        rw [Text.words_trimStart, hwords]
        simp
      have hchar := Text.mem_of_mem_pieces (List.mem_filter.1 hmem).1
        (c := '\x7b') (by simp [hbrace])
      simpa [isBraced, ofLine] using hchar.1
    · cases hname
  · cases hname

end ImportDecl

/-- The first element of its key is kept. -/
theorem mem_distinctBy_iff {α : Type} {key : α → Text} {before after : List α} {a : α}
    (h : a ∉ before) :
    a ∈ distinctBy key (before ++ a :: after) ↔ ∀ b ∈ before, key b ≠ key a := by
  induction before with
  | nil => simp [distinctBy]
  | cons b before ih =>
    obtain ⟨hne, hbefore⟩ : a ≠ b ∧ a ∉ before := by simpa using h
    rw [List.cons_append, distinctBy, List.mem_cons, List.mem_filter, ih hbefore,
      List.forall_mem_cons, bne_iff_ne, ne_comm (a := key a)]
    simp only [hne, false_or]
    exact and_comm

namespace ImportBlock

/-! ## What is dropped -/

/-- Import lines stand below each other. -/
theorem pairwise_line_splitFrom (inCode started : Bool) (lines : List Text) (line : Nat) :
    (∀ d ∈ (splitFrom line started inCode lines).imports, line ≤ d.line) ∧
      (splitFrom line started inCode lines).imports.Pairwise fun d e => d.line < e.line := by
  induction lines generalizing inCode started line with
  | nil => simp [splitFrom]
  | cons text rest ih =>
    by_cases hskip : (inCode || !isImport text) = true
    · obtain ⟨hlow, hpairs⟩ := ih (inCode || startsCode text) started (line + 1)
      have hlow (d : ImportDecl) (hd : d ∈ _) : line ≤ d.line := Nat.le_of_succ_le (hlow d hd)
      rw [splitFrom_other hskip]
      cases started with
      | true => exact ⟨hlow, hpairs⟩
      | false => exact ⟨hlow, hpairs⟩
    · obtain ⟨rfl, himport⟩ := isImport_of_not_skip hskip
      obtain ⟨hlow, hpairs⟩ := ih false true (line + 1)
      rw [splitFrom_import himport]
      refine ⟨List.forall_mem_cons.2 ⟨Nat.le_refl _, fun d hd => ?_⟩, .cons (fun d hd => ?_) hpairs⟩
      · exact Nat.le_of_succ_le (hlow d hd)
      · exact hlow d hd

theorem notMem_before {lines : List Text} {before after : List ImportDecl} {d : ImportDecl}
    (h : (ofLines lines).imports = before ++ d :: after) : d ∉ before := by
  have hpairs := (pairwise_line_splitFrom false false lines 1).2
  rw [show splitFrom 1 false false lines = ofLines lines from rfl, h] at hpairs
  intro hd
  exact Nat.lt_irrefl _ ((List.pairwise_append.1 hpairs).2.2 d hd d (by simp))

/-- **What is kept.** An import is kept exactly if it is used and no earlier one that is used has
its identity. -/
theorem mem_expected_iff {lines : List Text} {before after : List ImportDecl} {d : ImportDecl}
    (h : (ofLines lines).imports = before ++ d :: after) :
    d ∈ (ofLines lines).expected ↔ (ofLines lines).uses d = true ∧
      ∀ e ∈ before, (ofLines lines).uses e = true → e.identity ≠ d.identity := by
  rw [expected, (sortBy_perm _ _).mem_iff, h, List.filter_append]
  cases huses : (ofLines lines).uses d with
  | false =>
    have hmem : d ∉ (before.filter (ofLines lines).uses) ++
        (d :: after).filter (ofLines lines).uses := by
      rw [← List.filter_append]
      simp [huses]
    simpa using fun hd => hmem ((distinctBy_sublist _ _).subset hd)
  | true =>
    have hbefore : d ∉ before.filter (ofLines lines).uses :=
      fun hd => notMem_before h (List.mem_filter.1 hd).1
    rw [List.filter_cons_of_pos huses, mem_distinctBy_iff hbefore]
    simp [List.mem_filter]

/-! ## What a file can do without -/

/-- An import of names that are all unused. -/
def ListsUnused (b : ImportBlock) (d : ImportDecl) : Prop :=
  ∃ names ∈ d.listedNames?, ∀ name ∈ names, ∀ line ∈ b.below, name.occursIn line = false

/-- An import of the symbol of an earlier one. -/
def RepeatsSymbol (before : List ImportDecl) (d : ImportDecl) : Prop :=
  ∃ name ∈ d.symbol, ∃ e ∈ before, e.symbol = some name

/-- An import of the same whole file as an earlier one. -/
def RepeatsPath (before : List ImportDecl) (d : ImportDecl) : Prop :=
  d.isBraced = false ∧ d.path ≠ [] ∧ ∃ e ∈ before, e.isBraced = false ∧ e.path = d.path

/-- An import, behind others, that a file can do without. -/
def Dispensable (b : ImportBlock) (before : List ImportDecl) (d : ImportDecl) : Prop :=
  b.ListsUnused d ∨ RepeatsSymbol before d ∨ RepeatsPath before d

instance (b : ImportBlock) (d : ImportDecl) : Decidable (b.ListsUnused d) :=
  inferInstanceAs (Decidable (∃ names ∈ d.listedNames?, _))

instance (before : List ImportDecl) (d : ImportDecl) : Decidable (RepeatsSymbol before d) :=
  inferInstanceAs (Decidable (∃ name ∈ d.symbol, _))

instance (before : List ImportDecl) (d : ImportDecl) : Decidable (RepeatsPath before d) :=
  inferInstanceAs (Decidable (_ ∧ _ ∧ _))

instance (b : ImportBlock) (before : List ImportDecl) (d : ImportDecl) :
    Decidable (b.Dispensable before d) :=
  inferInstanceAs (Decidable (_ ∨ _ ∨ _))

/-- An import that is judged by what it imports. One with a symbol repeats it, or the symbol is used
and is not the path of an earlier import that has none. One without a symbol repeats a whole file,
or its path is not the identity of an earlier import that is used. -/
def WellJudged (b : ImportBlock) (before : List ImportDecl) (d : ImportDecl) : Prop :=
  match d.symbol with
  | some name => (∃ e ∈ before, e.symbol = some name) ∨
      b.uses d = true ∧ ∀ e ∈ before, e.symbol = none → e.path ≠ name
  | none => RepeatsPath before d ∨ ∀ e ∈ before, b.uses e = true → e.identity ≠ d.path

theorem dispensable_iff_of_symbol {b : ImportBlock} {before : List ImportDecl} {d : ImportDecl}
    (hfrom : d.FromLine) {name : Text} (hname : d.symbol = some name) :
    b.Dispensable before d ↔ b.ListsUnused d ∨ ∃ e ∈ before, e.symbol = some name := by
  have hpath : ¬RepeatsPath before d := by
    rintro ⟨hbraced, -⟩
    rw [hfrom.isBraced_of_symbol hname] at hbraced
    cases hbraced
  simp [Dispensable, hpath, RepeatsSymbol, hname]

theorem dispensable_iff_of_no_symbol {b : ImportBlock} {before : List ImportDecl} {d : ImportDecl}
    (hname : d.symbol = none) :
    b.Dispensable before d ↔ b.ListsUnused d ∨ RepeatsPath before d := by
  simp [Dispensable, RepeatsSymbol, hname]

theorem uses_of_no_symbol {b : ImportBlock} {d : ImportDecl} (h : d.symbol = none) :
    b.uses d = true := by
  simp [uses, h]

/-- One import is dropped only if it is dispensable. -/
theorem dispensable_of_dropped_iff {lines : List Text} {before after : List ImportDecl}
    {d : ImportDecl} (h : (ofLines lines).imports = before ++ d :: after) :
    (d ∉ (ofLines lines).expected → (ofLines lines).Dispensable before d) ↔
      (ofLines lines).ListsUnused d ∨ (ofLines lines).WellJudged before d := by
  have hmem : d ∈ (splitFrom 1 false false lines).imports := by
    show d ∈ (ofLines lines).imports
    rw [h]
    simp
  have hfrom : d.FromLine := fromLine_of_mem_splitFrom hmem
  rw [mem_expected_iff h]
  cases hname : d.symbol with
  | none =>
    have huses := uses_of_no_symbol (b := ofLines lines) hname
    have hidentity : d.identity = d.path := by rw [ImportDecl.identity, hname, Option.getD_none]
    simp only [WellJudged, hname, dispensable_iff_of_no_symbol hname, huses, hidentity, true_and]
    tauto
  | some name =>
    have hidentity : d.identity = name := by rw [ImportDecl.identity, hname, Option.getD_some]
    simp only [WellJudged, hname, dispensable_iff_of_symbol hfrom hname, hidentity]
    constructor
    · intro hdropped
      by_cases hrepeat : ∃ e ∈ before, e.symbol = some name
      · exact .inr (.inl hrepeat)
      · by_cases hkept : (ofLines lines).uses d = true ∧
            ∀ e ∈ before, (ofLines lines).uses e = true → e.identity ≠ name
        · refine .inr (.inr ⟨hkept.1, fun e he hnone hpath => ?_⟩)
          refine hkept.2 e he (uses_of_no_symbol hnone) ?_
          rw [ImportDecl.identity, hnone, Option.getD_none, hpath]
        · exact .inl ((hdropped hkept).resolve_right hrepeat)
    · rintro (hunused | hrepeat | ⟨huses, hpaths⟩) hdropped
      · exact .inl hunused
      · exact .inr hrepeat
      · -- what drops it has its symbol for a symbol, because it does not have it for a path
        obtain ⟨e, he, -, hsame⟩ : ∃ e ∈ before, (ofLines lines).uses e = true ∧
            e.identity = name := by
          by_contra hnone
          push Not at hnone
          exact hdropped ⟨huses, hnone⟩
        refine .inr ⟨e, he, ?_⟩
        cases hsymbol : e.symbol with
        | none =>
          rw [ImportDecl.identity, hsymbol, Option.getD_none] at hsame
          exact absurd hsame (hpaths e he hsymbol)
        | some other =>
          rw [ImportDecl.identity, hsymbol, Option.getD_some] at hsame
          rw [hsame]

/-- **Only dispensable imports are dropped**, exactly if each import lists unused names alone or is
well judged. -/
theorem drops_dispensable_iff (lines : List Text) :
    (∀ before d after, (ofLines lines).imports = before ++ d :: after →
      d ∉ (ofLines lines).expected → (ofLines lines).Dispensable before d) ↔
      ∀ before d after, (ofLines lines).imports = before ++ d :: after →
        (ofLines lines).ListsUnused d ∨ (ofLines lines).WellJudged before d := by
  constructor
  · intro hdrops before d after h
    exact (dispensable_of_dropped_iff h).1 (hdrops before d after h)
  · intro hjudged before d after h
    exact (dispensable_of_dropped_iff h).2 (hjudged before d after h)

/-- An import of two names that are both used is dropped, because its symbol is read with the comma;
and so is the second of two imports from one file whose braces touch the names. -/
theorem used_names_dropped :
    (∃ d, (ofLines ["import { A, B } from \"./X.sol\";", "contract C { A a; B b; }"]).imports =
        [] ++ d :: [] ∧
      d ∉ (ofLines ["import { A, B } from \"./X.sol\";", "contract C { A a; B b; }"]).expected ∧
        ¬(ofLines ["import { A, B } from \"./X.sol\";",
          "contract C { A a; B b; }"]).Dispensable [] d) ∧
      ∃ d e, (ofLines ["import {A} from \"./X.sol\";", "import {B} from \"./X.sol\";",
          "contract C { A a; B b; }"]).imports = [d] ++ e :: [] ∧
        e ∉ (ofLines ["import {A} from \"./X.sol\";", "import {B} from \"./X.sol\";",
          "contract C { A a; B b; }"]).expected ∧
          ¬(ofLines ["import {A} from \"./X.sol\";", "import {B} from \"./X.sol\";",
            "contract C { A a; B b; }"]).Dispensable [d] e := by
  refine ⟨⟨.ofLine 1 "import { A, B } from \"./X.sol\";", ?_⟩,
    .ofLine 1 "import {A} from \"./X.sol\";", .ofLine 2 "import {B} from \"./X.sol\";", ?_⟩
  · decide +kernel
  · decide +kernel

end ImportBlock

end ContractLint
