import ContractLint.Listing
import ContractLint.Proofs.Analysis.Placement
import ContractLint.Proofs.FileTree.FeedFree
import ContractLint.Proofs.Rule.MarkedLines
import ContractLint.Proofs.Source.WrittenLines

/-!
# One line for each violation

The compact listing of a report ends the display of each violation with a line feed. A reader can
tell the violations apart by lines exactly if no display holds a line feed of its own. Displays show
paths of the tree, settings and messages, and the one message that lists several lines of a file is
that of the imports.

## The architecture

* **`splitAt_unlines_iff`** — which lists of lines are read back from their listing.
* **`SourceView.FeedFree`** — files of which only the message about imports is broken
  (`Check.newline_mem_message_iff`, one lemma for each check).
* **`exists_file_of_mem_violations`** — a run reports what the rules find in the files it visits, as
  they are settled.
* **`compact_lines_iff`** — the listing of a run.
-/

namespace ContractLint

/-! ## Lines of a listing -/

theorem Text.splitAt_of_notMem {c : Char} {t : Text} (h : c ∉ t) : splitAt c t = [t] := by
  have hbreaks : ∀ d ∈ t, (d == c) = false := by
    intro d hd
    rw [beq_eq_false_iff_ne]
    rintro rfl
    exact h hd
  have hpieces := pieces_append hbreaks []
  rw [List.append_nil] at hpieces
  rw [splitAt, hpieces]
  simp [pieces]

/-- **Terminated lines are read back** exactly if none of them holds a line feed. -/
theorem splitAt_unlines_iff (lines : List Text) :
    Text.splitAt '\n' (unlines lines) = lines ++ [[]] ↔ ∀ line ∈ lines, '\n' ∉ line := by
  constructor
  · intro h line hline hfeed
    have hpiece : line ∈ Text.splitAt '\n' (unlines lines) := by simp [h, hline]
    exact absurd (Text.mem_of_mem_pieces hpiece hfeed).2 (by decide)
  · intro h
    induction lines with
    | nil => rfl
    | cons line rest ih =>
      rw [List.forall_mem_cons] at h
      have hunlines : unlines (line :: rest) = line ++ '\n' :: unlines rest := by simp [unlines]
      rw [hunlines, Text.splitAt_append_cons, Text.splitAt_of_notMem h.1, ih h.2]
      rfl

theorem newline_notMem_decimal (n : Nat) : '\n' ∉ Text.decimal n := by
  intro h
  have hdigit : '\n'.isDigit = true := Nat.isDigit_of_mem_toDigits (by decide) (by decide) h
  exact absurd hdigit (by decide)

theorem Violation.newline_mem_display_iff (v : Violation) :
    '\n' ∈ v.display ↔ '\n' ∈ v.location.file.text ∨ '\n' ∈ v.code ∨ '\n' ∈ v.message := by
  have hline := newline_notMem_decimal v.location.line
  have hcolumn := newline_notMem_decimal v.location.column
  have hseverity : '\n' ∉ v.severity.name := by cases v.severity <;> decide
  simp [display, hline, hcolumn, hseverity]

/-! ## Messages -/

/-- Files without line feeds in the paths that are shown and in their lines. -/
structure SourceView.FeedFree (v : SourceView) : Prop where
  relativePath : '\n' ∉ v.relativePath.text
  fileName : '\n' ∉ v.fileName
  lines : ∀ line ∈ v.source.lines, '\n' ∉ line

variable {v : SourceView} {f : Finding}

theorem DocBlock.newline_notMem_message (hv : v.FeedFree) (hf : f ∈ findings v) :
    '\n' ∉ f.message := by
  obtain ⟨⟨line, fault⟩, -, rfl⟩ := List.mem_map.1 hf
  have hfault : '\n' ∉ fault.message := by
    cases fault with
    | misaligned column =>
      show '\n' ∉ ("Params not aligned to column " : Text) ++ Text.decimal (column + 1)
      rw [List.mem_append, not_or]
      exact ⟨by decide, newline_notMem_decimal _⟩
    | oneSpace => decide
    | manySpaces => decide
    | noBlankLine => decide
  simp [hfault, hv.fileName, newline_notMem_decimal line]

theorem Header.newline_notMem_message {header : Header} (hversion : '\n' ∉ header.solidityVersion)
    (hv : v.FeedFree) (hf : f ∈ header.findings v) : '\n' ∉ f.message := by
  obtain ⟨⟨line, message⟩, hmem, rfl⟩ := List.mem_map.1 hf
  have hname : '\n' ∉ v.source.fileName := hv.fileName
  have hrequired := (List.mem_filter.1 hmem).1
  show '\n' ∉ message
  simp only [requirements, List.mem_cons, Prod.mk.injEq, List.not_mem_nil, or_false] at hrequired
  rcases hrequired with ⟨-, rfl⟩ | ⟨-, rfl⟩ | ⟨-, rfl⟩ | ⟨-, rfl⟩ | ⟨-, rfl⟩ <;>
    simp [hname, hversion]

/-- A marker is found in a line, so it holds no line feed if the lines do not. -/
theorem Marker.newline_notMem_message {marker : Text} (hv : v.FeedFree)
    (hf : f ∈ findings marker v) : '\n' ∉ f.message := by
  rw [findings] at hf
  split at hf
  · cases hf
  · obtain ⟨⟨line, column⟩, hmem, rfl⟩ := List.mem_map.1 hf
    obtain ⟨k, text, before, after, -, htext, hcut, -⟩ := exists_cut_of_mem_placesFrom hmem
    have hmarker : '\n' ∉ marker := by
      intro hfeed
      refine hv.lines text (List.mem_of_getElem? htext) ?_
      rw [Text.cut_eq_some_append hcut]
      simp [hfeed]
    simp [hmarker, hv.fileName, newline_notMem_decimal line]

/-- The imports that are complained about are listed on lines of their own. -/
theorem ImportBlock.newline_mem_message (hf : f ∈ findings v) : '\n' ∈ f.message := by
  rw [findings] at hf
  split at hf
  · cases hf
  · next hcorrect =>
    obtain rfl := List.mem_singleton.1 hf
    cases himports : (ofLines v.source.lines).imports with
    | nil =>
      -- a file without imports is as it should be
      refine absurd ?_ hcorrect
      simp [isCorrect, expected, himports, distinctBy]
    | cons d rest => simp [listing]

/-- **Only the message about imports is broken into lines.** -/
theorem Check.newline_mem_message_iff {check : Check} (hv : v.FeedFree)
    (hversion : ∀ header, check = .fileHeader header → '\n' ∉ header.solidityVersion)
    (hf : f ∈ check.findings v) : '\n' ∈ f.message ↔ check = .importOrder := by
  cases check with
  | importOrder => exact iff_of_true (ImportBlock.newline_mem_message hf) rfl
  | fileHeader header =>
    exact iff_of_false (Header.newline_notMem_message (hversion header rfl) hv hf) nofun
  | functionComments => exact iff_of_false (DocBlock.newline_notMem_message hv hf) nofun
  | exclusiveTests marker => exact iff_of_false (Marker.newline_notMem_message hv hf) nofun

theorem Check.newline_notMem_code (check : Check) : '\n' ∉ check.code := by
  cases check with
  | importOrder => decide
  | fileHeader header =>
    show '\n' ∉ ("SL002" : Text)
    decide
  | functionComments => decide
  | exclusiveTests marker =>
    show '\n' ∉ ("SL004" : Text)
    decide

namespace Analysis

/-! ## Files as they are reported on -/

variable {a : Analysis} {p : Path} {text : Text}

/-- Fixing brings no line feed into a line, as it moves lines and takes off blanks. -/
theorem newline_notMem_of_mem_settled {line : Text} (h : line ∈ (a.settled p text).1.lines) :
    '\n' ∉ line := by
  rw [settled] at h
  split at h
  · by_cases hdone : a.Converged text.lines
    · rw [applyFixes_of_converged (s := Source.ofText p text) hdone] at h
      exact newline_notMem_of_mem_lines h
    · rw [applyFixes_of_not_converged (s := Source.ofText p text) hdone] at h
      obtain ⟨k, hk, hline⟩ := ImportBlock.exists_line_of_mem_arranged h
      have hfeed := newline_notMem_of_mem_lines hk
      rcases hline with rfl | rfl
      · exact hfeed
      · exact fun hmem => hfeed ((Text.isSuffix_trimStart k).subset hmem)
  · exact newline_notMem_of_mem_lines h

theorem feedFree_settled (hp : '\n' ∉ p.text) (a : Analysis) (text : Text) :
    (SourceView.ofRoot a.root (a.settled p text).1).FeedFree where
  relativePath := by
    show '\n' ∉ ((a.settled p text).1.path.relativeTo a.root).text
    rw [path_settled]
    exact fun hfeed => hp (Path.mem_text_of_mem_relativeTo (by decide) hfeed)
  fileName := by
    show '\n' ∉ (a.settled p text).1.path.fileName
    rw [path_settled]
    exact fun hfeed => hp (Path.mem_text_of_mem_fileName hfeed)
  lines _ hline := newline_notMem_of_mem_settled hline

/-- In a file that was fixed the imports are as they should be. -/
theorem converged_settled (hfix : a.fix = true) (p : Path) (text : Text) :
    a.Converged (a.settled p text).1.lines := by
  rw [settled, if_pos hfix]
  by_cases hdone : a.Converged text.lines
  · rw [applyFixes_of_converged (s := Source.ofText p text) hdone]
    exact hdone
  · rw [applyFixes_of_not_converged (s := Source.ofText p text) hdone]
    exact fun _ _ _ => ImportBlock.isCorrect_arranged text.lines

/-- **Only violations of the imports are broken into lines**, if the rules and the path of the file
hold no line feed. -/
theorem newline_mem_display_iff (hp : '\n' ∉ p.text)
    (hversion : ∀ r ∈ a.rules, ∀ header, r.check = .fileHeader header →
      '\n' ∉ header.solidityVersion) {v : Violation} (hv : v ∈ a.check (a.settled p text).1) :
    '\n' ∈ v.display ↔ v.rule = Check.importOrder.name := by
  obtain ⟨r, hr, f, hf, hrule, hcode, hmessage, hlocation⟩ := exists_finding_of_mem_check hv
  have hfree := feedFree_settled hp a text
  have hfile : '\n' ∉ v.location.file.text := by
    rw [hlocation]
    exact hfree.relativePath
  have hiff : '\n' ∈ f.message ↔ r.check = .importOrder :=
    Check.newline_mem_message_iff hfree (hversion r (List.mem_of_mem_filter hr)) hf
  rw [v.newline_mem_display_iff, hcode, hmessage, hiff, hrule]
  simp only [hfile, r.check.newline_notMem_code, false_or]
  exact ⟨fun hcheck => congrArg Check.name hcheck, Check.eq_importOrder_of_name⟩

/-! ## Runs -/

variable {t t' : FileTree} {r r' : Report}

/-- What a run reports is found in the files that it visits, as they are settled. -/
theorem exists_file_of_mem_violations {files : List Path}
    (h : a.runFiles files t r = (t', .ok r')) {v : Violation} (hv : v ∈ r'.violations) :
    v ∈ r.violations ∨ ∃ p ∈ files, ∃ text, v ∈ a.check (a.settled p text).1 := by
  induction files generalizing t r with
  | nil =>
    cases h
    exact .inl hv
  | cons p rest ih =>
    cases hread : t.readText p with
    | error cause =>
      rw [runFiles, hread] at h
      cases h
    | ok text =>
      rw [runFiles_cons hread, runFile_eq] at h
      rcases ih h with hbefore | ⟨q, hq, found⟩
      · rcases List.mem_append.1 hbefore with hbefore | hfound
        · exact .inl hbefore
        · exact .inr ⟨p, List.mem_cons_self .., text, hfound⟩
      · exact .inr ⟨q, List.mem_cons_of_mem _ hq, found⟩

theorem newline_notMem_of_files (ht : t.FeedFree) {files : List Path} (h : a.files t = .ok files) :
    ∀ p ∈ files, '\n' ∉ p.text := by
  rw [Analysis.files] at h
  split at h
  · next discovered hdiscover =>
    cases h
    exact fun p hp => ht.newline_notMem_of_discover hdiscover p (List.mem_filter.1 hp).1
  · cases h

/-- Every violation in a report was found in a file without line feeds in its path. -/
theorem exists_file_of_run (ht : t.FeedFree) (h : a.run t = (t', .ok r)) {v : Violation}
    (hv : v ∈ r.violations) :
    ∃ p text, '\n' ∉ p.text ∧ v ∈ a.check (a.settled p text).1 := by
  obtain ⟨files, report, hfiles, hreport, rfl⟩ := run_eq_ok_iff.1 h
  have hmem := (sortBy_perm Violation.le report.violations).mem_iff.1 hv
  rcases exists_file_of_mem_violations hreport hmem with hnone | ⟨p, hp, text, hfound⟩
  · cases hnone
  · exact ⟨p, text, newline_notMem_of_files ht hfiles p hp, hfound⟩

/-- Headers are checked for the compiler version of the settings. -/
theorem header_eq_of_mem_rules {s : Settings} {target : Target} {rule : Rule}
    (h : rule ∈ target.rules s) {header : Header} (hcheck : rule.check = .fileHeader header) :
    header = s.header := by
  cases target with
  | contracts =>
    simp only [Target.rules, contractRules, List.mem_cons, List.not_mem_nil, or_false] at h
    rcases h with rfl | rfl | rfl
    · cases hcheck
    · cases hcheck
    · exact (Check.fileHeader.inj hcheck).symm
  | tests =>
    obtain rfl := List.mem_singleton.1 h
    cases hcheck

/-- The imports of tests are not looked at, and those of fixed files are as they should be. -/
theorem rule_ne_importOrder_settled {target : Target} (hrules : a.rules = target.rules a.settings)
    (hquiet : target = .tests ∨ a.fix = true) {v : Violation}
    (hv : v ∈ a.check (a.settled p text).1) : v.rule ≠ Check.importOrder.name := by
  rcases hquiet with rfl | hfix
  · obtain ⟨rule, hrule, f, -, hname, -⟩ := exists_finding_of_mem_check hv
    have hmem := List.mem_of_mem_filter hrule
    rw [hrules] at hmem
    obtain rfl := List.mem_singleton.1 hmem
    intro himport
    cases Check.eq_importOrder_of_name (hname.symm.trans himport)
  · exact rule_ne_importOrder (converged_settled hfix p text) hv

/-- **The compact listing of a run has one line for each violation** exactly if none of them is about
imports. Let the contracts or the tests be checked, let no name in the tree and not the compiler
version of the settings hold a line feed, and let the run give a report.

* The listing falls into the displays of the violations, each ended by a line feed, if and only if
  the report has no complaint about imports.
* That is so in every run over tests, and in every run that fixes. -/
theorem compact_lines_iff {target : Target} (hrules : a.rules = target.rules a.settings)
    (hversion : '\n' ∉ a.settings.header.solidityVersion) (ht : t.FeedFree)
    (hrun : a.run t = (t', .ok r)) :
    (Text.splitAt '\n' r.compactListing = r.violations.map Violation.display ++ [[]] ↔
      ∀ v ∈ r.violations, v.rule ≠ Check.importOrder.name) ∧
    (target = .tests ∨ a.fix = true →
      Text.splitAt '\n' r.compactListing = r.violations.map Violation.display ++ [[]]) := by
  have hheaders : ∀ rule ∈ a.rules, ∀ header, rule.check = .fileHeader header →
      '\n' ∉ header.solidityVersion := by
    intro rule hrule header hcheck
    rw [hrules] at hrule
    rwa [header_eq_of_mem_rules hrule hcheck]
  have hlines : Text.splitAt '\n' r.compactListing = r.violations.map Violation.display ++ [[]] ↔
      ∀ v ∈ r.violations, v.rule ≠ Check.importOrder.name := by
    rw [Report.compactListing, splitAt_unlines_iff, List.forall_mem_map]
    refine forall₂_congr fun v hv => not_congr ?_
    obtain ⟨p, text, hp, hfound⟩ := exists_file_of_run ht hrun hv
    exact newline_mem_display_iff hp hheaders hfound
  refine ⟨hlines, fun hquiet => hlines.2 fun v hv => ?_⟩
  obtain ⟨p, text, -, hfound⟩ := exists_file_of_run ht hrun hv
  exact rule_ne_importOrder_settled hrules hquiet hfound

/-- Checks the contracts of a project, without their headers. -/
def contractCheck : Analysis :=
  .ofSettings "/p" { rules := [("file-header", { enabled := some false })] } .contracts

/-- A project with one contract, which has a fault in a comment below its imports. -/
def contractWith (imports : Text) : FileTree where
  files := [(["p".toList, "contracts".toList, "A.sol".toList], encode (imports ++ "// @param a\n"))]

/-- The fault in the comment. -/
def spacingViolation : Violation where
  code := "SL003"
  rule := "function-comments"
  severity := .error
  location := ⟨"A.sol", 3, 1, 36, 11⟩
  message := "Param has only one space (A.sol:3)"

/-- With sorted imports there is one violation and one line. -/
theorem compact_lines_iff_sortedImports :
    let t := contractWith "import \"a/A.sol\";\nimport \"z/Z.sol\";\n"
    let r : Report := ⟨[spacingViolation], 1, []⟩
    (contractCheck.run t).2 = .ok r ∧
      Text.splitAt '\n' r.compactListing = r.violations.map Violation.display ++ [[]] := by
  intro t r
  have hrules : contractCheck.rules = Target.contracts.rules contractCheck.settings := rfl
  have hrun : (contractCheck.run t).2 = .ok r := by decide +kernel
  have hquiet : ∀ v ∈ r.violations, v.rule ≠ Check.importOrder.name := by decide
  have hlines := compact_lines_iff hrules (by decide) (t := t) (by decide) (Prod.ext rfl hrun)
  exact ⟨hrun, hlines.1.2 hquiet⟩

/-- With unsorted imports there are two violations and four lines, because the complaint about the
imports lists both of them below. -/
theorem listed_imports_break_line :
    let t := contractWith "import \"z/Z.sol\";\nimport \"a/A.sol\";\n"
    t.FeedFree ∧ ∃ r, (contractCheck.run t).2 = .ok r ∧ r.violations.length = 2 ∧
      (Text.splitAt '\n' r.compactListing).length = 4 + 1 ∧
        Text.splitAt '\n' r.compactListing ≠ r.violations.map Violation.display ++ [[]] := by
  intro t
  refine ⟨by decide, ?_⟩
  have hlengths : (contractCheck.run t).2.map (fun r =>
      (r.violations.length, (Text.splitAt '\n' r.compactListing).length)) = .ok (2, 5) := by
    decide +kernel
  cases hrun : (contractCheck.run t).2 with
  | error e =>
    rw [hrun] at hlengths
    cases hlengths
  | ok r =>
    rw [hrun] at hlengths
    obtain ⟨hcount, hlines⟩ := Prod.mk.inj (Except.ok.inj hlengths)
    refine ⟨r, rfl, hcount, hlines, fun hall => ?_⟩
    rw [hall, List.length_append, List.length_map, hcount] at hlines
    cases hlines

end Analysis

end ContractLint
