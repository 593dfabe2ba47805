import ContractLint.Analysis
import ContractLint.Proofs.FileTree.Writes
import ContractLint.Proofs.Rule.Reread

/-!
# Fixing converges in one run

A run that puts files right checks each of them in memory, right after it was fixed. The next run
reads the files from disk. It finds nothing left to fix and reports what the first run reported.

## The architecture

* **`Converged`** — lines in which no enabled rule has anything to put right. Fixing a file gives
  such lines (`applyFixes_of_not_converged`), in memory as when read back.
* **`diskViolations`** — the violations in a file as it is on disk. One step of a run reports those
  of its own file (`runFile_step`), and no later step writes to that file again, also if two paths
  lead to one file.
* **`runFiles_report`** — so what a run reports is what is on disk at its end.
* **`runFiles_unchanged`** — a run over such files, fixing or not, leaves the tree as it is and
  reports the same.
* **`fix_converges`** — the runs together.
-/

namespace ContractLint.Analysis

variable {a : Analysis}

/-! ## Fixing a file -/

/-- Lines in which no enabled rule has anything to put right. -/
def Converged (a : Analysis) (lines : List Text) : Prop :=
  ∀ r ∈ a.enabledRules, r.check = .importOrder → (ImportBlock.ofLines lines).isCorrect = true

instance (a : Analysis) (lines : List Text) : Decidable (a.Converged lines) :=
  inferInstanceAs (Decidable (∀ r ∈ a.enabledRules, _ → _))

theorem applyFix_of_correct {s : Source} {r : Rule}
    (h : r.check = .importOrder → (ImportBlock.ofLines s.lines).isCorrect = true) (changed : Bool) :
    a.applyFix (s, changed) r = (s, changed) := by
  have hfix : r.fix (.ofRoot a.root s) = none := by
    rw [Rule.fix]
    cases hcheck : r.check with
    | importOrder =>
      have hcorrect := h hcheck
      simp only [Check.fix, ImportBlock.fix, SourceView.ofRoot, hcorrect, if_true]
    | fileHeader header => rfl
    | functionComments => rfl
    | exclusiveTests marker => rfl
  simp only [applyFix, hfix]

theorem foldl_applyFix_of_correct {s : Source} {rules : List Rule}
    (h : ∀ r ∈ rules, r.check = .importOrder → (ImportBlock.ofLines s.lines).isCorrect = true)
    (changed : Bool) : rules.foldl a.applyFix (s, changed) = (s, changed) := by
  induction rules with
  | nil => rfl
  | cons r rules ih =>
    rw [List.foldl_cons, applyFix_of_correct (h r (by simp))]
    exact ih fun q hq => h q (by simp [hq])

theorem applyFixes_of_converged {s : Source} (h : a.Converged s.lines) :
    a.applyFixes s = (s, false) :=
  foldl_applyFix_of_correct h false

/-- The first rule that puts the imports right leaves nothing to the others. -/
theorem foldl_applyFix_of_not_correct {s : Source} {rules : List Rule}
    (hrule : ∃ r ∈ rules, r.check = .importOrder)
    (h : (ImportBlock.ofLines s.lines).isCorrect = false) (changed : Bool) :
    rules.foldl a.applyFix (s, changed) =
      (s.withLines (ImportBlock.ofLines s.lines).arranged, true) := by
  induction rules with
  | nil => simp at hrule
  | cons r rules ih =>
    rw [List.foldl_cons]
    by_cases hcheck : r.check = .importOrder
    · have hfix : a.applyFix (s, changed) r =
          (s.withLines (ImportBlock.ofLines s.lines).arranged, true) := by
        simp only [applyFix, Rule.fix, hcheck, Check.fix, ImportBlock.fix, SourceView.ofRoot, h,
          Bool.false_eq_true, if_false]
      rw [hfix]
      -- the imports are right from here on, so no further rule writes lines
      refine foldl_applyFix_of_correct (fun _ _ _ => ?_) true
      rw [Source.withLines_lines]
      exact ImportBlock.isCorrect_arranged s.lines
    · rw [applyFix_of_correct fun himport => absurd himport hcheck]
      refine ih ?_
      obtain ⟨q, hq, himport⟩ := hrule
      rcases List.mem_cons.1 hq with rfl | hq
      · exact absurd himport hcheck
      · exact ⟨q, hq, himport⟩

/-- **Fixing arranges the imports, once.** -/
theorem applyFixes_of_not_converged {s : Source} (h : ¬a.Converged s.lines) :
    a.applyFixes s = (s.withLines (ImportBlock.ofLines s.lines).arranged, true) := by
  simp only [Converged, not_forall, Bool.not_eq_true] at h
  obtain ⟨r, hr, himport, hcorrect⟩ := h
  exact foldl_applyFix_of_not_correct ⟨r, hr, himport⟩ hcorrect false

/-- The arranged lines of a file can be written, if its text does not end in a carriage return. -/
theorem terminates_arranged (p : Path) {text : Text} (h : text.getLast? ≠ some '\r') :
    ∀ line ∈ (ImportBlock.ofLines text.lines).arranged,
      (Source.ofText p text).ending.Terminates line := by
  intro line hline
  obtain ⟨k, hk, hsame⟩ := ImportBlock.exists_line_of_mem_arranged hline
  have hterm := terminates_of_mem_lines (Source.not_crlf_infix_of_ofText p text) h k hk
  rcases hsame with rfl | rfl
  · exact hterm
  · exact hterm.trimStart

/-! ## What is on disk -/

theorem check_eq_of_reread {s u : Source} (h : s.Reread u) (hs : a.Converged s.lines) :
    a.check s = a.check u := by
  unfold check
  simp only [List.flatMap]
  refine congrArg List.flatten (List.map_congr_left fun r hr => ?_)
  simp only [ruleViolations, h.violations_eq a.root (hs r hr)]

theorem converged_of_reread {s u : Source} (h : s.Reread u) (hs : a.Converged s.lines) :
    a.Converged u.lines :=
  fun r hr himport => h.isCorrect_eq.trans (hs r hr himport)

/-- A file that is fixed is converged in memory, and can be read back. -/
theorem exists_fixed (p : Path) {text : Text} (hreturn : text.getLast? ≠ some '\r')
    (h : ¬a.Converged text.lines) :
    ∃ fixed, a.applyFixes (Source.ofText p text) = (fixed, true) ∧ a.Converged fixed.lines ∧
      fixed.Reread (Source.ofText p fixed.toText) := by
  have hterm := terminates_arranged p hreturn
  set arranged := (ImportBlock.ofLines text.lines).arranged with harranged
  refine ⟨(Source.ofText p text).withLines arranged, applyFixes_of_not_converged h,
    fun _ _ _ => ?_, ?_⟩
  · rw [Source.withLines_lines, harranged]
    exact ImportBlock.isCorrect_arranged text.lines
  · exact Source.reread_ofText_toText (s := (Source.ofText p text).withLines arranged) hterm

/-- The violations in a file as it is on disk. -/
def diskViolations (a : Analysis) (t : FileTree) (p : Path) : List Violation :=
  match t.readText p with
  | .ok text => a.check (Source.ofText p text)
  | .error _ => []

theorem diskViolations_of_readText {t : FileTree} {p : Path} {text : Text}
    (h : t.readText p = .ok text) : a.diskViolations t p = a.check (Source.ofText p text) := by
  rw [diskViolations, h]

/-- A violation in a file is a finding of an enabled rule, put down to the rule. -/
theorem exists_finding_of_mem_check {s : Source} {v : Violation} (h : v ∈ a.check s) :
    ∃ r ∈ a.enabledRules, ∃ f ∈ r.check.findings (.ofRoot a.root s), v.rule = r.check.name ∧
      v.code = r.check.code ∧ v.message = f.message ∧
        v.location = (SourceView.ofRoot a.root s).location f.line f.column := by
  obtain ⟨r, hr, hv⟩ := List.mem_flatMap.1 h
  refine ⟨r, hr, ?_⟩
  rw [ruleViolations] at hv
  split at hv
  · obtain ⟨w, hw, rfl⟩ := List.mem_map.1 hv
    obtain ⟨f, hf, rfl⟩ := List.mem_map.1 hw
    exact ⟨f, hf, rfl, rfl, rfl, rfl⟩
  · obtain ⟨f, hf, rfl⟩ := List.mem_map.1 hv
    exact ⟨f, hf, rfl, rfl, rfl, rfl⟩

/-- In converged lines the imports are not complained about. -/
theorem rule_ne_importOrder {s : Source} (h : a.Converged s.lines) {v : Violation}
    (hv : v ∈ a.check s) : v.rule ≠ Check.importOrder.name := by
  obtain ⟨r, hr, f, hf, hname, -⟩ := exists_finding_of_mem_check hv
  intro himport
  have hcheck := Check.eq_importOrder_of_name (hname.symm.trans himport)
  rw [hcheck] at hf
  simp [Check.findings, ImportBlock.findings, SourceView.ofRoot, h r hr hcheck] at hf

/-! ## One file -/

/-- A file that fixing brings to an end, if it can be read. -/
def Ready (a : Analysis) (t : FileTree) (p : Path) : Prop :=
  ∀ text, t.readText p = .ok text → text.getLast? ≠ some '\r' ∨ a.Converged text.lines

/-- What a run keeps from one state of the tree to a later one: names, what is ready, and the text
of every file in which nothing is left to fix. -/
structure Advances (a : Analysis) (t u : FileTree) : Prop where
  shape : t.SameShape u
  ready : ∀ p, a.Ready t p → a.Ready u p
  kept : ∀ p text, t.readText p = .ok text → a.Converged text.lines → u.readText p = .ok text

theorem Advances.refl (a : Analysis) (t : FileTree) : a.Advances t t :=
  ⟨.refl t, fun _ hp => hp, fun _ _ hread _ => hread⟩

theorem Advances.trans {t u v : FileTree} (h : a.Advances t u) (h' : a.Advances u v) :
    a.Advances t v where
  shape := h.shape.trans h'.shape
  ready p hp := h'.ready p (h.ready p hp)
  kept p text hread hdone := h'.kept p text (h.kept p text hread hdone) hdone

/-- A file in which nothing is left to fix is only checked, with or without fixing. -/
theorem runFile_of_converged {text : Text} (h : a.fix = true → a.Converged text.lines)
    (t : FileTree) (p : Path) (r : Report) :
    a.runFile t p text r =
      (t, ⟨r.violations ++ a.check (Source.ofText p text), r.filesChecked + 1, r.filesFixed⟩) := by
  cases hfix : a.fix with
  | false => simp [runFile, hfix]
  | true =>
    have hnone : a.applyFixes (Source.ofText p text) = (Source.ofText p text, false) :=
      applyFixes_of_converged (h hfix)
    simp [runFile, hfix, hnone]

/-- **One step of a run that fixes**: afterwards its own file is converged, and what was reported
for it is what is on disk. -/
theorem runFile_step {t u : FileTree} {p : Path} {text : Text} {r r' : Report}
    (hfix : a.fix = true) (hread : t.readText p = .ok text) (hready : a.Ready t p)
    (h : a.runFile t p text r = (u, r')) :
    a.Advances t u ∧ r'.filesChecked = r.filesChecked + 1 ∧
      ∃ new, u.readText p = .ok new ∧ a.Converged new.lines ∧
        r'.violations = r.violations ++ a.check (Source.ofText p new) := by
  by_cases hdone : a.Converged text.lines
  · rw [runFile_of_converged fun _ => hdone] at h
    cases h
    exact ⟨.refl a t, rfl, text, hread, hdone, rfl⟩
  · -- the report is made from the fixed file in memory, and has to be that of the text on disk
    have hreturn : text.getLast? ≠ some '\r' := (hready text hread).resolve_right hdone
    obtain ⟨fixed, happly, hmemory, hreread⟩ := exists_fixed p hreturn hdone
    have hdisk : a.Converged fixed.toText.lines := by
      rw [← Source.ofText_lines p]
      exact converged_of_reread hreread hmemory
    have hself := FileTree.readText_writeText_self hread hread rfl fixed.toText
    simp only [runFile, hfix, happly, if_true] at h
    cases h
    refine ⟨⟨FileTree.sameShape_writeText hread _, fun q hq other hother => ?_,
      fun q other hother hconverged => ?_⟩, rfl, fixed.toText, hself, hdisk, ?_⟩
    · rcases FileTree.readText_writeText_cases hread hother with rfl | hbefore
      · exact .inr hdisk
      · exact hq other hbefore
    · -- a path to the same file would have read the text that was not converged
      have hkey : FileTree.keyOf q ≠ FileTree.keyOf p := by
        intro hkey
        obtain rfl := FileTree.readText_unique hread hother hkey
        exact hdone hconverged
      rw [FileTree.readText_writeText_of_ne hread hkey, hother]
    · rw [check_eq_of_reread hreread hmemory]

/-! ## All files -/

theorem runFiles_cons {t : FileTree} {p : Path} {rest : List Path} {text : Text} {r : Report}
    (hread : t.readText p = .ok text) :
    a.runFiles (p :: rest) t r =
      a.runFiles rest (a.runFile t p text r).1 (a.runFile t p text r).2 := by
  rw [runFiles, hread]

/-- **What a run that fixes reports is on disk at its end**, and nothing is left to fix. -/
theorem runFiles_report {files : List Path} {t t' : FileTree} {r r' : Report} (hfix : a.fix = true)
    (hready : ∀ p ∈ files, a.Ready t p) (h : a.runFiles files t r = (t', .ok r')) :
    a.Advances t t' ∧ r'.filesChecked = r.filesChecked + files.length ∧
      (∀ p ∈ files, ∃ text, t'.readText p = .ok text ∧ a.Converged text.lines) ∧
        r'.violations = r.violations ++ files.flatMap (a.diskViolations t') := by
  induction files generalizing t r with
  | nil =>
    cases h
    exact ⟨.refl a _, rfl, by simp, by simp⟩
  | cons p rest ih =>
    cases hread : t.readText p with
    | error e =>
      rw [runFiles, hread] at h
      cases h
    | ok text =>
      rw [runFiles_cons hread] at h
      obtain ⟨hstep, hcount, new, hnew, hconverged, hviolations⟩ :=
        runFile_step hfix hread (hready p (by simp)) (Prod.eta (a.runFile t p text r)).symm
      obtain ⟨hrun, hcounts, hrest, hreport⟩ :=
        ih (fun q hq => hstep.ready q (hready q (by simp [hq]))) h
      have hdisk := hrun.kept p new hnew hconverged
      refine ⟨hstep.trans hrun, ?_, fun q hq => ?_, ?_⟩
      · rw [hcounts, hcount, List.length_cons]
        omega
      · rcases List.mem_cons.1 hq with rfl | hq
        · exact ⟨new, hdisk, hconverged⟩
        · exact hrest q hq
      · rw [hreport, hviolations, List.flatMap_cons, diskViolations_of_readText hdisk,
          List.append_assoc]

/-- **A run over converged files only reports.** -/
theorem runFiles_unchanged {files : List Path} {t : FileTree}
    (h : ∀ p ∈ files, ∃ text, t.readText p = .ok text ∧ (a.fix = true → a.Converged text.lines))
    (r : Report) :
    a.runFiles files t r = (t, .ok ⟨r.violations ++ files.flatMap (a.diskViolations t),
      r.filesChecked + files.length, r.filesFixed⟩) := by
  induction files generalizing r with
  | nil => simp [runFiles]
  | cons p rest ih =>
    obtain ⟨text, hread, hconverged⟩ := h p (by simp)
    rw [runFiles_cons hread, runFile_of_converged hconverged, ih fun q hq => h q (by simp [hq]),
      List.flatMap_cons, diskViolations_of_readText hread]
    simp [Nat.add_assoc, Nat.add_comm 1]

theorem files_eq {t u : FileTree} (h : t.SameShape u)
    (hignore : a.settings.layout.respectGitignore = false) : a.files u = a.files t := by
  rw [files, files, discover_eq h (by simp [hignore])]

/-- A run finds files, runs over them and puts the violations in order. -/
theorem run_eq_ok_iff {t u : FileTree} {r : Report} :
    a.run t = (u, .ok r) ↔
      ∃ files report, a.files t = .ok files ∧ a.runFiles files t {} = (u, .ok report) ∧
        r = ⟨sortBy Violation.le report.violations, report.filesChecked, report.filesFixed⟩ := by
  rw [run]
  cases a.files t with
  | error e =>
    constructor
    · intro h
      cases h
    · rintro ⟨files, report, hfiles, -⟩
      cases hfiles
  | ok files =>
    constructor
    · intro h
      cases hresult : a.runFiles files t {} with
      | mk v result =>
        simp only [hresult] at h
        cases result with
        | error e => cases h
        | ok report =>
          cases h
          exact ⟨files, report, rfl, hresult, rfl⟩
    · rintro ⟨_, report, hfiles, hresult, rfl⟩
      cases hfiles
      simp only [hresult]
      rfl

/-- **A run over converged files leaves the tree alone**, and reports what is on disk. -/
theorem run_unchanged {t : FileTree} {files : List Path} (hfiles : a.files t = .ok files)
    (h : ∀ p ∈ files, ∃ text, t.readText p = .ok text ∧ (a.fix = true → a.Converged text.lines)) :
    a.run t =
      (t, .ok ⟨sortBy Violation.le (files.flatMap (a.diskViolations t)), files.length, []⟩) := by
  have hrun := runFiles_unchanged h {}
  rw [List.nil_append, Nat.zero_add] at hrun
  exact run_eq_ok_iff.2 ⟨files, _, hfiles, hrun, rfl⟩

/-- **Fixing converges in one run, and reports what is on disk.** If a run that fixes succeeds, goes
by no ignore files of a repository and reads no text that ends in a carriage return, then it leaves
no complaint about imports, a second run fixes nothing and changes nothing, and a run that only
checks gives the same report. -/
theorem fix_converges {t t' : FileTree} {r : Report} (hfix : a.fix = true)
    (hignore : a.settings.layout.respectGitignore = false)
    (hreturn : ∀ files, a.files t = .ok files → ∀ p ∈ files, ∀ text, t.readText p = .ok text →
      text.getLast? ≠ some '\r')
    (hrun : a.run t = (t', .ok r)) :
    (∀ v ∈ r.violations, v.rule ≠ Check.importOrder.name) ∧
      (∃ r', a.run t' = (t', .ok r') ∧ r'.filesFixed = []) ∧
        { a with fix := false }.run t' = (t', .ok ⟨r.violations, r.filesChecked, []⟩) := by
  obtain ⟨files, report, hfound, hreport, rfl⟩ := run_eq_ok_iff.1 hrun
  obtain ⟨hadvances, hcount, hconverged, hviolations⟩ := runFiles_report hfix
    (fun p hp text hread => .inl (hreturn files hfound p hp text hread)) hreport
  -- only contents changed, so all three runs go over the same files
  have hfiles : a.files t' = .ok files := (files_eq hadvances.shape hignore).trans hfound
  refine ⟨fun v hv => ?_, ?_, ?_⟩
  · have hmem := (sortBy_perm Violation.le report.violations).mem_iff.1 hv
    rw [hviolations] at hmem
    obtain ⟨p, hp, hmem⟩ := List.mem_flatMap.1 hmem
    obtain ⟨text, hread, hdone⟩ := hconverged p hp
    rw [diskViolations_of_readText hread] at hmem
    exact rule_ne_importOrder (s := Source.ofText p text) hdone hmem
  · have hsecond : a.run t' = _ := run_unchanged hfiles fun p hp => by
      obtain ⟨text, hread, hdone⟩ := hconverged p hp
      exact ⟨text, hread, fun _ => hdone⟩
    exact ⟨_, hsecond, rfl⟩
  · -- checking looks at the same files on disk, and at nothing else
    have hchecked : { a with fix := false }.files t' = .ok files := hfiles
    have hcheck := run_unchanged hchecked fun p hp => by
      obtain ⟨text, hread, -⟩ := hconverged p hp
      exact ⟨text, hread, fun hfalse => nomatch hfalse⟩
    rw [hcheck, hviolations, hcount]
    show (t', Except.ok (Report.mk _ _ _)) = (t', Except.ok (Report.mk _ _ _))
    rw [List.nil_append, Nat.zero_add]
    rfl

/-- An analysis that looks for markers and fixes imports. -/
def fixImports : Analysis where
  root := "/c"
  pattern := "*.sol"
  rules := [{ check := .exclusiveTests ".only(" }, { check := .importOrder }]
  fix := true

/-- A contract with unsorted imports and a marker on its last line, which is not terminated. -/
def unsortedImports : FileTree where
  files := [(["c".toList, "A.sol".toList],
    encode "import \"z/Z.sol\";\r\nimport \"a/A.sol\";\r\n.only(")]

/-- What remains to be said about the contract. -/
def markerViolation : Violation where
  code := "SL004"
  rule := "no-exclusive-tests"
  severity := .error
  location := ⟨"A.sol", 3, 1, 38, 6⟩
  message := ".only( found in A.sol:3"

/-- The imports are sorted by the first run, and the marker is reported by both. -/
theorem fix_converges_unsortedImports :
    (fixImports.run unsortedImports).2 = .ok ⟨[markerViolation], 1, ["A.sol"]⟩ ∧
      (∃ r', fixImports.run (fixImports.run unsortedImports).1 =
        ((fixImports.run unsortedImports).1, .ok r') ∧ r'.filesFixed = []) ∧
        { fixImports with fix := false }.run (fixImports.run unsortedImports).1 =
          ((fixImports.run unsortedImports).1, .ok ⟨[markerViolation], 1, []⟩) := by
  have hfirst : (fixImports.run unsortedImports).2 = .ok ⟨[markerViolation], 1, ["A.sol"]⟩ := by
    decide +kernel
  have hfound : fixImports.files unsortedImports = .ok ["/c/A.sol"] := by decide +kernel
  have htext : unsortedImports.readText "/c/A.sol" =
      .ok "import \"z/Z.sol\";\r\nimport \"a/A.sol\";\r\n.only(" := by decide +kernel
  refine ⟨hfirst, (fix_converges (a := fixImports) (r := ⟨[markerViolation], 1, ["A.sol"]⟩) rfl rfl
    ?_ (Prod.ext rfl hfirst)).2⟩
  intro files hfiles p hp text hread
  obtain rfl : files = ["/c/A.sol"] := Except.ok.inj (hfiles.symm.trans hfound)
  obtain rfl : p = "/c/A.sol" := by simpa using hp
  obtain rfl := Except.ok.inj (htext.symm.trans hread)
  decide

end ContractLint.Analysis
