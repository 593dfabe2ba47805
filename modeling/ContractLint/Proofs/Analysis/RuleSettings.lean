import ContractLint.Proofs.Analysis.Effects
import ContractLint.Proofs.Path.Order

/-!
# What the settings of a rule change

A project can switch a rule off, and can say how much its violations matter. Neither moves the
violations of another rule, although all violations of a run are collected file by file and then put
in order together.

## The architecture

* **`NotBehind`** — the order of violations, by file, line and column. The comparison that they are
  sorted by decides it. Violations at one place are equal in it, so they stand as they were
  collected (`filter_isAt_sortBy`).
* **`SameBut`** — settings that differ in one rule. In one file they leave out the violations of
  that rule (`check_of_disabled`) or give them another severity (`check_of_severity`).
* **`run_of_check`** — the report of a run that only checks: what is on disk, in order. Sorting
  commutes with leaving out and, as no place changes, with what is done to severities.
* **`rule_settings_confined`** — the order of a report, and both changes over a whole run.
-/

namespace ContractLint

/-! ## The order of violations -/

namespace Violation

/-- The first violation may stand before the second one in a listing. -/
def NotBehind (v w : Violation) : Prop :=
  v.location.file.Before w.location.file ∨
    v.location.file.components = w.location.file.components ∧
      (v.location.line < w.location.line ∨
        v.location.line = w.location.line ∧ v.location.column ≤ w.location.column)

theorem le_iff {v w : Violation} : v.le w = true ↔ v.NotBehind w := by
  unfold le NotBehind
  split
  · next hfile =>
    unfold Path.le Path.Before
    rw [Component.listLe_iff]
    simp [hfile]
  · next hfile =>
    have hsame : v.location.file.components = w.location.file.components := not_not.1 hfile
    have hbefore : ¬v.location.file.Before w.location.file := fun h => h.components_ne hsame
    split
    · next hline => simp [hbefore, hsame, hline]
    · next hline => simp [hbefore, hsame, not_not.1 hline]

theorem le_total (v w : Violation) : v.le w = true ∨ w.le v = true := by
  by_cases hfile : v.location.file.components = w.location.file.components
  · simp only [le_iff, NotBehind, hfile, true_and]
    omega
  · unfold le
    rw [if_pos hfile, if_pos (Ne.symm hfile)]
    exact Component.listLe_total _ _

theorem le_trans (v w x : Violation) (h : v.le w = true) (h' : w.le x = true) : v.le x = true := by
  rw [le_iff] at *
  rcases h with hbefore | ⟨hfile, hplace⟩
  · rcases h' with hbefore' | ⟨hfile', -⟩
    · exact .inl (hbefore.trans hbefore')
    · rw [Path.Before, hfile'] at hbefore
      exact .inl hbefore
  · rcases h' with hbefore' | ⟨hfile', hplace'⟩
    · rw [Path.Before, ← hfile] at hbefore'
      exact .inl hbefore'
    · exact .inr ⟨hfile.trans hfile', by omega⟩

/-- Whether a violation is at a line and a column of a file. -/
def isAt (file : Path) (line column : Nat) (v : Violation) : Bool :=
  v.location.file.components = file.components ∧ v.location.line = line ∧ v.location.column = column

theorem isAt_iff {file : Path} {line column : Nat} {v : Violation} :
    v.isAt file line column = true ↔ v.location.file.components = file.components ∧
      v.location.line = line ∧ v.location.column = column :=
  decide_eq_true_iff

/-- **Violations at one place stand as they came.** -/
theorem filter_isAt_sortBy (file : Path) (line column : Nat) (l : List Violation) :
    (sortBy le l).filter (isAt file line column) = l.filter (isAt file line column) := by
  rw [← sortBy_filter le_total le_trans]
  refine sortBy_of_pairwise (List.pairwise_of_forall_mem_list fun v hv w hw => ?_)
  obtain ⟨hfile, hline, hcolumn⟩ := isAt_iff.1 (List.mem_filter.1 hv).2
  obtain ⟨hfile', hline', hcolumn'⟩ := isAt_iff.1 (List.mem_filter.1 hw).2
  exact le_iff.2 (.inr ⟨hfile.trans hfile'.symm, by omega⟩)

/-- The violation with another severity, if it is one of the rule. -/
def rated (name : Text) (severity : Severity) (v : Violation) : Violation :=
  if v.rule = name then { v with severity } else v

@[simp] theorem rated_location (name : Text) (severity : Severity) (v : Violation) :
    (v.rated name severity).location = v.location := by
  unfold rated
  split <;> rfl

theorem sortBy_map_rated (name : Text) (severity : Severity) (l : List Violation) :
    sortBy le (l.map (rated name severity)) = (sortBy le l).map (rated name severity) := by
  -- the comparison looks at places alone
  have hle : (fun v w : Violation => (v.rated name severity).le (w.rated name severity)) = le := by
    funext v w
    simp only [le, rated_location]
  rw [sortBy_map, hle]

end Violation

/-! ## Settings that differ in one rule -/

/-- Two settings that can differ in what they say of one rule. Whatever a run does not look at can
differ too. -/
structure Settings.SameBut (s : Settings) (name : Text) (u : Settings) : Prop where
  layout : u.layout = s.layout
  others : ∀ other, other ≠ name → u.rules.lookup other = s.rules.lookup other

namespace Settings.SameBut

variable {s u : Settings} {name other : Text}

theorem isEnabled_eq (h : s.SameBut name u) (hother : other ≠ name) :
    u.isEnabled other = s.isEnabled other := by
  rw [isEnabled, isEnabled, h.others other hother]

theorem severity?_eq (h : s.SameBut name u) (hother : other ≠ name) :
    u.severity? other = s.severity? other := by
  rw [severity?, severity?, h.others other hother]

end Settings.SameBut

namespace Analysis

variable {a : Analysis} {t : FileTree}

/-! ## One file -/

theorem ruleViolations_eq (view : SourceView) (rule : Rule) :
    a.ruleViolations view rule = (rule.violations view).map fun v =>
      { v with severity := (a.settings.severity? rule.name).getD v.severity } := by
  rw [ruleViolations]
  cases a.settings.severity? rule.name with
  | none => exact (List.map_id _).symm
  | some severity => rfl

theorem rule_of_mem_ruleViolations {view : SourceView} {rule : Rule} {v : Violation}
    (h : v ∈ a.ruleViolations view rule) : v.rule = rule.name := by
  rw [ruleViolations_eq] at h
  obtain ⟨w, hw, rfl⟩ := List.mem_map.1 h
  obtain ⟨f, -, rfl⟩ := List.mem_map.1 hw
  rfl

section OneRule

variable {name : Text} {u : Settings} (h : a.settings.SameBut name u)
include h

/-- The other rules give what they gave. -/
theorem ruleViolations_of_ne {rule : Rule} (hrule : rule.name ≠ name) (view : SourceView) :
    { a with settings := u }.ruleViolations view rule = a.ruleViolations view rule := by
  rw [ruleViolations_eq, ruleViolations_eq, h.severity?_eq hrule]

theorem ruleViolations_of_severity {severity : Severity}
    (hseverity : u.severity? name = some severity) (view : SourceView) (rule : Rule) :
    { a with settings := u }.ruleViolations view rule =
      (a.ruleViolations view rule).map (Violation.rated name severity) := by
  by_cases hrule : rule.name = name
  · have hrated : (a.ruleViolations view rule).map (Violation.rated name severity) =
        (a.ruleViolations view rule).map fun v => { v with severity } :=
      List.map_congr_left fun v hv => if_pos ((rule_of_mem_ruleViolations hv).trans hrule)
    rw [hrated, ruleViolations_eq, ruleViolations_eq, List.map_map, hrule, hseverity]
    rfl
  · rw [ruleViolations_of_ne h hrule]
    have hself : (a.ruleViolations view rule).map (Violation.rated name severity) =
        (a.ruleViolations view rule).map id :=
      List.map_congr_left fun v hv => if_neg (rule_of_mem_ruleViolations hv ▸ hrule)
    rw [hself, List.map_id]

/-- A rule that is switched off is left out, and the others run in their order. -/
theorem enabledRules_of_disabled (hdisabled : u.isEnabled name = false) :
    { a with settings := u }.enabledRules = a.enabledRules.filter (·.name != name) := by
  rw [enabledRules, enabledRules, List.filter_filter]
  refine List.filter_congr fun rule _ => ?_
  by_cases hrule : rule.name = name
  · simp [hrule, hdisabled]
  · simp [hrule, h.isEnabled_eq hrule]

theorem flatMap_of_disabled (view : SourceView) (rules : List Rule) :
    (rules.filter (·.name != name)).flatMap ({ a with settings := u }.ruleViolations view) =
      (rules.flatMap (a.ruleViolations view)).filter (·.rule != name) := by
  induction rules with
  | nil => rfl
  | cons rule rules ih =>
    rw [List.flatMap_cons, List.filter_append, ← ih]
    by_cases hrule : rule.name = name
    · have hnone : (a.ruleViolations view rule).filter (·.rule != name) = [] :=
        List.filter_eq_nil_iff.2 fun v hv => by simp [rule_of_mem_ruleViolations hv, hrule]
      rw [hnone, List.filter_cons_of_neg (by simp [hrule]), List.nil_append]
    · have hall : (a.ruleViolations view rule).filter (·.rule != name) =
          a.ruleViolations view rule :=
        List.filter_eq_self.2 fun v hv => by simp [rule_of_mem_ruleViolations hv, hrule]
      rw [hall, List.filter_cons_of_pos (by simp [hrule]), List.flatMap_cons,
        ruleViolations_of_ne h hrule]

/-- **Without a rule, a file has the violations of the others.** -/
theorem check_of_disabled (hdisabled : u.isEnabled name = false) (s : Source) :
    { a with settings := u }.check s = (a.check s).filter (·.rule != name) := by
  rw [check, enabledRules_of_disabled h hdisabled]
  exact flatMap_of_disabled h _ _

/-- **With another severity of a rule, a file has the same violations.** -/
theorem check_of_severity (henabled : u.isEnabled name = a.settings.isEnabled name)
    {severity : Severity} (hseverity : u.severity? name = some severity) (s : Source) :
    { a with settings := u }.check s = (a.check s).map (Violation.rated name severity) := by
  have hrules : { a with settings := u }.enabledRules = a.enabledRules := by
    refine List.filter_congr fun rule _ => ?_
    by_cases hrule : rule.name = name
    · rw [hrule]
      exact henabled
    · exact h.isEnabled_eq hrule
  rw [check, check, hrules, List.map_flatMap]
  exact List.flatMap_congr fun rule _ => ruleViolations_of_severity h hseverity _ rule

end OneRule

/-! ## A run that only checks -/

theorem readable_of_runFiles (hcheck : a.fix = false) {files : List Path} {t' : FileTree}
    {r r' : Report} (h : a.runFiles files t r = (t', .ok r')) :
    ∀ p ∈ files, ∃ text, t.readText p = .ok text := by
  induction files generalizing r with
  | nil => simp
  | cons p rest ih =>
    cases hread : t.readText p with
    | error e =>
      rw [runFiles, hread] at h
      cases h
    | ok text =>
      rw [runFiles_cons hread, runFile_of_converged (by simp [hcheck])] at h
      intro q hq
      rcases List.mem_cons.1 hq with rfl | hq
      · exact ⟨text, hread⟩
      · exact ih h q hq

theorem run_of_readable (hcheck : a.fix = false) {files : List Path} (hfiles : a.files t = .ok files)
    (hread : ∀ p ∈ files, ∃ text, t.readText p = .ok text) :
    a.run t =
      (t, .ok ⟨sortBy Violation.le (files.flatMap (a.diskViolations t)), files.length, []⟩) := by
  refine run_unchanged hfiles fun p hp => ?_
  obtain ⟨text, htext⟩ := hread p hp
  exact ⟨text, htext, by simp [hcheck]⟩

/-- **A run that checks and succeeds has read every file.** -/
theorem run_of_check (hcheck : a.fix = false) {t' : FileTree} {r : Report}
    (hrun : a.run t = (t', .ok r)) :
    ∃ files, a.files t = .ok files ∧ (∀ p ∈ files, ∃ text, t.readText p = .ok text) ∧
      r = ⟨sortBy Violation.le (files.flatMap (a.diskViolations t)), files.length, []⟩ := by
  obtain ⟨files, report, hfiles, hreport, -⟩ := run_eq_ok_iff.1 hrun
  have hread := readable_of_runFiles hcheck hreport
  have hsame := hrun.symm.trans (run_of_readable hcheck hfiles hread)
  exact ⟨files, hfiles, hread, Except.ok.inj (congrArg Prod.snd hsame)⟩

/-- What holds of every file under other settings holds of the report. -/
theorem run_with_settings (hcheck : a.fix = false) {files : List Path}
    (hfiles : a.files t = .ok files) (hread : ∀ p ∈ files, ∃ text, t.readText p = .ok text)
    {u : Settings} (hlayout : u.layout = a.settings.layout) {g : List Violation → List Violation}
    (hsort : ∀ l, sortBy Violation.le (g l) = g (sortBy Violation.le l))
    (hflat : ∀ f : Path → List Violation, g (files.flatMap f) = files.flatMap fun p => g (f p))
    (hcheckOne : ∀ s, { a with settings := u }.check s = g (a.check s)) :
    { a with settings := u }.run t = (t, .ok
      ⟨g (sortBy Violation.le (files.flatMap (a.diskViolations t))), files.length, []⟩) := by
  have hfiles' : { a with settings := u }.files t = .ok files := by
    rw [← hfiles, Analysis.files, Analysis.files, hlayout]
  have hdisk : files.flatMap ({ a with settings := u }.diskViolations t) =
      g (files.flatMap (a.diskViolations t)) := by
    rw [hflat]
    refine List.flatMap_congr fun p hp => ?_
    obtain ⟨text, htext⟩ := hread p hp
    rw [diskViolations_of_readText htext, diskViolations_of_readText htext, hcheckOne]
  rw [run_of_readable (a := { a with settings := u }) hcheck hfiles' hread, hdisk, hsort]

/-! ## Violations at one place -/

theorem file_of_mem_diskViolations {p : Path} {v : Violation} (h : v ∈ a.diskViolations t p) :
    v.location.file = p.relativeTo a.root := by
  rw [diskViolations] at h
  split at h
  · obtain ⟨-, -, f, -, -, -, -, hlocation⟩ := exists_finding_of_mem_check h
    rw [hlocation]
    rfl
  · simp at h

theorem filter_isAt_of_ne {p q : Path}
    (h : (q.relativeTo a.root).components ≠ (p.relativeTo a.root).components) (line column : Nat) :
    (a.diskViolations t q).filter (Violation.isAt (p.relativeTo a.root) line column) = [] := by
  refine List.filter_eq_nil_iff.2 fun v hv hat => h ?_
  rw [← file_of_mem_diskViolations hv]
  exact (Violation.isAt_iff.1 hat).1

/-- **The violations at one place are those of one file**, and are given rule by rule. -/
theorem filter_isAt_files (ht : t.WellFormed) {files : List Path} (hfiles : a.files t = .ok files)
    {p : Path} (hp : p ∈ files) {text : Text} (htext : t.readText p = .ok text)
    (line column : Nat) :
    (files.flatMap (a.diskViolations t)).filter
        (Violation.isAt (p.relativeTo a.root) line column) =
      a.enabledRules.flatMap fun rule =>
        (a.ruleViolations (.ofRoot a.root (.ofText p text)) rule).filter
          (Violation.isAt (p.relativeTo a.root) line column) := by
  have horder := pairwise_relativeTo_of_files ht hfiles
  simp only [← Path.before_iff] at horder
  obtain ⟨before, behind, rfl⟩ := List.append_of_mem hp
  rw [List.map_append, List.map_cons, List.pairwise_append, List.pairwise_cons] at horder
  obtain ⟨-, ⟨hbehind, -⟩, hbefore⟩ := horder
  -- seen from the root no two files have one path, so the others have nothing at the place
  have hnone : (before.flatMap fun q => (a.diskViolations t q).filter
      (Violation.isAt (p.relativeTo a.root) line column)) = [] :=
    List.flatMap_eq_nil_iff.2 fun q hq => filter_isAt_of_ne
      (hbefore _ (List.mem_map_of_mem hq) _ (by simp)).components_ne line column
  have hnone' : (behind.flatMap fun q => (a.diskViolations t q).filter
      (Violation.isAt (p.relativeTo a.root) line column)) = [] :=
    List.flatMap_eq_nil_iff.2 fun q hq => filter_isAt_of_ne
      (hbehind _ (List.mem_map_of_mem hq)).components_ne.symm line column
  rw [List.filter_flatMap, List.flatMap_append, List.flatMap_cons, hnone, hnone', List.nil_append,
    List.append_nil, diskViolations_of_readText htext, check, List.filter_flatMap]

/-- **The settings of a rule reach its own violations only.** A run that only checks and succeeds
gives its violations in order, by the components of their files, by line and by column; at one place
they stand in the order in which the rules are listed. Under settings that differ in one rule,

* if they switch the rule off, a run gives the same without the violations of that rule;
* if they set its severity, a run gives the same with that severity for its violations. -/
theorem rule_settings_confined {t t' : FileTree} {r : Report} (ht : t.WellFormed)
    (hcheck : a.fix = false) (hrun : a.run t = (t', .ok r)) :
    r.violations.Pairwise Violation.NotBehind ∧
    (∃ files, a.files t = .ok files ∧
      (∀ v ∈ r.violations, ∃ p ∈ files, v.location.file = p.relativeTo a.root) ∧
      ∀ p ∈ files, ∃ text, t.readText p = .ok text ∧ ∀ line column,
        r.violations.filter (Violation.isAt (p.relativeTo a.root) line column) =
          a.enabledRules.flatMap fun rule =>
            (a.ruleViolations (.ofRoot a.root (.ofText p text)) rule).filter
              (Violation.isAt (p.relativeTo a.root) line column)) ∧
    ∀ name u, a.settings.SameBut name u →
      (u.isEnabled name = false → { a with settings := u }.run t =
        (t, .ok { r with violations := r.violations.filter (·.rule != name) })) ∧
      ∀ severity, u.isEnabled name = a.settings.isEnabled name →
        u.severity? name = some severity → { a with settings := u }.run t =
          (t, .ok { r with violations := r.violations.map (Violation.rated name severity) }) := by
  obtain ⟨files, hfiles, hread, rfl⟩ := run_of_check hcheck hrun
  refine ⟨?_, ⟨files, hfiles, fun v hv => ?_, fun p hp => ?_⟩, fun name u hsame =>
    ⟨fun hdisabled => ?_, fun severity henabled hseverity => ?_⟩⟩
  · exact (pairwise_sortBy Violation.le_total Violation.le_trans _).imp Violation.le_iff.1
  · have hmem := (sortBy_perm Violation.le _).mem_iff.1 hv
    obtain ⟨p, hp, hmem⟩ := List.mem_flatMap.1 hmem
    exact ⟨p, hp, file_of_mem_diskViolations hmem⟩
  · obtain ⟨text, htext⟩ := hread p hp
    refine ⟨text, htext, fun line column => ?_⟩
    rw [Violation.filter_isAt_sortBy, filter_isAt_files ht hfiles hp htext]
  · exact run_with_settings hcheck hfiles hread hsame.layout
      (sortBy_filter Violation.le_total Violation.le_trans _) (fun _ => List.filter_flatMap)
      (check_of_disabled hsame hdisabled)
  · exact run_with_settings hcheck hfiles hread hsame.layout
      (Violation.sortBy_map_rated name severity) (fun _ => List.map_flatMap)
      (check_of_severity hsame henabled hseverity)

/-- An analysis that looks for markers twice, before and behind a look at the comments. -/
def markersTwice (settings : Settings) : Analysis where
  root := "/c"
  pattern := "*.sol"
  rules := [{ check := .exclusiveTests ".only(" }, { check := .functionComments },
    { check := .exclusiveTests ".only(" }]
  settings

/-- A contract whose only line breaks both rules. -/
def markedParam : FileTree where
  files := [(["c".toList, "A.sol".toList], encode ".only( @param a")]

/-- What the rule for markers says of it. -/
def paramMarker (severity : Severity) : Violation where
  code := "SL004"
  rule := "no-exclusive-tests"
  severity
  location := ⟨"A.sol", 1, 1, 0, 15⟩
  message := ".only( found in A.sol:1"

/-- What the rule for comments says of it. -/
def paramSpace : Violation where
  code := "SL003"
  rule := "function-comments"
  severity := .error
  location := ⟨"A.sol", 1, 1, 0, 15⟩
  message := "Param has only one space (A.sol:1)"

/-- All three violations are at one place. -/
theorem rule_settings_confined_markedParam :
    ((markersTwice {}).run markedParam).2 =
        .ok ⟨[paramMarker .error, paramSpace, paramMarker .error], 1, []⟩ ∧
      (markersTwice { rules := [("no-exclusive-tests".toList, ⟨some false, none⟩)] }).run
        markedParam = (markedParam, .ok ⟨[paramSpace], 1, []⟩) ∧
      (markersTwice { rules := [("no-exclusive-tests".toList, ⟨none, some .info⟩)] }).run
        markedParam =
          (markedParam, .ok ⟨[paramMarker .info, paramSpace, paramMarker .info], 1, []⟩) := by
  have hrun : ((markersTwice {}).run markedParam).2 =
      .ok ⟨[paramMarker .error, paramSpace, paramMarker .error], 1, []⟩ := by decide +kernel
  obtain ⟨-, -, hsettings⟩ :=
    rule_settings_confined (a := markersTwice {}) (by decide +kernel) rfl (Prod.ext rfl hrun)
  have hsame (x : RuleSettings) :
      (markersTwice {}).settings.SameBut "no-exclusive-tests"
        { rules := [("no-exclusive-tests".toList, x)] } := by
    refine ⟨rfl, fun other hother => ?_⟩
    have hbeq : (other == "no-exclusive-tests".toList) = false := beq_false_of_ne hother
    show List.lookup other [("no-exclusive-tests".toList, x)] = none
    rw [List.lookup_cons, hbeq]
    rfl
  exact ⟨hrun, (hsettings _ _ (hsame ⟨some false, none⟩)).1 (by decide +kernel),
    (hsettings _ _ (hsame ⟨none, some .info⟩)).2 .info (by decide +kernel) (by decide +kernel)⟩

end Analysis

end ContractLint
