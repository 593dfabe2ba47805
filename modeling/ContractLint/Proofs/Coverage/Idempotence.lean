import ContractLint.Proofs.Coverage.Fixpoint
import ContractLint.Proofs.FileTree.Writes
import ContractLint.Proofs.Source.RoundTrip
import Mathlib.Data.List.Infix

/-!
# A second coverage run changes nothing

A run reads each file that it finds, prepares its lines and writes them back. A second run finds the
same files, reads the lines that were written and leaves them alone.

## The architecture

* **`KeptByHiding`** — conditions on lines that the rewritten lines satisfy if the old ones did.
  Those for writing and reading back are such conditions (`prepare_upToLast`), so the second run
  reads what the first one prepared.
* **`Ready` and `Done`** — what is known about a file before and after its turn. One step makes its
  own file done and keeps the others ready or done (`runFile_step`); the same holds of a run over a
  list of files (`runFiles_done`), also if two paths lead to one file.
* **`runFiles_of_done`** — a run over done files leaves the tree as it is and counts nothing.
* **`rerun_unchanged`** — the two runs together.
-/

namespace ContractLint.Coverage

/-! ## Lines that are written -/

/-- A condition on lines that hiding a statement keeps. -/
structure KeptByHiding (P : Text → Prop) : Prop where
  openHidden : ∀ line, P line → P (openHidden line)
  closeHidden : ∀ line, P line → P (closeHidden line)

theorem Assertion.upToLast_hidden {P Q : Text → Prop} (hP : KeptByHiding P) (hQ : KeptByHiding Q)
    {a : Assertion} (h : UpToLast P Q a.lines) : UpToLast P Q a.hidden := by
  obtain ⟨body, closing, hopens, hbody, hcloses⟩ := a
  cases body with
  | nil => exact hQ.closeHidden _ (hQ.openHidden _ h)
  | cons first middle =>
    rw [lines, upToLast_append (by simp)] at h
    obtain ⟨hinit, hlast⟩ := h
    rw [hidden, upToLast_append (by simp)]
    refine ⟨List.forall_mem_cons.2 ⟨?_, fun line hline => hinit line (by simp [hline])⟩, ?_⟩
    · exact hP.openHidden first (hinit first (by simp))
    · exact hQ.closeHidden closing hlast

theorem Part.upToLast_hidden {P Q : Text → Prop} (hP : KeptByHiding P) (hQ : KeptByHiding Q)
    {p : Part} (h : UpToLast P Q p.lines) : UpToLast P Q p.hidden := by
  cases p with
  | plain line => exact h
  | assertion a => exact Assertion.upToLast_hidden hP hQ h

/-- Hiding keeps the conditions on all lines but the last, and on the last. -/
theorem Part.upToLast_flatMap_hidden {P Q : Text → Prop} (hP : KeptByHiding P) (hQ : KeptByHiding Q)
    {parts : List Part} (h : UpToLast P Q (parts.flatMap Part.lines)) :
    UpToLast P Q (parts.flatMap Part.hidden) := by
  -- the last line is in the last part, so all other parts are under the first condition alone
  rcases List.eq_nil_or_concat' parts with rfl | ⟨init, last, rfl⟩
  · exact h
  · have hne : last.lines ≠ [] := by
      cases last <;> simp [Part.lines, Assertion.lines]
    have hne' : last.hidden ≠ [] := by
      rw [← List.length_pos_iff, Part.length_hidden, List.length_pos_iff]
      exact hne
    rw [List.flatMap_append, List.flatMap_singleton, upToLast_append hne] at h
    rw [List.flatMap_append, List.flatMap_singleton, upToLast_append hne']
    refine ⟨fun line hline => ?_, Part.upToLast_hidden hP hQ h.2⟩
    obtain ⟨p, hp, hline⟩ := List.mem_flatMap.1 hline
    have hlines : UpToLast P P p.lines := upToLast_self.2 fun l hl =>
      h.1 l (List.mem_flatMap.2 ⟨p, hp, hl⟩)
    exact upToLast_self.1 (Part.upToLast_hidden hP hP hlines) line hline

theorem newline_notMem_openHidden {line : Text} (h : '\n' ∉ line) : '\n' ∉ openHidden line := by
  intro hmem
  rw [openHidden, List.append_assoc, List.mem_append, List.mem_append] at hmem
  rcases hmem with hmem | hmem | hmem
  · exact absurd (List.eq_of_mem_replicate hmem) (by decide)
  · exact absurd hmem (by decide)
  · exact h ((Text.isSuffix_trimStart line).subset hmem)

theorem newline_notMem_closeHidden {line : Text} (h : '\n' ∉ line) : '\n' ∉ closeHidden line := by
  intro hmem
  rw [closeHidden] at hmem
  split at hmem
  · next before after hcut =>
    have hline := Text.cut_eq_some_append hcut
    simp only [List.mem_append] at hmem
    rcases hmem with ((hmem | hmem) | hmem) | hmem
    · exact h (by simp [hline, hmem])
    · exact absurd hmem (by decide)
    · exact absurd hmem (by decide)
    · exact h (by simp [hline, hmem])
  · exact h hmem

/-- A line that is opened ends as it did, or in the delimiter. -/
theorem getLast?_openHidden (line : Text) :
    (openHidden line).getLast? = some '*' ∨ (openHidden line).getLast? = line.getLast? := by
  by_cases htrim : line.trimStart = []
  · refine .inl ?_
    rw [openHidden, htrim]
    simp [Comment.opener]
  · refine .inr ?_
    conv_rhs => rw [← Text.indent_append_trimStart line]
    rw [openHidden, List.getLast?_append_of_ne_nil _ htrim, List.getLast?_append_of_ne_nil _ htrim]

/-- A line that is closed ends as it did, or in the delimiter. -/
theorem getLast?_closeHidden (line : Text) :
    (closeHidden line).getLast? = some '/' ∨ (closeHidden line).getLast? = line.getLast? := by
  rw [closeHidden]
  split
  · next before after hcut =>
    have hline := Text.cut_eq_some_append hcut
    cases after with
    | nil => exact .inl (by simp [Comment.closer])
    | cons c t =>
      refine .inr ?_
      rw [hline, List.getLast?_append_of_ne_nil _ (by simp),
        List.getLast?_append_of_ne_nil _ (by simp)]
  · exact .inr rfl

theorem keptByHiding_terminates (e : LineEnding) : KeptByHiding e.Terminates where
  openHidden line h := by
    refine ⟨newline_notMem_openHidden h.1, fun he => ?_⟩
    rcases getLast?_openHidden line with hlast | hlast
    · rw [hlast]
      decide
    · rw [hlast]
      exact h.2 he
  closeHidden line h := by
    refine ⟨newline_notMem_closeHidden h.1, fun he => ?_⟩
    rcases getLast?_closeHidden line with hlast | hlast
    · rw [hlast]
      decide
    · rw [hlast]
      exact h.2 he

theorem keptByHiding_canTrail : KeptByHiding CanTrail where
  openHidden line h := ⟨newline_notMem_openHidden h.1, by simp [openHidden, Comment.opener]⟩
  closeHidden line h := by
    refine ⟨newline_notMem_closeHidden h.1, fun hnil => ?_⟩
    rcases getLast?_closeHidden line with hlast | hlast
    · rw [hnil] at hlast
      cases hlast
    · rw [hnil] at hlast
      exact h.2 (List.getLast?_eq_none_iff.1 hlast.symm)

theorem keptByHiding_last (e : LineEnding) (finalNewline : Bool) :
    KeptByHiding (e.Last finalNewline) := by
  cases finalNewline with
  | true => exact keptByHiding_terminates e
  | false => exact keptByHiding_canTrail

/-- A guard can be written in any file whose lines hold no line feed. -/
theorem Call.terminates_guardText {c : Call} {inBlock : Bool} {before : Text}
    (hfound : findCall inBlock c.opening = some (before, c.args))
    (hlines : ∀ line ∈ c.lines, '\n' ∉ line) (e : LineEnding) : e.Terminates c.guardText := by
  obtain ⟨condition, hcond, hline⟩ := exists_guardLine_eq c.opening.indent c.pieces
  rw [guardText_eq, hline]
  refine ⟨fun hmem => ?_, fun _ => ?_⟩
  · rw [guardHead] at hmem
    simp only [List.mem_append, List.mem_cons] at hmem
    rcases hmem with (((hmem | hmem) | hmem) | hmem) | hmem | hmem
    · have hindent : c.opening.indent <+: c.opening := List.takeWhile_prefix _
      exact hlines c.opening (by simp [lines]) (hindent.subset hmem)
    · exact absurd hmem (by decide)
    · -- the condition is made of parts of the lines and spaces
      have hjoined : ['\n'] <:+: [' '].intercalate c.pieces :=
        ((List.singleton_infix_iff _ _).2 hmem).trans hcond.isInfix
      obtain ⟨p, hp, hin⟩ := Text.infix_intercalate (by decide) (by simp) hjoined
      obtain ⟨line, hmemline, hpl⟩ := exists_infix_line hfound hp
      exact hlines line hmemline (hpl.subset (hin.subset (by simp)))
    · exact absurd hmem (by decide)
    · exact absurd hmem (by decide)
    · exact absurd hmem (by decide)
  · rw [List.getLast?_append_of_ne_nil _ (by simp)]
    decide

theorem CallPart.lines_ne_nil (p : CallPart) : p.lines ≠ [] := by
  cases p <;> simp [lines, Call.lines]

theorem CallPart.flatMap_lines_ne_nil {parts : List CallPart} (h : parts ≠ []) :
    parts.flatMap lines ≠ [] := by
  cases parts with
  | nil => exact absurd rfl h
  | cons p parts =>
    rw [List.flatMap_cons]
    exact List.append_ne_nil_of_left_ne_nil p.lines_ne_nil _

theorem CallPart.withGuards_ne_nil {parts : List CallPart} (h : parts ≠ [])
    (previous : Option Text) : withGuards previous parts ≠ [] := by
  match parts, h with
  | plain line :: rest, _ => simp [withGuards]
  | call c :: rest, _ => simp [withGuards]

/-- Guards stand above other lines, so they are no last lines. -/
theorem CallPart.upToLast_withGuards {P Q : Text → Prop} {parts : List CallPart}
    (hguard : ∀ c, .call c ∈ parts → P c.guardText) (h : UpToLast P Q (parts.flatMap lines))
    (previous : Option Text) : UpToLast P Q ((withGuards previous parts).flatMap lines) := by
  -- one part in front of others, or on its own
  have hpart {p : CallPart} {rest : List CallPart} (previous : Option Text)
      (ih : UpToLast P Q (rest.flatMap lines) →
        UpToLast P Q ((withGuards previous rest).flatMap lines))
      (h : UpToLast P Q (p.lines ++ rest.flatMap lines)) :
      UpToLast P Q (p.lines ++ (withGuards previous rest).flatMap lines) := by
    by_cases hrest : rest = []
    · subst hrest
      exact h
    · rw [upToLast_append (flatMap_lines_ne_nil hrest)] at h
      rw [upToLast_append (flatMap_lines_ne_nil (withGuards_ne_nil hrest previous))]
      exact ⟨h.1, ih h.2⟩
  induction parts generalizing previous with
  | nil => exact h
  | cons p rest ih =>
    have ih (previous : Option Text) (h : UpToLast P Q (rest.flatMap lines)) :=
      ih (fun c hc => hguard c (by simp [hc])) h previous
    rw [List.flatMap_cons] at h
    cases p with
    | plain line =>
      rw [withGuards, List.flatMap_cons]
      exact hpart (some line) (ih _) h
    | call c =>
      have hcall := hpart (some c.lastLine) (ih _) h
      cases hg : previous.any isGuard with
      | true =>
        rw [withGuards_guarded hg, List.flatMap_cons]
        exact hcall
      | false =>
        rw [withGuards_unguarded hg, List.flatMap_cons, List.flatMap_cons, lines,
          upToLast_append (List.append_ne_nil_of_left_ne_nil (lines_ne_nil _) _)]
        exact ⟨by simpa using hguard c (by simp), hcall⟩

theorem CallScan.exists_found {inBlock : Bool} {parts : List CallPart} (h : CallScan inBlock parts)
    {c : Call} (hc : .call c ∈ parts) :
    ∃ inBlock before, findCall inBlock c.opening = some (before, c.args) := by
  induction h with
  | nil => simp at hc
  | plain _ _ ih => exact ih (by simpa using hc)
  | call hfound _ ih =>
    rcases List.mem_cons.1 hc with heq | hc
    · cases heq
      exact ⟨_, _, hfound⟩
    · exact ih hc

theorem hideAssertions_upToLast {lines : List Text} {hidden : Revision} {e : LineEnding}
    {finalNewline : Bool} (h : hideAssertions lines = .ok hidden)
    (hlines : UpToLast e.Terminates (e.Last finalNewline) lines) :
    UpToLast e.Terminates (e.Last finalNewline) hidden.lines := by
  obtain ⟨spans, hspans⟩ := exists_locate_of_hideAssertions h
  obtain ⟨parts, -, rfl, -, hout⟩ := exists_scanned_of_hideAssertions hspans h
  rw [hout]
  apply Part.upToLast_flatMap_hidden (keptByHiding_terminates e) (keptByHiding_last e finalNewline)
  exact hlines

theorem insertGuards_upToLast {lines : List Text} {revised : Revision} {e : LineEnding}
    {finalNewline : Bool} (h : insertGuards lines = .ok revised)
    (hlines : UpToLast e.Terminates (e.Last finalNewline) lines) :
    UpToLast e.Terminates (e.Last finalNewline) revised.lines := by
  obtain ⟨parts, hscan, rfl, hout⟩ := exists_callScan_of_insertGuards h
  rw [hout]
  refine CallPart.upToLast_withGuards (fun c hc => ?_) hlines none
  obtain ⟨inBlock, before, hfound⟩ := hscan.exists_found hc
  refine Call.terminates_guardText hfound (fun line hline => ?_) e
  exact newline_notMem_of_upToLast hlines line (List.mem_flatMap.2 ⟨_, hc, hline⟩)

/-- **Prepared lines can be written if the old ones could.** -/
theorem prepare_upToLast {style : Option PreconditionStyle} {lines : List Text} {p : Prepared}
    {e : LineEnding} {finalNewline : Bool} (hstyle : style ≠ some .inline)
    (h : prepare style lines = .ok p)
    (hlines : UpToLast e.Terminates (e.Last finalNewline) lines) :
    UpToLast e.Terminates (e.Last finalNewline) p.lines := by
  match style, hstyle, h with
  | none, _, h =>
    obtain ⟨hidden, hhide, rfl⟩ := prepare_none_eq_ok_iff.1 h
    exact hideAssertions_upToLast hhide hlines
  | some .guard, _, h =>
    obtain ⟨hidden, revised, hhide, hguard, rfl⟩ := prepare_guard_eq_ok_iff.1 h
    exact insertGuards_upToLast hguard (hideAssertions_upToLast hhide hlines)
  | some .inline, hstyle, _ => exact absurd rfl hstyle

/-- The lines that are read from a prepared file are the prepared ones. -/
theorem lines_toText_prepared {style : Option PreconditionStyle} {path : Path} {text : Text}
    {p : Prepared} (hstyle : style ≠ some .inline) (h : prepare style text.lines = .ok p) :
    ((Source.ofText path text).withLines p.lines).toText.lines = p.lines := by
  set source := Source.ofText path text with hsource
  have hread : UpToLast source.ending.Terminates (source.ending.Last source.finalNewline)
      text.lines := Source.upToLast_ofText path text
  -- an empty file gets a final line ending with its new lines, which asks nothing of no lines
  have hlast : UpToLast source.ending.Terminates
      (source.ending.Last (source.finalNewline || text.lines.isEmpty)) text.lines := by
    cases hlines : text.lines with
    | nil => trivial
    | cons line rest =>
      rw [List.isEmpty_cons, Bool.or_false, ← hlines]
      exact hread
  exact Source.lines_toText (s := source.withLines p.lines) (prepare_upToLast hstyle h hlast)

/-! ## One file -/

/-- A file that a run settles, if it can be read: nothing stands in the way, or nothing is to do. -/
def Ready (style : Option PreconditionStyle) (t : FileTree) (p : Path) : Prop :=
  ∀ text, t.readText p = .ok text → Clear style text.lines ∨ Settled style text.lines

/-- A file that a run leaves alone. -/
def Done (style : Option PreconditionStyle) (t : FileTree) (p : Path) : Prop :=
  ∃ text, t.readText p = .ok text ∧ Settled style text.lines

/-- What a run keeps from one state to a later one: names, what is ready and what is done, and every
file that is not listed as changed. -/
structure Advances (style : Option PreconditionStyle) (t : FileTree) (s : Summary) (u : FileTree)
    (s' : Summary) : Prop where
  shape : t.SameShape u
  ready : ∀ p, Ready style t p → Ready style u p
  done : ∀ p, Done style t p → Done style u p
  listed : s.filesChanged ⊆ s'.filesChanged
  unlisted : ∀ key, (∀ p ∈ s'.filesChanged, FileTree.keyOf p ≠ key) → u.file? key = t.file? key

theorem Advances.trans {style : Option PreconditionStyle} {t u v : FileTree} {s s' s'' : Summary}
    (h : Advances style t s u s') (h' : Advances style u s' v s'') : Advances style t s v s'' where
  shape := h.shape.trans h'.shape
  ready p hp := h'.ready p (h.ready p hp)
  done p hp := h'.done p (h.done p hp)
  listed := List.Subset.trans h.listed h'.listed
  unlisted key hkey := (h'.unlisted key hkey).trans
    (h.unlisted key fun p hp => hkey p (h'.listed hp))

theorem advances_of_filesChanged {style : Option PreconditionStyle} {t : FileTree} {s s' : Summary}
    (h : s.filesChanged ⊆ s'.filesChanged) : Advances style t s t s' where
  shape := .refl t
  ready _ hp := hp
  done _ hp := hp
  listed := h
  unlisted _ _ := rfl

namespace Run

variable {r : Run} {t : FileTree}

theorem runFile_of_settled {text : Text} (h : Settled r.style text.lines) (p : Path) (s : Summary) :
    r.runFile p text s = .ok (none, { s with files := s.files + 1 }) := by
  have hprepare : prepare r.style (Source.ofText p text).lines = .ok ⟨text.lines, 0, 0⟩ := h
  rw [runFile, hprepare]
  simp [Source.ofText]

/-- What preparing one file comes to. -/
theorem runFile_cases {p : Path} {text : Text} {s s' : Summary} {written : Option Text}
    (h : r.runFile p text s = .ok (written, s')) :
    ∃ prepared, prepare r.style text.lines = .ok prepared ∧ s'.files = s.files + 1 ∧
      (prepared.lines = text.lines ∧ written = none ∧ s'.filesChanged = s.filesChanged ∨
        prepared.lines ≠ text.lines ∧
          written = some ((Source.ofText p text).withLines prepared.lines).toText ∧
            s'.filesChanged = s.filesChanged ++ [p]) := by
  rw [runFile] at h
  cases hprepare : prepare r.style text.lines with
  | error e =>
    have hsource : prepare r.style (Source.ofText p text).lines = .error e := hprepare
    rw [hsource] at h
    cases h
  | ok prepared =>
    have hsource : prepare r.style (Source.ofText p text).lines = .ok prepared := hprepare
    rw [hsource] at h
    by_cases hsame : prepared.lines = text.lines
    · have hlines : ¬prepared.lines ≠ (Source.ofText p text).lines := not_not.2 hsame
      simp only [if_neg hlines] at h
      cases h
      exact ⟨prepared, rfl, rfl, .inl ⟨hsame, rfl, rfl⟩⟩
    · have hlines : prepared.lines ≠ (Source.ofText p text).lines := hsame
      simp only [if_pos hlines] at h
      cases h
      exact ⟨prepared, rfl, rfl, .inr ⟨hsame, rfl, rfl⟩⟩

/-- **One step of a run.** -/
theorem runFile_step {p : Path} {text : Text} {s s' : Summary} {written : Option Text}
    (hstyle : r.style ≠ some .inline) (hread : t.readText p = .ok text)
    (hready : Ready r.style t p) (h : r.runFile p text s = .ok (written, s')) :
    Advances r.style t s (t.overwrite p written) s' ∧ Done r.style (t.overwrite p written) p ∧
      s'.files = s.files + 1 := by
  obtain ⟨prepared, hprepare, hfiles, ⟨hsame, rfl, hlist⟩ | ⟨hne, rfl, hlist⟩⟩ := runFile_cases h
  · refine ⟨advances_of_filesChanged (hlist ▸ List.Subset.refl _), ⟨text, hread, ?_⟩, hfiles⟩
    rcases hready text hread with hclear | hsettled
    · exact hsame ▸ prepare_settled hstyle hclear hprepare
    · exact hsettled
  · -- the lines changed, so they were not settled before, and they are now
    set new := ((Source.ofText p text).withLines prepared.lines).toText with hnew
    have hsettled : Settled r.style new.lines := by
      rw [hnew, lines_toText_prepared hstyle hprepare]
      rcases hready text hread with hclear | hsettled
      · exact prepare_settled hstyle hclear hprepare
      · rw [Settled, hprepare] at hsettled
        cases hsettled
        exact absurd rfl hne
    have hdone (q : Path) (hq : Done r.style t q) : Done r.style (t.writeText p new) q := by
      obtain ⟨other, hother, hs⟩ := hq
      by_cases hkey : FileTree.keyOf q = FileTree.keyOf p
      · exact ⟨new, FileTree.readText_writeText_self hread hother hkey new, hsettled⟩
      · exact ⟨other, (FileTree.readText_writeText_of_ne hread hkey new).trans hother, hs⟩
    have hreadyAfter (q : Path) (hq : Ready r.style t q) :
        Ready r.style (t.writeText p new) q := by
      intro other hother
      rcases FileTree.readText_writeText_cases hread hother with rfl | hbefore
      · exact .inr hsettled
      · exact hq other hbefore
    refine ⟨⟨FileTree.sameShape_writeText hread new, hreadyAfter, hdone, ?_, fun key hkey => ?_⟩,
      ⟨new, FileTree.readText_writeText_self hread hread rfl new, hsettled⟩, hfiles⟩
    · rw [hlist]
      exact List.subset_append_left _ _
    · have hp : FileTree.keyOf p ≠ key := hkey p (by rw [hlist]; simp)
      exact FileTree.file?_writeText_of_ne hread hp.symm new

/-! ## All files -/

theorem runFiles_cons {p : Path} {rest : List Path} {text : Text} {s s' : Summary}
    {written : Option Text} (hread : t.readText p = .ok text)
    (h : r.runFile p text s = .ok (written, s')) :
    r.runFiles (p :: rest) t s = r.runFiles rest (t.overwrite p written) s' := by
  rw [runFiles, hread]
  simp only [h]
  rfl

/-- **A run that succeeds settles every file.** -/
theorem runFiles_done {files : List Path} {t t' : FileTree} {s s' : Summary}
    (hstyle : r.style ≠ some .inline) (hready : ∀ p ∈ files, Ready r.style t p)
    (h : r.runFiles files t s = (t', .ok s')) :
    Advances r.style t s t' s' ∧ (∀ p ∈ files, Done r.style t' p) ∧
      s'.files = s.files + files.length := by
  induction files generalizing t s with
  | nil =>
    cases h
    exact ⟨advances_of_filesChanged (List.Subset.refl _), by simp, rfl⟩
  | cons p rest ih =>
    cases hread : t.readText p with
    | error e =>
      rw [runFiles, hread] at h
      cases h
    | ok text =>
      cases hfile : r.runFile p text s with
      | error e =>
        rw [runFiles, hread] at h
        simp only [hfile] at h
        cases h
      | ok outcome =>
        obtain ⟨written, s₁⟩ := outcome
        rw [runFiles_cons hread hfile] at h
        obtain ⟨hstep, hdone, hcount⟩ := runFile_step hstyle hread (hready p (by simp)) hfile
        obtain ⟨hrun, hrest, hlength⟩ :=
          ih (fun q hq => hstep.ready q (hready q (by simp [hq]))) h
        refine ⟨hstep.trans hrun, fun q hq => ?_, ?_⟩
        · -- what this step settled is still settled after the others
          rcases List.mem_cons.1 hq with rfl | hq
          · exact hrun.done q hdone
          · exact hrest q hq
        · rw [hlength, hcount, List.length_cons]
          omega

/-- **A run over settled files leaves the tree alone.** -/
theorem runFiles_of_done {files : List Path} (h : ∀ p ∈ files, Done r.style t p) (s : Summary) :
    r.runFiles files t s = (t, .ok { s with files := s.files + files.length }) := by
  induction files generalizing s with
  | nil => rfl
  | cons p rest ih =>
    obtain ⟨text, hread, hsettled⟩ := h p (by simp)
    rw [runFiles_cons hread (runFile_of_settled hsettled p s)]
    refine (ih (fun q hq => h q (by simp [hq])) _).trans ?_
    simp [Nat.add_assoc, Nat.add_comm 1]

end Run

/-- **A second run changes nothing.** If a run that leaves preconditions alone or guards them
succeeds, no file that it reads has block comment delimiters in its statements or a call within a
condition, and it changes no ignore file that it goes by, then a second run succeeds, hides no
assertion, guards no precondition and leaves the tree as it is. -/
theorem rerun_unchanged {r : Run} {t t' : FileTree} {s : Summary}
    (hstyle : r.style ≠ some .inline) (hrun : r.run t = (t', .ok s))
    (hclear : ∀ files, discover t r.root r.pattern r.respectGitignore = .ok files →
      ∀ p ∈ files, ∀ text, t.readText p = .ok text → Clear r.style text.lines)
    (hignore : r.respectGitignore = true →
      ∀ p ∈ s.filesChanged, (FileTree.keyOf p).getLast? ≠ some ".gitignore".toList) :
    ∃ s', r.run t' = (t', .ok s') ∧ s'.files = s.files ∧ s'.filesChanged = [] ∧
      s'.assertsHidden = 0 ∧ s'.preconditionsFixed = 0 := by
  cases hfound : discover t r.root r.pattern r.respectGitignore with
  | error e =>
    rw [Run.run, hfound] at hrun
    cases hrun
  | ok files =>
    rw [Run.run, hfound] at hrun
    obtain ⟨hadv, hdone, hcount⟩ := Run.runFiles_done hstyle
      (fun p hp text hread => .inl (hclear files hfound p hp text hread)) hrun
    -- an ignore file that is not among the changed files holds what it held
    have hentries : r.respectGitignore = true → Gitignore.SameEntries t t' := by
      intro hrespect dir
      refine hadv.unlisted _ fun p hp hkey => hignore hrespect p hp ?_
      rw [hkey, List.getLast?_concat]
    have hfound' : discover t' r.root r.pattern r.respectGitignore = .ok files := by
      rw [discover_eq hadv.shape hentries, hfound]
    refine ⟨{ files := s.files }, ?_, rfl, rfl, rfl, rfl⟩
    rw [Run.run, hfound', hcount]
    exact Run.runFiles_of_done hdone {}

/-- A repository with a contract to be prepared and one that its ignore file leaves out. -/
def guardedContract : FileTree where
  files := [(["c".toList, ".git".toList, "HEAD".toList], encode "ref\n"),
    (["c".toList, ".gitignore".toList], encode "B.sol\n"),
    (["c".toList, "A.sol".toList],
      encode "    assert(\r\n  x > 0); // y\r\n Require.that(z, FILE, w);"),
    (["c".toList, "B.sol".toList], encode "assert(x);\n")]

/-- The run that guards the contracts of a repository. -/
def guardContracts : Run where
  root := "/c"
  pattern := "*.sol"
  respectGitignore := true
  style := some .guard

/-- The first run hides a statement and guards a precondition, and the second finds both done. -/
theorem rerun_unchanged_repository :
    (guardContracts.run guardedContract).2 = .ok ⟨1, ["/c/A.sol"], 1, 1⟩ ∧
      ∃ s', guardContracts.run (guardContracts.run guardedContract).1 =
        ((guardContracts.run guardedContract).1, .ok s') ∧ s'.files = 1 ∧ s'.filesChanged = [] ∧
          s'.assertsHidden = 0 ∧ s'.preconditionsFixed = 0 := by
  have hfirst : (guardContracts.run guardedContract).2 = .ok ⟨1, ["/c/A.sol"], 1, 1⟩ := by
    decide +kernel
  refine ⟨hfirst, rerun_unchanged (s := ⟨1, ["/c/A.sol"], 1, 1⟩) (by decide) (Prod.ext rfl hfirst)
    ?_ (by decide +kernel)⟩
  have hfiles : discover guardedContract "/c" "*.sol" true = .ok ["/c/A.sol"] := by decide +kernel
  have htext : guardedContract.readText "/c/A.sol" =
      .ok "    assert(\r\n  x > 0); // y\r\n Require.that(z, FILE, w);" := by decide +kernel
  intro files hfound p hp text hread
  obtain rfl : files = ["/c/A.sol"] := Except.ok.inj (hfound.symm.trans hfiles)
  obtain rfl : p = "/c/A.sol" := by simpa using hp
  obtain rfl := Except.ok.inj (htext.symm.trans hread)
  refine ⟨fun spans hspans => ?_, fun _ hidden hhidden => ?_⟩
  · have hlocated : locateAssertions
        (Text.lines "    assert(\r\n  x > 0); // y\r\n Require.that(z, FILE, w);") =
          .ok [⟨.assertion, 0, 1⟩] := by decide +kernel
    obtain rfl := Except.ok.inj (hlocated.symm.trans hspans)
    decide +kernel
  · have hhide : hideAssertions
        (Text.lines "    assert(\r\n  x > 0); // y\r\n Require.that(z, FILE, w);") =
          .ok ⟨["  /*assert(", "  x > 0);*/ // y", " Require.that(z, FILE, w);"], 1⟩ := by
      decide +kernel
    obtain rfl := Except.ok.inj (hhide.symm.trans hhidden)
    decide +kernel

/-- A repository whose ignore file reads as an assertion, and leaves out a file of that name. -/
def ignoredByAssertion : FileTree where
  files := [(["c".toList, ".git".toList, "HEAD".toList], encode "ref\n"),
    (["c".toList, ".gitignore".toList], encode "assert(x);\n"),
    (["c".toList, "assert(x);".toList], encode "assert(y);\n")]

/-- The run that hides assertions in every file of a repository. -/
def hideEverywhere : Run := { root := "/c", pattern := "*", respectGitignore := true }

/-- A run that hides an assertion in an ignore file finds more files the next time. -/
theorem rerun_finds_ignored_file :
    (hideEverywhere.run ignoredByAssertion).2 = .ok ⟨2, ["/c/.gitignore"], 1, 0⟩ ∧
      (∀ files, discover ignoredByAssertion "/c" "*" true = .ok files →
        ∀ p ∈ files, ∀ text, ignoredByAssertion.readText p = .ok text → Clear none text.lines) ∧
        (hideEverywhere.run (hideEverywhere.run ignoredByAssertion).1).2 =
          .ok ⟨3, ["/c/assert(x);"], 1, 0⟩ := by
  refine ⟨by decide +kernel, ?_, by decide +kernel⟩
  have hfiles : discover ignoredByAssertion "/c" "*" true =
      .ok ["/c/.git/HEAD", "/c/.gitignore"] := by decide +kernel
  have hhead : ignoredByAssertion.readText "/c/.git/HEAD" = .ok "ref\n" := by decide +kernel
  have hignore : ignoredByAssertion.readText "/c/.gitignore" = .ok "assert(x);\n" := by
    decide +kernel
  have hlocate : locateAssertions (Text.lines "ref\n") = .ok [] ∧
      locateAssertions (Text.lines "assert(x);\n") = .ok [⟨.assertion, 0, 0⟩] := by decide +kernel
  intro files hfound p hp text hread
  obtain rfl : files = ["/c/.git/HEAD", "/c/.gitignore"] := Except.ok.inj (hfound.symm.trans hfiles)
  refine ⟨fun spans hspans => ?_, fun hguard => nomatch hguard⟩
  obtain rfl | rfl : p = "/c/.git/HEAD" ∨ p = "/c/.gitignore" := by simpa using hp
  · obtain rfl := Except.ok.inj (hhead.symm.trans hread)
    obtain rfl := Except.ok.inj (hlocate.1.symm.trans hspans)
    decide
  · obtain rfl := Except.ok.inj (hignore.symm.trans hread)
    obtain rfl := Except.ok.inj (hlocate.2.symm.trans hspans)
    decide +kernel

end ContractLint.Coverage
