import ContractLint.Proofs.Coverage.Atomicity
import ContractLint.Proofs.Coverage.GuardPlaces
import ContractLint.Proofs.Coverage.HidingEdits
import ContractLint.Proofs.Coverage.InlineTrace
import Mathlib.Algebra.Ring.Nat

/-!
# A run reports what it did

A run lists a file as changed if its lines differ from what they were, after both revisions. What it
counts comes from the revisions one by one. The two agree: a revision that counts nothing changes
nothing, and the second revision never undoes the first, also where both edit the same line.

## The architecture

* **`slashes`** — hiding a statement puts two slashes in, and no edit of either style takes one away.
  So a file with a hidden statement differs from what it was, whatever is done to it then.
* **`revisePreconditions_lines_eq_iff`** — a style changes the lines exactly if it counts a call: a
  guard makes the file longer, and a call in line has another name.
* **`prepare_lines_eq_iff`** — both revisions together.
* **`PreparedFile`** — a file that a run could read and prepare. A run that succeeds has gone over a
  list of these, and its summary is made of them (`exists_prepared_of_outcome`).
* **`summary_agrees`** — the summary against the tree before and after the run.
-/

namespace ContractLint.Coverage

/-! ## Slashes -/

/-- The number of slashes in lines. -/
def slashes (lines : List Text) : Nat := lines.flatten.count '/'

@[simp] theorem slashes_nil : slashes [] = 0 := rfl

@[simp] theorem slashes_cons (line : Text) (rest : List Text) :
    slashes (line :: rest) = line.count '/' + slashes rest := by
  rw [slashes, List.flatten_cons, List.count_append, slashes]

@[simp] theorem slashes_append (lines rest : List Text) :
    slashes (lines ++ rest) = slashes lines + slashes rest := by
  rw [slashes, List.flatten_append, List.count_append, slashes, slashes]

/-! ### Hiding -/

theorem count_slash_openHidden (line : Text) :
    (openHidden line).count '/' = line.count '/' + 1 := by
  have hindent : line.indent.count '/' = 0 := by
    rw [List.count_eq_zero]
    exact fun hmem => absurd (Text.isBlank_of_mem_indent hmem) (by decide)
  have hline := congrArg (List.count '/') (Text.indent_append_trimStart line)
  rw [List.count_append] at hline
  have hspaces : (List.replicate (line.indentWidth - 2) ' ').count '/' = 0 := by
    rw [List.count_replicate]
    rfl
  have hopener : Comment.opener.count '/' = 1 := rfl
  rw [openHidden, List.count_append, List.count_append]
  omega

theorem count_slash_closeHidden {line : Text} (h : callClose.occursIn line = true) :
    (closeHidden line).count '/' = line.count '/' + 1 := by
  obtain ⟨before, after, hcut⟩ := Text.exists_cut_of_infix (Text.occursIn_iff_infix.1 h)
  have hcloser : Comment.closer.count '/' = 1 := rfl
  rw [closeHidden_of_cut hcut, Text.cut_eq_some_append hcut]
  simp only [List.count_append]
  omega

theorem Assertion.slashes_hidden (a : Assertion) : slashes a.hidden = slashes a.lines + 2 := by
  obtain ⟨body, closing, hopens, hbody, hcloses⟩ := a
  cases body with
  | nil =>
    show slashes [closeHidden (openHidden closing)] = slashes [closing] + 2
    rw [slashes_cons, slashes_cons, count_slash_closeHidden (occursIn_openHidden hcloses),
      count_slash_openHidden]
    omega
  | cons first middle =>
    simp only [hidden, lines, slashes_append, slashes_cons, slashes_nil, List.cons_append,
      count_slash_openHidden, count_slash_closeHidden hcloses]
    omega

theorem Part.slashes_hidden (i : Nat) (parts : List Part) :
    slashes (parts.flatMap hidden) =
      slashes (parts.flatMap lines) + 2 * (spansFrom i parts).length := by
  induction parts generalizing i with
  | nil => rfl
  | cons p rest ih =>
    rw [List.flatMap_cons, List.flatMap_cons, slashes_append, slashes_append]
    cases p with
    | plain line =>
      rw [ih (i + 1)]
      show slashes [line] + _ = slashes [line] + _ + 2 * (spansFrom (i + 1) rest).length
      omega
    | assertion a =>
      rw [ih (i + a.body.length + 1), hidden, lines, a.slashes_hidden, spansFrom, List.length_cons]
      omega

theorem hideAssertions_slashes {lines : List Text} {r : Revision} (h : hideAssertions lines = .ok r) :
    slashes r.lines = slashes lines + 2 * r.changed := by
  obtain ⟨spans, hspans⟩ := exists_locate_of_hideAssertions h
  obtain ⟨parts, -, rfl, rfl, hout⟩ := exists_scanned_of_hideAssertions hspans h
  rw [hideAssertions, hspans] at h
  cases h
  rw [hout]
  exact Part.slashes_hidden 0 parts

theorem hideAssertions_lines_eq_iff {lines : List Text} {r : Revision}
    (h : hideAssertions lines = .ok r) : r.lines = lines ↔ r.changed = 0 := by
  constructor
  · intro hsame
    have hslashes := hideAssertions_slashes h
    rw [hsame] at hslashes
    omega
  · intro hnone
    obtain ⟨spans, hspans⟩ := exists_locate_of_hideAssertions h
    rw [hideAssertions, hspans] at h
    cases h
    obtain rfl := List.length_eq_zero_iff.1 hnone
    rfl

/-! ### Guards -/

theorem CallPart.slashes_withGuards (previous : Option Text) (parts : List CallPart) :
    slashes (parts.flatMap lines) ≤ slashes ((withGuards previous parts).flatMap lines) := by
  induction parts generalizing previous with
  | nil => exact Nat.le_refl _
  | cons p rest ih =>
    cases p with
    | plain line =>
      have hrest := ih (some line)
      simp only [withGuards, List.flatMap_cons, slashes_append]
      omega
    | call c =>
      have hrest := ih (some c.lastLine)
      simp only [withGuards, List.flatMap_append, List.flatMap_cons, slashes_append]
      omega

theorem CallPart.withGuards_of_missing {previous : Option Text} {parts : List CallPart}
    (h : missing previous parts = 0) : withGuards previous parts = parts := by
  induction parts generalizing previous with
  | nil => rfl
  | cons p rest ih =>
    cases p with
    | plain line => exact congrArg (plain line :: ·) (ih h)
    | call c =>
      obtain ⟨hguards, hrest⟩ := Nat.add_eq_zero_iff.1 h
      rw [withGuards, List.length_eq_zero_iff.1 hguards, ih hrest]
      rfl

theorem insertGuards_slashes {lines : List Text} {r : Revision} (h : insertGuards lines = .ok r) :
    slashes lines ≤ slashes r.lines := by
  obtain ⟨parts, -, rfl, hout⟩ := exists_callScan_of_insertGuards h
  rw [hout]
  exact CallPart.slashes_withGuards none parts

theorem insertGuards_lines_eq_iff {lines : List Text} {r : Revision}
    (h : insertGuards lines = .ok r) : r.lines = lines ↔ r.changed = 0 := by
  obtain ⟨parts, hscan, rfl⟩ := exists_callScan_of_guardFrom h
  rw [insertGuards, guardFrom_parts hscan] at h
  cases h
  show (CallPart.withGuards none parts).flatMap CallPart.lines = parts.flatMap CallPart.lines ↔
    CallPart.missing none parts = 0
  constructor
  · intro hsame
    have hlength := CallPart.length_withGuards none parts
    rw [hsame] at hlength
    omega
  · intro hnone
    rw [CallPart.withGuards_of_missing hnone]

/-! ### Calls in line -/

theorem Piece.count_slash_source_le (p : Piece) : p.source.count '/' ≤ p.text.count '/' := by
  cases p with
  | outside | argument | payload | location | closing => exact Nat.le_refl _
  | opener | closer | label => exact Nat.zero_le _
  | name => decide

theorem Piece.count_slash_sourceOf_le (pieces : List Piece) :
    (sourceOf pieces).count '/' ≤ (textOf pieces).count '/' := by
  induction pieces with
  | nil => exact Nat.le_refl _
  | cons p rest ih =>
    rw [sourceOf_cons, textOf_cons, List.count_append, List.count_append]
    exact Nat.add_le_add p.count_slash_source_le ih

theorem builtinCall_append_ne (t u : Text) : builtinCall ++ t ≠ preconditionCall ++ u := by
  intro hsame
  have hhead : some 'r' = some 'R' := congrArg List.head? hsame
  exact absurd hhead (by decide)

theorem TracedEdit.written_prefix_finish_edit (fileId : Option Text) (e : TracedEdit) :
    e.written <+: (e.edit fileId).finish.1 := by
  obtain ⟨pieces, hwritten, -⟩ := reads_edit fileId e
  have hread : e.written <+: (e.edit fileId).written := ⟨pieces, hwritten.symm⟩
  exact hread.trans (written_prefix_finish _)

namespace InlineState

variable {s : InlineState} {line : Text}

theorem count_slash_traced (s : InlineState) (line : Text) :
    line.count '/' ≤ (s.traced line).text.count '/' := by
  cases hstart : s.start? line with
  | none =>
    rw [traced_of_start?_eq_none hstart]
    exact Nat.le_refl _
  | some e =>
    have htraced := traced_of_start? hstart
    have hle := Piece.count_slash_sourceOf_le (e.edit (s.identifier line)).finish.1
    rw [sourceOf_of_traced htraced] at hle
    rw [htraced]
    exact hle

theorem slashes_trace (s : InlineState) (lines : List Text) :
    slashes lines ≤ slashes ((s.trace lines).map TracedLine.text) := by
  induction lines generalizing s with
  | nil => exact Nat.le_refl _
  | cons line rest ih =>
    rw [trace, List.map_cons, slashes_cons, slashes_cons]
    exact Nat.add_le_add (s.count_slash_traced line) (ih (s.next line))

/-- The line on which a call is found has its new name where it had the old one. -/
theorem text_traced_ne (h : (s.traced line).opens = true) : (s.traced line).text ≠ line := by
  cases htraced : s.traced line with
  | plain same =>
    rw [htraced] at h
    cases h
  | call opens pieces =>
    rw [htraced] at h
    obtain rfl : opens = true := h
    have hsource := sourceOf_of_traced htraced
    obtain ⟨e, hstart, hidle, rfl⟩ := exists_start?_of_traced htraced
    rcases start?_cases hstart with ⟨call, hcall, -⟩ | ⟨-, before, args, -, rfl⟩
    · rw [hcall] at hidle
      cases hidle
    · -- both lines start with what stands before the call
      obtain ⟨more, hmore⟩ := TracedEdit.written_prefix_finish_edit (s.identifier line)
        ⟨{ progress := .condition s.number }, [.outside before, .name], args⟩
      rw [← hmore] at hsource ⊢
      intro hsame
      have hnames : before ++ (builtinCall ++ Piece.textOf more) =
          before ++ (preconditionCall ++ Piece.sourceOf more) := hsame.trans hsource.symm
      exact builtinCall_append_ne _ _ (List.append_cancel_left hnames)

theorem text_trace_of_found (hidle : s.call = none) {lines : List Text} (h : s.found lines = 0) :
    (s.trace lines).map TracedLine.text = lines := by
  induction lines generalizing s with
  | nil => rfl
  | cons line rest ih =>
    rw [found_cons] at h
    cases hstart : s.start? line with
    | none =>
      have hrest := ih (call_next_of_start?_eq_none hstart) (Nat.add_eq_zero_iff.1 h).2
      rw [trace, List.map_cons, traced_of_start?_eq_none hstart, hrest]
      rfl
    | some e =>
      rw [traced_of_start? hstart, hidle] at h
      simp [TracedLine.opens] at h

end InlineState

theorem inlinePreconditions_lines_eq_iff {lines : List Text} {r : Revision}
    (h : inlinePreconditions lines = .ok r) : r.lines = lines ↔ r.changed = 0 := by
  obtain ⟨-, rfl⟩ := inlinePreconditions_eq_ok_iff.1 h
  constructor
  · intro hsame
    show List.countP _ _ = 0
    rw [List.countP_eq_zero]
    intro traced hmem hopens
    obtain ⟨i, hi⟩ := List.mem_iff_getElem?.1 hmem
    obtain ⟨line, hline, rfl⟩ := exists_traced_of_inlineTrace hi
    have hnew := getElem?_of_inlineTrace h hi
    rw [hsame, hline] at hnew
    exact InlineState.text_traced_ne hopens (Option.some.inj hnew).symm
  · exact InlineState.text_trace_of_found rfl

/-! ## Both revisions -/

theorem revisePreconditions_slashes {style : PreconditionStyle} {lines : List Text} {r : Revision}
    (h : revisePreconditions style lines = .ok r) : slashes lines ≤ slashes r.lines := by
  cases style with
  | guard => exact insertGuards_slashes h
  | inline =>
    obtain ⟨-, rfl⟩ := inlinePreconditions_eq_ok_iff.1 h
    exact InlineState.slashes_trace {} lines

/-- **A style that counts no call changes no line, and otherwise it changes one.** -/
theorem revisePreconditions_lines_eq_iff {style : PreconditionStyle} {lines : List Text}
    {r : Revision} (h : revisePreconditions style lines = .ok r) :
    r.lines = lines ↔ r.changed = 0 := by
  cases style with
  | guard => exact insertGuards_lines_eq_iff h
  | inline => exact inlinePreconditions_lines_eq_iff h

/-- **The lines of a file change exactly if something is counted.** -/
theorem prepare_lines_eq_iff {style : Option PreconditionStyle} {lines : List Text} {p : Prepared}
    (h : prepare style lines = .ok p) :
    p.lines = lines ↔ p.assertions = 0 ∧ p.preconditions = 0 := by
  cases style with
  | none =>
    obtain ⟨hidden, hhide, rfl⟩ := prepare_none_eq_ok_iff.1 h
    simpa using hideAssertions_lines_eq_iff hhide
  | some style =>
    obtain ⟨hidden, revised, hhide, hrevise, rfl⟩ := prepare_some_eq_ok_iff.1 h
    constructor
    · show revised.lines = lines → _
      intro hsame
      -- the slashes that hiding puts in would still be there
      have hnone : hidden.changed = 0 := by
        have hput := hideAssertions_slashes hhide
        have hkept := revisePreconditions_slashes hrevise
        rw [hsame] at hkept
        omega
      rw [← (hideAssertions_lines_eq_iff hhide).2 hnone] at hsame
      exact ⟨hnone, (revisePreconditions_lines_eq_iff hrevise).1 hsame⟩
    · rintro ⟨hassertions, hpreconditions⟩
      exact ((revisePreconditions_lines_eq_iff hrevise).2 hpreconditions).trans
        ((hideAssertions_lines_eq_iff hhide).2 hassertions)

/-! ## All files -/

/-- A file that a run can read and prepare. -/
structure PreparedFile (r : Run) (read : Path → Except AccessError Text) where
  path : Path
  text : Text
  result : Prepared
  read_eq : read path = .ok text
  prepare_eq : prepare r.style text.lines = .ok result

namespace PreparedFile

variable {r : Run} {read : Path → Except AccessError Text}

/-- Whether a statement of the file was hidden or a precondition revised. -/
def counted (f : PreparedFile r read) : Bool :=
  0 < f.result.assertions || 0 < f.result.preconditions

def newText (f : PreparedFile r read) : Text :=
  ((Source.ofText f.path f.text).withLines f.result.lines).toText

theorem counted_iff (f : PreparedFile r read) :
    f.counted = true ↔ 0 < f.result.assertions ∨ 0 < f.result.preconditions := by
  simp [counted]

theorem counted_congr {f g : PreparedFile r read} (h : f.path = g.path) : f.counted = g.counted := by
  -- by its path a file has one text, and its text one result
  obtain ⟨p, text, result, hread, hprepare⟩ := f
  obtain ⟨q, text', result', hread', hprepare'⟩ := g
  obtain rfl : p = q := h
  obtain rfl := Except.ok.inj (hread.symm.trans hread')
  obtain rfl := Except.ok.inj (hprepare.symm.trans hprepare')
  rfl

theorem lines_ne_iff (f : PreparedFile r read) :
    f.result.lines ≠ f.text.lines ↔ f.counted = true := by
  rw [Ne, prepare_lines_eq_iff f.prepare_eq, counted_iff]
  omega

/-- The summary with what is to be said about one more file. -/
def addTo (s : Summary) (f : PreparedFile r read) : Summary where
  files := s.files + 1
  filesChanged := s.filesChanged ++ if f.counted then [f.path] else []
  assertsHidden := s.assertsHidden + f.result.assertions
  preconditionsFixed := s.preconditionsFixed + f.result.preconditions

/-- **One step of a run**: a file is written over and listed if something in it is counted. -/
theorem runFile_eq (f : PreparedFile r read) (s : Summary) :
    r.runFile f.path f.text s = .ok (if f.counted then some f.newText else none, addTo s f) := by
  have hprepare : prepare r.style (Source.ofText f.path f.text).lines = .ok f.result := f.prepare_eq
  have hchanged : f.result.lines ≠ (Source.ofText f.path f.text).lines ↔ f.counted = true :=
    f.lines_ne_iff
  rw [Run.runFile, hprepare]
  simp only [hchanged, addTo, newText]
  cases f.counted <;> simp

theorem written_eq (f : PreparedFile r read) :
    r.written f.path f.text = .ok (if f.counted then some f.newText else none) := by
  rw [← Run.runFile_map_fst f.path f.text {}, f.runFile_eq]
  rfl

theorem path_mem_counted_iff {prepared : List (PreparedFile r read)} {f : PreparedFile r read}
    (hf : f ∈ prepared) : f.path ∈ (prepared.filter counted).map path ↔ f.counted = true := by
  constructor
  · intro hmem
    obtain ⟨g, hg, hpath⟩ := List.mem_map.1 hmem
    rw [← counted_congr hpath]
    exact (List.mem_filter.1 hg).2
  · intro hcounted
    exact List.mem_map_of_mem (List.mem_filter.2 ⟨hf, hcounted⟩)

theorem filesChanged_foldl (s : Summary) (prepared : List (PreparedFile r read)) :
    (prepared.foldl addTo s).filesChanged =
      s.filesChanged ++ (prepared.filter counted).map path := by
  induction prepared generalizing s with
  | nil => simp
  | cons f rest ih =>
    rw [List.foldl_cons, ih, addTo]
    cases hcounted : f.counted <;> simp [hcounted]

theorem counts_foldl (s : Summary) (prepared : List (PreparedFile r read)) :
    (prepared.foldl addTo s).assertsHidden =
        s.assertsHidden + (prepared.map (·.result.assertions)).sum ∧
      (prepared.foldl addTo s).preconditionsFixed =
        s.preconditionsFixed + (prepared.map (·.result.preconditions)).sum := by
  induction prepared generalizing s with
  | nil => exact ⟨rfl, rfl⟩
  | cons f rest ih =>
    obtain ⟨hasserts, hpreconditions⟩ := ih (addTo s f)
    rw [List.foldl_cons, hasserts, hpreconditions]
    simp only [addTo, List.map_cons, List.sum_cons]
    omega

end PreparedFile

namespace Run

open FileTree

variable {r : Run}

/-- **A run that succeeds has prepared every file**, and its summary is made of what it did to
them. -/
theorem exists_prepared_of_outcome {read : Path → Except AccessError Text} {files : List Path}
    {s s' : Summary} (h : outcome r.runFile read files s = .ok s') :
    ∃ prepared : List (PreparedFile r read),
      files = prepared.map (·.path) ∧ s' = prepared.foldl PreparedFile.addTo s := by
  induction files generalizing s with
  | nil =>
    cases h
    exact ⟨[], rfl, rfl⟩
  | cons p rest ih =>
    rw [outcome] at h
    cases hread : read p with
    | error cause =>
      rw [hread] at h
      cases h
    | ok text =>
      cases hprepare : prepare r.style text.lines with
      | error e =>
        have hfile : r.runFile p text s = .error (.statement p e) := by
          have hsource : prepare r.style (Source.ofText p text).lines = .error e := hprepare
          rw [runFile, hsource]
        simp only [hread, hfile] at h
        cases h
      | ok result =>
        let f : PreparedFile r read := ⟨p, text, result, hread, hprepare⟩
        have hfile : r.runFile p text s = _ := f.runFile_eq s
        simp only [hread, hfile] at h
        obtain ⟨prepared, rfl, rfl⟩ := ih h
        exact ⟨f :: prepared, rfl, rfl⟩

theorem file?_of_visit_ok {t t' : FileTree} {files : List Path} {s s' : Summary}
    (hkeys : (files.map keyOf).Nodup) (hfiles : ∀ p ∈ files, ∃ bytes, t.FileAt p bytes)
    (h : visit r.runFile files t s = (t', .ok s')) (f : PreparedFile r t.readText)
    (hf : f.path ∈ files) :
    t'.file? (keyOf f.path) =
      if f.counted then some (encode f.newText) else t.file? (keyOf f.path) := by
  obtain ⟨bytes, new, hat, hnew, hafter⟩ :=
    (revised_of_visit_ok runFile_map_fst hkeys hfiles h).1 f.path hf
  obtain ⟨text, written, hdecode, hwritten, rfl⟩ := revised_eq_ok_iff.1 hnew
  obtain rfl : text = f.text :=
    Except.ok.inj ((hat.readText_of_decode hdecode).symm.trans f.read_eq)
  obtain rfl := Except.ok.inj (hwritten.symm.trans f.written_eq)
  rw [hafter, hat.file]
  cases f.counted <;> rfl

/-- **The summary agrees with what was written.** A run that succeeds has prepared every file that it
found. It lists those in which it hid a statement or revised a precondition, in the order of their
paths and each of them once, and its counts are the sums of those of the files. The files that are
listed hold their new text, and all others, in the directory or elsewhere, the bytes that they
held. -/
theorem summary_agrees {r : Run} {t t' : FileTree} {s : Summary} (ht : t.WellFormed)
    (h : r.run t = (t', .ok s)) :
    ∃ prepared : List (PreparedFile r t.readText),
      discover t r.root r.pattern r.respectGitignore = .ok (prepared.map (·.path)) ∧
      s.files = prepared.length ∧
      (∀ f ∈ prepared, f.path ∈ s.filesChanged ↔
        0 < f.result.assertions ∨ 0 < f.result.preconditions) ∧
      (∀ p ∈ s.filesChanged, p ∈ prepared.map (·.path)) ∧
      s.filesChanged.Pairwise (fun p q => p.le q = true ∧ q.le p = false) ∧
      s.assertsHidden = (prepared.map (·.result.assertions)).sum ∧
      s.preconditionsFixed = (prepared.map (·.result.preconditions)).sum ∧
      (∀ f ∈ prepared, f.path ∈ s.filesChanged →
        t'.file? (keyOf f.path) = some (encode f.newText)) ∧
      ∀ key, key ∉ s.filesChanged.map keyOf → t'.file? key = t.file? key := by
  cases hfound : discover t r.root r.pattern r.respectGitignore with
  | error e =>
    rw [run, hfound] at h
    cases h
  | ok files =>
    have hkeys := ht.nodup_keyOf_of_discover hfound
    have hat := ht.fileAt_of_discover hfound
    have horder := ht.pairwise_of_discover hfound
    rw [run, hfound] at h
    have hcount : s.files = 0 + files.length := files_of_runFiles h
    have hvisit : visit r.runFile files t {} = (t', .ok s) := by
      rw [← runFiles_eq_visit]
      exact h
    have hresult := congrArg Prod.snd hvisit
    rw [visit_snd hkeys] at hresult
    obtain ⟨prepared, rfl, rfl⟩ := exists_prepared_of_outcome hresult
    rw [Nat.zero_add, List.length_map] at hcount
    obtain ⟨hasserts, hpreconditions⟩ := PreparedFile.counts_foldl {} prepared
    have hlisted : (prepared.foldl PreparedFile.addTo {}).filesChanged =
        (prepared.filter PreparedFile.counted).map (·.path) :=
      PreparedFile.filesChanged_foldl {} prepared
    have hfile (f : PreparedFile r t.readText) (hf : f ∈ prepared) :=
      file?_of_visit_ok hkeys hat hvisit f (List.mem_map_of_mem hf)
    rw [hlisted]
    refine ⟨prepared, rfl, hcount, fun f hf => ?_, fun p hp => ?_, ?_,
      hasserts.trans (Nat.zero_add _), hpreconditions.trans (Nat.zero_add _), fun f hf hmem => ?_,
      fun key hkey => ?_⟩
    · rw [PreparedFile.path_mem_counted_iff hf, PreparedFile.counted_iff]
    · exact (List.filter_sublist.map _).subset hp
    · exact horder.sublist (List.filter_sublist.map _)
    · rw [hfile f hf, if_pos ((PreparedFile.path_mem_counted_iff hf).1 hmem)]
    · -- a file that was found and is not listed is not written over
      by_cases hmem : key ∈ (prepared.map (·.path)).map keyOf
      · obtain ⟨p, hp, rfl⟩ := List.mem_map.1 hmem
        obtain ⟨f, hf, rfl⟩ := List.mem_map.1 hp
        have hnone : ¬f.counted = true := fun hcounted =>
          hkey (List.mem_map_of_mem ((PreparedFile.path_mem_counted_iff hf).2 hcounted))
        rw [hfile f hf, if_neg hnone]
      · exact (revised_of_visit_ok runFile_map_fst hkeys hat hvisit).2 key hmem

/-- A contract with mixed line endings and nothing to do, and one that both revisions edit on the same
line. -/
def sharedLine : FileTree where
  files := [(["c".toList, "B.sol".toList], encode "assert(x); Require.that(y);\nz;\n"),
    (["c".toList, "A.sol".toList], encode "// assert(x);\r\ny;\n")]

/-- The run that puts the preconditions of the contracts in line. -/
def inlineShared : Run where
  root := "/c"
  pattern := "*.sol"
  style := some .inline

/-- The second contract is listed and written over. The first one keeps its two line endings. -/
theorem summary_agrees_sharedLine :
    (inlineShared.run sharedLine).2 = .ok ⟨2, ["/c/B.sol"], 1, 1⟩ ∧
      (∃ f : PreparedFile inlineShared sharedLine.readText, f.path = "/c/B.sol" ∧
        (0 < f.result.assertions ∨ 0 < f.result.preconditions)) ∧
      (inlineShared.run sharedLine).1.file? ["c".toList, "B.sol".toList] =
        some (encode "/*assert(x);*/ require(y);\nz;\n") ∧
      (inlineShared.run sharedLine).1.file? ["c".toList, "A.sol".toList] =
        some (encode "// assert(x);\r\ny;\n") := by
  have hresult : (inlineShared.run sharedLine).2 = .ok ⟨2, ["/c/B.sol"], 1, 1⟩ := by
    decide +kernel
  obtain ⟨prepared, -, -, hlisted, hfound, -, -, -, -, hkept⟩ :=
    summary_agrees (r := inlineShared) (t := sharedLine) (by decide +kernel) (Prod.ext rfl hresult)
  refine ⟨hresult, ?_, by decide +kernel, (hkept _ (by decide +kernel)).trans (by decide +kernel)⟩
  obtain ⟨f, hf, hpath⟩ := List.mem_map.1 (hfound "/c/B.sol" (by simp))
  exact ⟨f, hpath, (hlisted f hf).1 (by rw [hpath]; simp)⟩

end Run

end ContractLint.Coverage
