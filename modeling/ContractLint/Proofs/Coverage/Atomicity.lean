import ContractLint.Proofs.Coverage.Idempotence
import ContractLint.Proofs.FileTree.Visit

/-!
# A coverage run is atomic for each file

A run either prepares a file as a whole or leaves it as it was, also if it fails half way through
the directory: the files before the one that it cannot prepare have their new text, and that file,
those behind it and all others are untouched.

## The architecture

* **`prepareBytes`** — what a run makes of one file, by its bytes alone: both revisions on the lines
  of its text, and the new text only if the lines differ.
* **`runFiles_eq_visit`** — a run visits its files one by one, and treats each as `prepareBytes`
  says (`revised_written`). The rest is what holds of every such visit.
* **`run_atomic`** — the run as a whole.
-/

namespace ContractLint.Coverage.Run

open FileTree

/-- What a run makes of a file that holds these bytes: what it holds afterwards, or why the run stops
there. -/
def prepareBytes (r : Run) (p : Path) (bytes : ByteArray) : Except Failure ByteArray :=
  match decode? bytes with
  | none => .error (.read p .notText)
  | some text =>
    match prepare r.style text.lines with
    | .error e => .error (.statement p e)
    | .ok prepared =>
      if prepared.lines = text.lines then .ok bytes
      else .ok (encode ((Source.ofText p text).withLines prepared.lines).toText)

/-- What a run makes of the file of a path. -/
def prepareFile (r : Run) (t : FileTree) (p : Path) : Except Failure ByteArray :=
  match t.file? (keyOf p) with
  | some bytes => r.prepareBytes p bytes
  | none => .error (.read p .notFound)

/-- What a run writes over a file with a text. -/
def written (r : Run) (p : Path) (text : Text) : Except Failure (Option Text) :=
  match prepare r.style text.lines with
  | .error e => .error (.statement p e)
  | .ok prepared =>
    .ok (if prepared.lines = text.lines then none
      else some ((Source.ofText p text).withLines prepared.lines).toText)

theorem revised_written (r : Run) (p : Path) (bytes : ByteArray) :
    revised r.written p bytes = r.prepareBytes p bytes := by
  rw [revised, prepareBytes]
  cases decode? bytes with
  | none => rfl
  | some text =>
    simp only [written]
    cases prepare r.style text.lines with
    | error e => rfl
    | ok prepared =>
      simp only [Except.map]
      split <;> rfl

variable {r : Run}

/-- What is written does not depend on the counts so far. -/
theorem runFile_map_fst (p : Path) (text : Text) (s : Summary) :
    (r.runFile p text s).map (·.1) = r.written p text := by
  have hlines : (Source.ofText p text).lines = text.lines := rfl
  rw [runFile, written, hlines]
  cases prepare r.style text.lines with
  | error e => rfl
  | ok prepared =>
    simp only [Except.map, ite_not]

theorem runFiles_eq_visit (files : List Path) (t : FileTree) (s : Summary) :
    r.runFiles files t s = visit r.runFile files t s := by
  induction files generalizing t s with
  | nil => rfl
  | cons p rest ih =>
    cases hread : t.readText p with
    | error cause => rw [runFiles, visit, hread]
    | ok text =>
      cases hfile : r.runFile p text s with
      | error e =>
        rw [runFiles, visit, hread]
        simp only [hfile]
      | ok outcome =>
        rw [runFiles_cons hread hfile, visit_cons_ok hread hfile, ih]

theorem files_of_runFiles {files : List Path} {t t' : FileTree} {s s' : Summary}
    (h : r.runFiles files t s = (t', .ok s')) : s'.files = s.files + files.length := by
  induction files generalizing t s with
  | nil =>
    cases h
    rfl
  | cons p rest ih =>
    cases hread : t.readText p with
    | error cause =>
      rw [runFiles, hread] at h
      cases h
    | ok text =>
      cases hfile : r.runFile p text s with
      | error e =>
        rw [runFiles, hread] at h
        simp only [hfile] at h
        cases h
      | ok outcome =>
        obtain ⟨new, s₁⟩ := outcome
        rw [runFiles_cons hread hfile] at h
        obtain ⟨-, -, hcount, -⟩ := runFile_cases hfile
        rw [ih h, hcount, List.length_cons]
        omega

/-- A file that was found, with what is to become of it. -/
theorem revised_of_prepareFile {t : FileTree} {p : Path} {bytes : ByteArray} (hp : t.FileAt p bytes) :
    revised r.written p bytes = r.prepareFile t p := by
  rw [revised_written, prepareFile, hp.file]

/-- **A run is atomic for each file.** Every path that is found leads to a file. If all files can be
prepared, the run succeeds and counts them. If not, it fails with the failure of the first one that
cannot: the files before it hold what they are prepared to, and it, the files behind it and those
that were not found hold what they held. -/
theorem run_atomic {r : Run} {t : FileTree} (ht : t.WellFormed) {files : List Path}
    (hfound : discover t r.root r.pattern r.respectGitignore = .ok files) :
    (∀ p ∈ files, (t.file? (keyOf p)).isSome = true) ∧
    ((∀ p ∈ files, ∃ new, r.prepareFile t p = .ok new) →
      ∃ s, (r.run t).2 = .ok s ∧ s.files = files.length) ∧
    ∀ done p rest e, files = done ++ p :: rest →
      (∀ q ∈ done, ∃ new, r.prepareFile t q = .ok new) → r.prepareFile t p = .error e →
        (r.run t).2 = .error e ∧
        (∀ q ∈ done, ∀ new, r.prepareFile t q = .ok new →
          (r.run t).1.file? (keyOf q) = some new) ∧
        (∀ q ∈ p :: rest, (r.run t).1.file? (keyOf q) = t.file? (keyOf q)) ∧
        ∀ key, key ∉ files.map keyOf → (r.run t).1.file? key = t.file? key := by
  have hat := ht.fileAt_of_discover hfound
  have hkeys := ht.nodup_keyOf_of_discover hfound
  have hrun : r.run t = visit r.runFile files t {} := by
    rw [run, hfound]
    exact runFiles_eq_visit files t {}
  -- what is to become of a file is what its bytes are revised to
  have hrevised (q : Path) (hq : q ∈ files) (h : ∃ new, r.prepareFile t q = .ok new) :
      ∃ bytes new, t.FileAt q bytes ∧ revised r.written q bytes = .ok new := by
    obtain ⟨bytes, hbytes⟩ := hat q hq
    obtain ⟨new, hnew⟩ := h
    exact ⟨bytes, new, hbytes, (revised_of_prepareFile hbytes).trans hnew⟩
  refine ⟨fun p hp => ?_, fun hall => ?_, ?_⟩
  · obtain ⟨bytes, hbytes⟩ := hat p hp
    rw [hbytes.file]
    rfl
  · obtain ⟨t', s, hvisit, -⟩ := visit_of_revised runFile_map_fst (s := {}) hkeys
      fun q hq => hrevised q hq (hall q hq)
    have hcount := files_of_runFiles ((runFiles_eq_visit files t {}).trans hvisit)
    exact ⟨s, by rw [hrun, hvisit], by simpa using hcount⟩
  · rintro done p rest e rfl hdone herror
    obtain ⟨bytes, hbytes⟩ := hat p (by simp)
    have hdone' := fun q hq => hrevised q (by simp [hq]) (hdone q hq)
    have hstop := visit_of_revised_error runFile_map_fst (s := {}) hkeys hdone' hbytes
      ((revised_of_prepareFile hbytes).trans herror)
    rw [List.map_append] at hkeys
    obtain ⟨t', s, hvisit, -, hnew, hframe⟩ := visit_of_revised runFile_map_fst (s := {})
      hkeys.of_append_left hdone'
    rw [hvisit] at hstop
    rw [hrun, hstop]
    refine ⟨rfl, fun q hq new hprepared => ?_, fun q hq => ?_, fun key hkey => ?_⟩
    · obtain ⟨held, hheld⟩ := hat q (by simp [hq])
      exact hnew q hq held new hheld ((revised_of_prepareFile hheld).trans hprepared)
    · exact hframe _ fun hmem =>
        List.disjoint_of_nodup_append hkeys hmem (List.mem_map_of_mem hq)
    · refine hframe key fun hmem => hkey ?_
      rw [List.map_append]
      exact List.mem_append_left _ hmem

/-- Three contracts, of which the second has a call that does not end. -/
def brokenContract : FileTree where
  files := [(["c".toList, "C.sol".toList], encode "assert(z);\n"),
    (["c".toList, "A.sol".toList], encode "assert(x);\r\n  Require.that(y);"),
    (["c".toList, "B.sol".toList], encode "assert(x);\nRequire.that(y\n"),
    (["c".toList, "notes".toList], encode "assert(z);\n")]

/-- The run that guards the contracts. -/
def guardBroken : Run where
  root := "/c"
  pattern := "*.sol"
  style := some .guard

/-- The run stops at the second contract. The first has its new text, and nothing of the second one
was written, although its assertion could be hidden. -/
theorem run_atomic_brokenContract :
    brokenContract.WellFormed ∧
      discover brokenContract "/c" "*.sol" false = .ok ["/c/A.sol", "/c/B.sol", "/c/C.sol"] ∧
      (guardBroken.run brokenContract).2 = .error (.statement "/c/B.sol" ⟨.precondition, 2⟩) ∧
      (guardBroken.run brokenContract).1.file? ["c".toList, "A.sol".toList] = some (encode
        "/*assert(x);*/\r\n  if (y) { /* FOR COVERAGE TESTING */ }\r\n  Require.that(y);") ∧
      (guardBroken.run brokenContract).1.file? ["c".toList, "B.sol".toList] =
        some (encode "assert(x);\nRequire.that(y\n") := by
  have htree : brokenContract.WellFormed := by decide +kernel
  have hfound : discover brokenContract "/c" "*.sol" false =
      .ok ["/c/A.sol", "/c/B.sol", "/c/C.sol"] := by decide +kernel
  have hfirst : guardBroken.prepareFile brokenContract "/c/A.sol" = .ok (encode
      "/*assert(x);*/\r\n  if (y) { /* FOR COVERAGE TESTING */ }\r\n  Require.that(y);") := by
    decide +kernel
  have hsecond : guardBroken.prepareFile brokenContract "/c/B.sol" =
      .error (.statement "/c/B.sol" ⟨.precondition, 2⟩) := by decide +kernel
  obtain ⟨hfail, hdone, hkept, -⟩ := (run_atomic (r := guardBroken) htree hfound).2.2
    ["/c/A.sol"] "/c/B.sol" ["/c/C.sol"] _ rfl
    (fun q hq => ⟨_, by obtain rfl := List.mem_singleton.1 hq; exact hfirst⟩) hsecond
  refine ⟨htree, hfound, hfail, ?_, ?_⟩
  · exact hdone "/c/A.sol" (by simp) _ hfirst
  · exact (hkept "/c/B.sol" (by simp)).trans (by decide +kernel)

end ContractLint.Coverage.Run
