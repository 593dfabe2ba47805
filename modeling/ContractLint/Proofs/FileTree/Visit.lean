import ContractLint.Failure
import ContractLint.Proofs.FileTree.Found

/-!
# Visiting files one by one

A run goes over files in order. It reads each of them, may write over it, and stops at the first one
that it cannot treat. If every path leads to a file of its own, then what happens to a file is a
matter of its own bytes: no visit sees what another one wrote.

## The architecture

* **`visit`** — a run with the treatment of a single file as a parameter.
* **`revised`** — what one file holds after its visit, or why the run stops there, by the bytes that
  it held.
* **`visit_of_revised`, `visit_of_revised_error`** — the tree after a run: revised up to the first
  file that stops it, and as it was from there on and everywhere else. Seen from the end of a run,
  this is `revised_of_visit_ok` and `stopped_of_visit_error`.
* **`visit_snd`** — what a run returns, without the tree that it leaves.
-/

namespace ContractLint.FileTree

/-! ## One file -/

section Overwrite

variable {t : FileTree} {p : Path} {bytes : ByteArray} (hp : t.FileAt p bytes)
include hp

theorem sameShape_overwrite (written : Option Text) : SameShape t (t.overwrite p written) := by
  cases written with
  | none => exact .refl t
  | some text => exact sameShape_write (by rw [hp.file]; rfl) _

theorem file?_overwrite_self (written : Option Text) :
    (t.overwrite p written).file? (keyOf p) = some ((written.map encode).getD bytes) := by
  cases written with
  | none => exact hp.file
  | some text => exact (file?_write (by rw [hp.file]; rfl) _ _).trans (if_pos rfl)

theorem file?_overwrite_of_ne {key : Key} (hkey : key ≠ keyOf p) (written : Option Text) :
    (t.overwrite p written).file? key = t.file? key := by
  cases written with
  | none => rfl
  | some text => exact (file?_write (by rw [hp.file]; rfl) _ _).trans (if_neg hkey)

end Overwrite

theorem FileAt.of_sameShape {t u : FileTree} {p : Path} {bytes : ByteArray} (h : t.FileAt p bytes)
    (hshape : SameShape t u) (hfile : u.file? (keyOf p) = t.file? (keyOf p)) : u.FileAt p bytes :=
  ⟨(hshape.resolve p).trans h.resolve, hfile.trans h.file⟩

/-- What a file holds after it was treated, or the failure that it gives. The treatment is given by
what it writes. -/
def revised (write : Path → Text → Except Failure (Option Text)) (p : Path) (bytes : ByteArray) :
    Except Failure ByteArray :=
  match decode? bytes with
  | none => .error (.read p .notText)
  | some text => (write p text).map fun written => (written.map encode).getD bytes

section Revised

variable {write : Path → Text → Except Failure (Option Text)} {p : Path} {bytes : ByteArray}

theorem revised_eq_ok_iff {new : ByteArray} :
    revised write p bytes = .ok new ↔
      ∃ text written, decode? bytes = some text ∧ write p text = .ok written ∧
        (written.map encode).getD bytes = new := by
  rw [revised]
  cases decode? bytes with
  | none => simp
  | some text => cases hwrite : write p text <;> simp [Except.map, hwrite]

theorem revised_eq_error_iff {e : Failure} :
    revised write p bytes = .error e ↔
      decode? bytes = none ∧ e = .read p .notText ∨
        ∃ text, decode? bytes = some text ∧ write p text = .error e := by
  rw [revised]
  cases decode? bytes with
  | none => simp [eq_comm]
  | some text => cases hwrite : write p text <;> simp [Except.map, hwrite]

/-- All files can be treated, or there is a first one that cannot. -/
theorem revised_or_first_error (write : Path → Text → Except Failure (Option Text)) {t : FileTree}
    {files : List Path} (h : ∀ p ∈ files, ∃ bytes, t.FileAt p bytes) :
    (∀ p ∈ files, ∃ bytes new, t.FileAt p bytes ∧ revised write p bytes = .ok new) ∨
      ∃ done p rest bytes e, files = done ++ p :: rest ∧
        (∀ q ∈ done, ∃ bytes new, t.FileAt q bytes ∧ revised write q bytes = .ok new) ∧
          t.FileAt p bytes ∧ revised write p bytes = .error e := by
  induction files with
  | nil => exact .inl (by simp)
  | cons p rest ih =>
    obtain ⟨bytes, hp⟩ := h p (by simp)
    cases hrevised : revised write p bytes with
    | error e => exact .inr ⟨[], p, rest, bytes, e, rfl, by simp, hp, hrevised⟩
    | ok new =>
      have hhead : ∃ bytes new, t.FileAt p bytes ∧ revised write p bytes = .ok new :=
        ⟨bytes, new, hp, hrevised⟩
      rcases ih fun q hq => h q (by simp [hq]) with hall | ⟨done, q, behind, held, e, rfl, hdone, hq⟩
      · exact .inl (List.forall_mem_cons.2 ⟨hhead, hall⟩)
      · exact .inr ⟨p :: done, q, behind, held, e, rfl, List.forall_mem_cons.2 ⟨hhead, hdone⟩, hq⟩

end Revised

/-! ## All files -/

variable {σ : Type}

/-- How a run treats a file: by its path, its text and what is known so far, what to write over it
and what is known then. -/
abbrev Treatment (σ : Type) := Path → Text → σ → Except Failure (Option Text × σ)

/-- Goes over files in order, up to the first failure. -/
def visit (treat : Treatment σ) : List Path → FileTree → σ → FileTree × Except Failure σ
  | [], t, s => (t, .ok s)
  | p :: rest, t, s =>
    match t.readText p with
    | .error cause => (t, .error (.read p cause))
    | .ok text =>
      match treat p text s with
      | .error e => (t, .error e)
      | .ok (written, s) => visit treat rest (t.overwrite p written) s

variable {treat : Treatment σ} {t : FileTree} {p : Path} {rest : List Path} {s s' : σ}

theorem visit_cons_ok {text : Text} {written : Option Text} (hread : t.readText p = .ok text)
    (htreat : treat p text s = .ok (written, s')) :
    visit treat (p :: rest) t s = visit treat rest (t.overwrite p written) s' := by
  rw [visit, hread]
  simp only [htreat]

theorem visit_append {done : List Path} {t' : FileTree} (h : visit treat done t s = (t', .ok s'))
    (rest : List Path) : visit treat (done ++ rest) t s = visit treat rest t' s' := by
  induction done generalizing t s with
  | nil =>
    cases h
    rfl
  | cons p done ih =>
    cases hread : t.readText p with
    | error cause =>
      rw [visit, hread] at h
      cases h
    | ok text =>
      cases htreat : treat p text s with
      | error e =>
        rw [visit, hread] at h
        simp only [htreat] at h
        cases h
      | ok outcome =>
        rw [visit_cons_ok hread htreat] at h
        rw [List.cons_append, visit_cons_ok hread htreat]
        exact ih h

section Trees

variable {write : Path → Text → Except Failure (Option Text)}
  (hwrite : ∀ p text s, (treat p text s).map (·.1) = write p text)
include hwrite

/-- **A run that treats every file** succeeds. Each file holds what it is revised to, and nothing
else has changed. -/
theorem visit_of_revised {files : List Path} (hkeys : (files.map keyOf).Nodup)
    (h : ∀ p ∈ files, ∃ bytes new, t.FileAt p bytes ∧ revised write p bytes = .ok new) :
    ∃ t' s', visit treat files t s = (t', .ok s') ∧ SameShape t t' ∧
      (∀ p ∈ files, ∀ bytes new, t.FileAt p bytes → revised write p bytes = .ok new →
        t'.file? (keyOf p) = some new) ∧
        ∀ key, key ∉ files.map keyOf → t'.file? key = t.file? key := by
  induction files generalizing t s with
  | nil => exact ⟨t, s, rfl, .refl t, by simp, fun _ _ => rfl⟩
  | cons p rest ih =>
    obtain ⟨bytes, new, hp, hnew⟩ := h p (by simp)
    obtain ⟨text, written, hdecode, hwritten, hheld⟩ := revised_eq_ok_iff.1 hnew
    obtain ⟨s₁, htreat⟩ : ∃ s₁, treat p text s = .ok (written, s₁) := by
      have hfst := hwrite p text s
      rw [hwritten] at hfst
      cases hresult : treat p text s with
      | error e =>
        rw [hresult] at hfst
        cases hfst
      | ok outcome =>
        rw [hresult] at hfst
        cases hfst
        exact ⟨outcome.2, rfl⟩
    rw [List.map_cons, List.nodup_cons] at hkeys
    have hshape := sameShape_overwrite hp written
    -- the other files are elsewhere, so they are found as they were
    have hother (q : Path) (hq : q ∈ rest) :
        (t.overwrite p written).file? (keyOf q) = t.file? (keyOf q) :=
      file?_overwrite_of_ne hp (fun hsame => hkeys.1 (hsame ▸ List.mem_map_of_mem hq)) written
    obtain ⟨t', s', hrun, hshape', hrevised, hframe⟩ :=
      ih (t := t.overwrite p written) (s := s₁) hkeys.2 fun q hq => by
        obtain ⟨bytes', new', hq', hnew'⟩ := h q (by simp [hq])
        exact ⟨bytes', new', hq'.of_sameShape hshape (hother q hq), hnew'⟩
    refine ⟨t', s', ?_, hshape.trans hshape', fun q hq bytes' new' hq' hnew' => ?_,
      fun key hkey => ?_⟩
    · rw [visit_cons_ok (hp.readText_of_decode hdecode) htreat, hrun]
    · rcases List.mem_cons.1 hq with rfl | hq
      · obtain rfl : bytes' = bytes := Option.some.inj (hq'.file.symm.trans hp.file)
        obtain rfl := Except.ok.inj (hnew'.symm.trans hnew)
        rw [hframe _ hkeys.1, file?_overwrite_self hp, hheld]
      · exact hrevised q hq bytes' new' (hq'.of_sameShape hshape (hother q hq)) hnew'
    · rw [List.map_cons, List.mem_cons, not_or] at hkey
      rw [hframe key hkey.2, file?_overwrite_of_ne hp hkey.1]

/-- **A run stops at the first file that it cannot treat**, with the tree that it had then. -/
theorem visit_of_revised_error {done : List Path} {bytes : ByteArray} {e : Failure}
    (hkeys : ((done ++ p :: rest).map keyOf).Nodup)
    (hdone : ∀ q ∈ done, ∃ bytes new, t.FileAt q bytes ∧ revised write q bytes = .ok new)
    (hp : t.FileAt p bytes) (herror : revised write p bytes = .error e) :
    visit treat (done ++ p :: rest) t s = ((visit treat done t s).1, .error e) := by
  rw [List.map_append, List.map_cons] at hkeys
  obtain ⟨t', s', hrun, hshape, -, hframe⟩ := visit_of_revised hwrite (s := s)
    hkeys.of_append_left hdone
  have hkey : keyOf p ∉ done.map keyOf := fun hmem =>
    List.disjoint_of_nodup_append hkeys hmem (by simp)
  have hp' : t'.FileAt p bytes := hp.of_sameShape hshape (hframe _ hkey)
  rw [visit_append hrun, hrun, visit]
  rcases revised_eq_error_iff.1 herror with ⟨hdecode, rfl⟩ | ⟨text, hdecode, hfailed⟩
  · rw [hp'.readText_of_not_decode hdecode]
  · rw [hp'.readText_of_decode hdecode]
    have hfst := hwrite p text s'
    rw [hfailed] at hfst
    cases htreat : treat p text s' with
    | error e' =>
      rw [htreat] at hfst
      cases hfst
      simp only [htreat]
    | ok outcome =>
      rw [htreat] at hfst
      cases hfst

/-- What a run that succeeds has done. -/
theorem revised_of_visit_ok {files : List Path} {t' : FileTree} (hkeys : (files.map keyOf).Nodup)
    (hfiles : ∀ p ∈ files, ∃ bytes, t.FileAt p bytes)
    (h : visit treat files t s = (t', .ok s')) :
    (∀ p ∈ files, ∃ bytes new, t.FileAt p bytes ∧ revised write p bytes = .ok new ∧
      t'.file? (keyOf p) = some new) ∧
      ∀ key, key ∉ files.map keyOf → t'.file? key = t.file? key := by
  rcases revised_or_first_error write hfiles with hall | ⟨done, p, rest, bytes, e, rfl, hdone, hp, he⟩
  · obtain ⟨t₁, s₁, hvisit, -, hrevised, hframe⟩ := visit_of_revised hwrite (s := s) hkeys hall
    obtain ⟨rfl, -⟩ := Prod.mk.inj (h.symm.trans hvisit)
    refine ⟨fun p hp => ?_, hframe⟩
    obtain ⟨bytes, new, hat, hnew⟩ := hall p hp
    exact ⟨bytes, new, hat, hnew, hrevised p hp bytes new hat hnew⟩
  · rw [visit_of_revised_error hwrite hkeys hdone hp he] at h
    cases h

end Trees

/-! ## What a run returns -/

/-- What a run returns, by what it reads. -/
def outcome (treat : Treatment σ) (read : Path → Except AccessError Text) :
    List Path → σ → Except Failure σ
  | [], s => .ok s
  | p :: rest, s =>
    match read p with
    | .error cause => .error (.read p cause)
    | .ok text =>
      match treat p text s with
      | .error e => .error e
      | .ok (_, s) => outcome treat read rest s

theorem outcome_congr {read read' : Path → Except AccessError Text} {files : List Path}
    (h : ∀ p ∈ files, read' p = read p) (s : σ) :
    outcome treat read' files s = outcome treat read files s := by
  induction files generalizing s with
  | nil => rfl
  | cons p rest ih =>
    have hrest := fun s => ih (fun q hq => h q (by simp [hq])) s
    simp only [outcome, h p (by simp), hrest]

/-- **What a run returns goes by the texts that were there at its start.** -/
theorem visit_snd {files : List Path} (hkeys : (files.map keyOf).Nodup) (t : FileTree) (s : σ) :
    (visit treat files t s).2 = outcome treat t.readText files s := by
  induction files generalizing t s with
  | nil => rfl
  | cons p rest ih =>
    rw [List.map_cons, List.nodup_cons] at hkeys
    rw [visit, outcome]
    cases hread : t.readText p with
    | error cause => rfl
    | ok text =>
      dsimp only
      cases htreat : treat p text s with
      | error e => rfl
      | ok result =>
        obtain ⟨written, s'⟩ := result
        dsimp only
        rw [ih hkeys.2]
        refine outcome_congr (fun q hq => ?_) s'
        cases written with
        | none => rfl
        | some new =>
          have hne : keyOf q ≠ keyOf p := fun hsame => hkeys.1 (hsame ▸ List.mem_map_of_mem hq)
          exact readText_writeText_of_ne hread hne new

end ContractLint.FileTree
