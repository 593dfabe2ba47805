import ContractLint.Proofs.Coverage.CallParts

/-!
# Reading arguments line by line, or as one text

The arguments of a call are read one line at a time, and on each line the places of `FILE,` and `);`
are compared. What is meant is simpler: join the lines to one text, and cut it at the first of the
two. This module shows that both give the same condition and the same progress.

## The architecture

* **`Text.firstPlace`** — where a needle stands first. A line break before the rest of a text either
  comes behind the place or moves it (`firstPlace_append_of_occursIn`, `firstPlace_append_of_not`).
* **`readArguments_condition`** — one line, said by the places of the two needles on it.
* **`Searched`** — the steps of a reading fit a text. It holds of one line, of a line with the
  location argument and whatever is read behind it, and of a line with neither needle in front of
  steps that fit the rest.
* **`searched_through`** — hence it holds of the lines up to the first that ends the call.
-/

namespace ContractLint

namespace Text

/-- How many characters stand before the first occurrence of a needle; all of them, if there is
none. -/
def firstPlace (needle t : Text) : Nat := ((cut needle t).map (·.1.length)).getD t.length

variable {needle t : Text}

theorem firstPlace_of_cut {before after : Text} (h : cut needle t = some (before, after)) :
    firstPlace needle t = before.length := by
  rw [firstPlace, h]
  rfl

theorem cut_eq_none_of_not (h : occursIn needle t = false) : cut needle t = none :=
  Option.not_isSome_iff_eq_none.1 (Bool.eq_false_iff.1 h)

theorem firstPlace_of_not (h : occursIn needle t = false) : firstPlace needle t = t.length := by
  rw [firstPlace, cut_eq_none_of_not h]
  rfl

theorem firstPlace_le_length (needle t : Text) : firstPlace needle t ≤ t.length := by
  cases hcut : cut needle t with
  | none => simp [firstPlace, hcut]
  | some parts =>
    have hlen := cut_length hcut
    simp only [firstPlace, hcut, Option.map_some, Option.getD_some]
    omega

theorem firstPlace_lt_length_iff (hne : needle ≠ []) :
    firstPlace needle t < t.length ↔ occursIn needle t = true := by
  cases hocc : occursIn needle t with
  | false => simp [firstPlace_of_not hocc]
  | true =>
    have hin : needle <:+: t := occursIn_iff_infix.1 hocc
    obtain ⟨before, after, hcut⟩ := exists_cut_of_infix hin
    have hlen := cut_length hcut
    have hpos := List.length_pos_iff.2 hne
    rw [firstPlace_of_cut hcut]
    simp only [iff_true]
    omega

/-- No occurrence is further left than the first one. -/
theorem firstPlace_le {before : Text} (h : before ++ needle <+: t) :
    firstPlace needle t ≤ before.length := by
  obtain ⟨found, after, hcut⟩ := exists_cut_of_infix
    ((List.suffix_append before needle).isInfix.trans h.isInfix)
  rw [firstPlace_of_cut hcut]
  exact (firstAt_of_cut hcut).first before h

section Break

variable {sep : Char} (hsep : sep ∉ needle) (hne : needle ≠ [])
include hsep hne

theorem firstPlace_append_of_occursIn (h : occursIn needle t = true) (u : Text) :
    firstPlace needle (t ++ sep :: u) = firstPlace needle t := by
  have hin : needle <:+: t := occursIn_iff_infix.1 h
  obtain ⟨before, after, hcut⟩ := exists_cut_of_infix hin
  rw [firstPlace_of_cut hcut, firstPlace, cut_append_cons hsep hne, hcut]
  rfl

theorem firstPlace_append_of_not (h : occursIn needle t = false) (u : Text) :
    firstPlace needle (t ++ sep :: u) = t.length + 1 + firstPlace needle u := by
  rw [firstPlace, firstPlace, cut_append_cons hsep hne, cut_eq_none_of_not h]
  cases hcut : cut needle u with
  | none =>
    simp only [Option.map_none, Option.none_or, Option.getD_none, List.length_append,
      List.length_cons]
    omega
  | some parts =>
    simp only [Option.map_none, Option.map_some, Option.none_or, Option.getD_some,
      List.length_append, List.length_cons]
    omega

end Break

/-! ## Trailing breaks -/

theorem dropEndWhile_append_dropEndWhile (s t : Text) (p : Char → Bool) :
    dropEndWhile (s ++ dropEndWhile t p) p = dropEndWhile (s ++ t) p := by
  induction t using List.reverseRecOn with
  | nil => rfl
  | append_singleton t c ih =>
    by_cases hc : p c = true
    · have hdrop (u : Text) : dropEndWhile (u ++ [c]) p = dropEndWhile u p := by
        simp [dropEndWhile, hc]
      rw [hdrop, ih, ← List.append_assoc, hdrop]
    · have hkeep (u : Text) : dropEndWhile (u ++ [c]) p = u ++ [c] := by
        simp [dropEndWhile, hc]
      rw [hkeep]

theorem dropEndWhile_append_congr {t u : Text} {p : Char → Bool}
    (h : dropEndWhile t p = dropEndWhile u p) (s : Text) :
    dropEndWhile (s ++ t) p = dropEndWhile (s ++ u) p := by
  rw [← dropEndWhile_append_dropEndWhile s t, h, dropEndWhile_append_dropEndWhile]

end Text

namespace Coverage

open Text (firstPlace)

/-! ## One line -/

/-- How much of a text belongs to the condition: all that stands before the first `FILE,` and before
the first `);`. -/
def conditionLength (t : Text) : Nat := min (firstPlace locationArgument t) (firstPlace callClose t)

theorem firstPlace_lt_of_splitLocation {args condition after : Text}
    (h : splitLocation? args = some (condition, after)) :
    firstPlace locationArgument args = condition.length ∧
      condition.length < firstPlace callClose args := by
  obtain ⟨hcut, hleft⟩ := cut_of_splitLocation h
  refine ⟨Text.firstPlace_of_cut hcut, ?_⟩
  cases hclose : Text.cut callClose args with
  | some parts =>
    rw [Text.firstPlace_of_cut hclose]
    exact hleft parts.1 parts.2 hclose
  | none =>
    have hlen := Text.cut_length hcut
    have hpos : 0 < locationArgument.length := by decide
    rw [Text.firstPlace_of_not (by rw [Text.occursIn, hclose]; rfl)]
    omega

theorem not_firstPlace_lt_of_splitLocation {args : Text} (h : splitLocation? args = none) :
    ¬firstPlace locationArgument args < firstPlace callClose args := by
  unfold splitLocation? at h
  cases hloc : Text.cut locationArgument args with
  | none =>
    have hle := Text.firstPlace_le_length callClose args
    rw [Text.firstPlace_of_not (by rw [Text.occursIn, hloc]; rfl)]
    omega
  | some located =>
    cases hclose : Text.cut callClose args with
    | none =>
      rw [hloc, hclose] at h
      cases h
    | some closed =>
      rw [hloc, hclose] at h
      rw [Text.firstPlace_of_cut hloc, Text.firstPlace_of_cut hclose]
      intro hlt
      simp [hlt] at h

/-- **One line of arguments**, by the places of the two needles on it. -/
theorem readArguments_condition (start : Nat) (args : Text) :
    readArguments (.condition start) args =
      (if firstPlace locationArgument args < firstPlace callClose args then .message start
        else .condition start,
        ⟨args.take (conditionLength args), callClose.occursIn args⟩) := by
  have hclosed := readArguments_closed (p := .condition start) rfl args
  rw [readArguments] at hclosed ⊢
  cases hsplit : splitLocation? args with
  | some parts =>
    obtain ⟨condition, after⟩ := parts
    obtain ⟨hplace, hlt⟩ := firstPlace_lt_of_splitLocation hsplit
    have hargs := Text.cut_eq_some_append (cut_of_splitLocation hsplit).1
    have htake : args.take (conditionLength args) = condition := by
      rw [conditionLength, hplace, Nat.min_eq_left (by omega), hargs, List.append_assoc]
      exact List.take_left
    rw [hsplit] at hclosed
    simp only at hclosed
    simp only [hplace, hlt, if_true, htake, hclosed]
  | none =>
    have hnot := not_firstPlace_lt_of_splitLocation hsplit
    have hlength : conditionLength args = firstPlace callClose args :=
      Nat.min_eq_right (by omega)
    rw [if_neg hnot, hlength]
    cases hclose : Text.cut callClose args with
    | none =>
      have hopen : callClose.occursIn args = false := by rw [Text.occursIn, hclose]; rfl
      simp only [Text.firstPlace_of_not hopen, List.take_length, hopen]
    | some parts =>
      have hends : callClose.occursIn args = true := by rw [Text.occursIn, hclose]; rfl
      have htake : args.take parts.1.length = parts.1 := by
        rw [Text.cut_eq_some_append hclose, List.append_assoc]
        exact List.take_left
      simp only [Text.firstPlace_of_cut hclose, htake, hends]

/-- `FILE,` comes first exactly if it stands somewhere with no `);` before it. -/
theorem firstPlace_lt_iff (t : Text) :
    firstPlace locationArgument t < firstPlace callClose t ↔
      ∃ before after, t = before ++ locationArgument ++ after ∧ ¬callClose <:+: before := by
  constructor
  · intro hlt
    have hocc : locationArgument.occursIn t = true := by
      rw [← Text.firstPlace_lt_length_iff (by decide)]
      exact Nat.lt_of_lt_of_le hlt (Text.firstPlace_le_length callClose t)
    obtain ⟨before, after, hcut⟩ := Text.exists_cut_of_infix (Text.occursIn_iff_infix.1 hocc)
    have ht := Text.cut_eq_some_append hcut
    refine ⟨before, after, ht, ?_⟩
    rintro ⟨left, right, rfl⟩
    -- `);` would stand further left
    have hle : firstPlace callClose t ≤ left.length :=
      Text.firstPlace_le ⟨right ++ locationArgument ++ after, by simp [ht]⟩
    rw [Text.firstPlace_of_cut hcut] at hlt
    simp only [List.length_append] at hlt
    omega
  · rintro ⟨before, after, ht, hfree⟩
    have hle : firstPlace locationArgument t ≤ before.length :=
      Text.firstPlace_le ⟨after, ht.symm⟩
    suffices hlt : before.length < firstPlace callClose t by omega
    cases hclose : Text.cut callClose t with
    | none =>
      rw [Text.firstPlace_of_not (by rw [Text.occursIn, hclose]; rfl), ht]
      simp [locationArgument]
    | some parts =>
      obtain ⟨left, right⟩ := parts
      rw [Text.firstPlace_of_cut hclose]
      have ht' := Text.cut_eq_some_append hclose
      by_contra hnot
      -- the characters of `FILE,` and `);` differ, so neither reaches into the other
      have hlocation : t[before.length]? = some 'F' := by
        rw [ht]
        simp [locationArgument]
      have hbracket : t[left.length]? = some ')' := by
        rw [ht']
        simp [callClose]
      have hsemicolon : t[left.length + 1]? = some ';' := by
        rw [ht']
        simp [callClose]
      have hne : left.length ≠ before.length := by
        intro h
        rw [h, hlocation] at hbracket
        cases hbracket
      have hne' : left.length + 1 ≠ before.length := by
        intro h
        rw [h, hlocation] at hsemicolon
        cases hsemicolon
      have hinside : left ++ callClose <+: before := by
        have hlen : callClose.length = 2 := by decide
        refine List.prefix_of_prefix_length_le ⟨right, ht'.symm⟩
          ⟨locationArgument ++ after, by simp [ht]⟩ ?_
        rw [List.length_append, hlen]
        omega
      exact hfree ((List.suffix_append left callClose).isInfix.trans hinside.isInfix)

/-! ## Several lines -/

/-- The text without line breaks at its end. -/
def withoutEndBreaks (t : Text) : Text := t.dropEndWhile (· == '\n')

/-- Steps of reading arguments that fit a text: their conditions, joined, are its condition, and
they end behind the location argument if that is where the condition ends. -/
structure Searched (start : Nat) (steps : List (Progress × Arguments)) (text : Text) : Prop where
  condition : withoutEndBreaks (['\n'].intercalate (steps.map (·.2.condition))) =
    withoutEndBreaks (text.take (conditionLength text))
  located : steps.getLast?.map (·.1) = some (.message start) ↔
    firstPlace locationArgument text < firstPlace callClose text

theorem readAll_message (start : Nat) (lines : List Text) :
    readAll (.message start) lines =
      lines.map fun line => (.message start, ⟨[], callClose.occursIn line⟩) := by
  induction lines with
  | nil => rfl
  | cons line lines ih =>
    rw [readAll, List.map_cons, ← ih]
    rfl

theorem withoutEndBreaks_intercalate (t : Text) (lines : List Text) :
    withoutEndBreaks (['\n'].intercalate (t :: lines.map fun _ => [])) = withoutEndBreaks t := by
  induction lines using List.reverseRecOn with
  | nil => rw [List.map_nil, List.intercalate_singleton]
  | append_singleton lines line ih =>
    rw [List.map_append, ← List.cons_append, List.map_singleton,
      Text.intercalate_concat (List.cons_ne_nil _ _), ← ih]
    simp [withoutEndBreaks, Text.dropEndWhile]

namespace Searched

variable (start : Nat)

theorem line (args : Text) : Searched start [readArguments (.condition start) args] args := by
  constructor
  · rw [readArguments_condition, List.map_singleton, List.intercalate_singleton]
  · rw [readArguments_condition]
    by_cases hlt : firstPlace locationArgument args < firstPlace callClose args
    · simp [hlt]
    · simp [hlt]

/-- Behind the location argument nothing is added to the condition, and the message goes on. -/
theorem behind_location {args : Text} (hloc : locationArgument.occursIn args = true)
    (hclose : callClose.occursIn args = false) (more : List Text) :
    Searched start (readAll (.condition start) (args :: more)) (['\n'].intercalate (args :: more)) := by
  have hplace : firstPlace locationArgument args < args.length :=
    (Text.firstPlace_lt_length_iff (by decide)).2 hloc
  have hend := Text.firstPlace_of_not hclose
  have hsteps : readAll (.condition start) (args :: more) =
      (.message start, ⟨args.take (firstPlace locationArgument args), false⟩) ::
        readAll (.message start) more := by
    have hlength : conditionLength args = firstPlace locationArgument args :=
      Nat.min_eq_left (by omega)
    simp only [readAll, readArguments_condition, hend, hplace, if_true, hlength, hclose]
  -- joining further lines leaves the location where it is, and `);` behind the first line
  have hjoin : firstPlace locationArgument (['\n'].intercalate (args :: more)) =
      firstPlace locationArgument args ∧
        args.length ≤ firstPlace callClose (['\n'].intercalate (args :: more)) ∧
          args <+: ['\n'].intercalate (args :: more) := by
    cases more with
    | nil =>
      rw [List.intercalate_singleton]
      exact ⟨rfl, Nat.le_of_eq hend.symm, List.prefix_rfl⟩
    | cons next more =>
      rw [List.intercalate_cons_cons, List.append_assoc, List.singleton_append]
      refine ⟨Text.firstPlace_append_of_occursIn (by decide) (by decide) hloc _, ?_,
        List.prefix_append _ _⟩
      rw [Text.firstPlace_append_of_not (by decide) (by decide) hclose]
      omega
  obtain ⟨hfirst, hlast, rest, hrest⟩ := hjoin
  constructor
  · rw [hsteps, readAll_message, List.map_cons, List.map_map]
    show withoutEndBreaks (['\n'].intercalate (_ :: more.map fun _ => [])) = _
    rw [withoutEndBreaks_intercalate, conditionLength, hfirst, Nat.min_eq_left (by omega), ← hrest,
      List.take_append_of_le_length (by omega)]
  · rw [hsteps, readAll_message]
    refine iff_of_true ?_ (by omega)
    rcases List.eq_nil_or_concat more with rfl | ⟨init, last, rfl⟩
    · rfl
    · simp [List.getLast?_cons]

/-- A line without either needle is part of the condition, and all else is decided behind it. -/
theorem cons {args text : Text} {steps : List (Progress × Arguments)} (hne : steps ≠ [])
    (hloc : locationArgument.occursIn args = false) (hclose : callClose.occursIn args = false)
    (h : Searched start steps text) :
    Searched start ((.condition start, ⟨args, false⟩) :: steps) (args ++ '\n' :: text) := by
  have hfirst : firstPlace locationArgument (args ++ '\n' :: text) =
      args.length + 1 + firstPlace locationArgument text :=
    Text.firstPlace_append_of_not (by decide) (by decide) hloc text
  have hlast : firstPlace callClose (args ++ '\n' :: text) =
      args.length + 1 + firstPlace callClose text :=
    Text.firstPlace_append_of_not (by decide) (by decide) hclose text
  constructor
  · have hlength : conditionLength (args ++ '\n' :: text) =
        (args ++ ['\n']).length + conditionLength text := by
      simp only [conditionLength, hfirst, hlast, List.length_append, List.length_singleton]
      omega
    have happend : args ++ '\n' :: text = (args ++ ['\n']) ++ text := by simp
    rw [List.map_cons, List.intercalate_cons_of_ne_nil (by simpa using hne), hlength, happend,
      List.take_length_add_append]
    exact Text.dropEndWhile_append_congr h.condition _
  · obtain ⟨step, steps, rfl⟩ := List.exists_cons_of_ne_nil hne
    rw [List.getLast?_cons_cons, h.located, hfirst, hlast]
    omega

end Searched

/-- The lines of arguments up to the first that ends the call; all of them, if none does. -/
def throughClose (args : List Text) : List Text := args.take (args.findIdx callClose.occursIn + 1)

theorem throughClose_cons (args : Text) (rest : List Text) :
    throughClose (args :: rest) =
      args :: if callClose.occursIn args then [] else throughClose rest := by
  rw [throughClose, List.findIdx_cons, List.take_succ_cons]
  cases callClose.occursIn args <;> rfl

theorem readAll_take (p : Progress) (args : List Text) (n : Nat) :
    (readAll p args).take n = readAll p (args.take n) := by
  induction args generalizing p n with
  | nil => simp [readAll]
  | cons line rest ih =>
    cases n with
    | zero => rfl
    | succ n => simp only [readAll, List.take_succ_cons, ih]

theorem readAll_ne_nil {p : Progress} {args : List Text} (h : args ≠ []) : readAll p args ≠ [] := by
  obtain ⟨line, rest, rfl⟩ := List.exists_cons_of_ne_nil h
  exact List.cons_ne_nil _ _

/-- **Reading up to the end of a call is searching its lines as one text.** -/
theorem searched_through (start : Nat) (args : List Text) :
    Searched start (readAll (.condition start) (throughClose args))
      (['\n'].intercalate (throughClose args)) := by
  induction args with
  | nil => exact ⟨rfl, iff_of_false nofun (by decide)⟩
  | cons line rest ih =>
    rw [throughClose_cons]
    cases hclose : callClose.occursIn line with
    | true =>
      rw [if_pos rfl, List.intercalate_singleton]
      exact .line start line
    | false =>
      rw [if_neg (by decide)]
      cases hloc : locationArgument.occursIn line with
      | true => exact .behind_location start hloc hclose _
      | false =>
        by_cases hrest : throughClose rest = []
        · rw [hrest, List.intercalate_singleton]
          exact .line start line
        · have hstep : readArguments (.condition start) line = (.condition start, ⟨line, false⟩) := by
            simp [readArguments_condition, conditionLength, Text.firstPlace_of_not hloc,
              Text.firstPlace_of_not hclose, hclose]
          rw [readAll, hstep, List.intercalate_cons_of_ne_nil hrest, List.append_assoc]
          exact ih.cons start (readAll_ne_nil hrest) hloc hclose

/-! ## All lines -/

theorem closed_readAll {p : Progress} (hp : p.inCall = true) (args : List Text) :
    (readAll p args).map (·.2.closed) = args.map callClose.occursIn := by
  induction args generalizing p with
  | nil => rfl
  | cons line rest ih =>
    rw [readAll, List.map_cons, List.map_cons, readArguments_closed hp,
      ih (readArguments_inCall hp line)]

theorem progress_of_mem_readAll {start : Nat} {p : Progress}
    (hp : p = .condition start ∨ p = .message start) {args : List Text}
    {step : Progress × Arguments} (h : step ∈ readAll p args) :
    step.1 = .condition start ∨ step.1 = .message start := by
  induction args generalizing p with
  | nil => cases h
  | cons line rest ih =>
    have hnext : (readArguments p line).1 = .condition start ∨
        (readArguments p line).1 = .message start := by
      rcases hp with rfl | rfl
      · rw [readArguments_condition]
        dsimp only
        split
        · exact .inr rfl
        · exact .inl rfl
      · exact .inr rfl
    rcases List.mem_cons.1 h with rfl | h
    · exact hnext
    · exact ih hnext h

/-- **Arguments that are read line by line are searched as one text.** Let a call be open in its
condition, let lines be read one after the other, and let the text be made of those up to the first
that holds `);`, or of all of them if none does.

* The first step that ends the call is the one for the first line that holds `);`.
* The conditions of the steps up to there, joined by line breaks, are the text up to the earlier one
  of its first `FILE,` and its first `);`. Line breaks at the end do not count.
* The last of these steps is in the message exactly if `FILE,` stands in the text with no `);` before
  it.
* No step changes where the call started. -/
theorem arguments_searched_as_text (start : Nat) (args : List Text) :
    let steps := readAll (.condition start) args
    let count := args.findIdx callClose.occursIn + 1
    let text := ['\n'].intercalate (args.take count)
    steps.findIdx? (·.2.closed) = args.findIdx? callClose.occursIn ∧
      withoutEndBreaks (['\n'].intercalate ((steps.take count).map (·.2.condition))) =
        withoutEndBreaks
          (text.take (min (firstPlace locationArgument text) (firstPlace callClose text))) ∧
      ((steps.take count).getLast?.map (·.1) = some (.message start) ↔
        ∃ before after, text = before ++ locationArgument ++ after ∧ ¬callClose <:+: before) ∧
      ∀ step ∈ steps, step.1 = .condition start ∨ step.1 = .message start := by
  intro steps count text
  have hsearched := searched_through start args
  have hsteps : steps.take count = readAll (.condition start) (throughClose args) :=
    readAll_take _ _ _
  refine ⟨?_, ?_, ?_, fun step hstep => progress_of_mem_readAll (.inl rfl) hstep⟩
  · have hclosed := congrArg (List.findIdx? id) (closed_readAll (p := .condition start) rfl args)
    rw [List.findIdx?_map, List.findIdx?_map] at hclosed
    exact hclosed
  · rw [hsteps]
    exact hsearched.condition
  · rw [hsteps, ← firstPlace_lt_iff]
    exact hsearched.located

-- a `FILE,` behind the end of the call does not count, and one that a break cuts in two is none
example : (readAll (.condition 3) ["a,", "b); FILE,"]).map (·.1) = [.condition 3, .condition 3] ∧
    (readAll (.condition 3) ["a, FI", "LE, b);"]).map (·.2.condition) =
      ["a, FI".toList, "LE, b".toList] := by
  decide +kernel

end Coverage

end ContractLint
