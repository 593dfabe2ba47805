import ContractLint.Proofs.Coverage.CallParts

/-!
# Where precondition calls stand

The guard style writes a file with some lines put in. Which ones, and above which lines, is said
here by line numbers: `callSites` finds the calls of a file, and `insertAbove` puts lines above
others.

## The architecture

* **`CallSite`** — a call with the number of its line, the line above it and the lines that it
  takes. Unlike a `Call` it need not have an end: the last call of a refused file is a site, too.
* **`CallScan.callSitesFrom_eq`** — on a file cut into parts the sites are the calls among them.
* **`insertGuards_eq_insertAbove`** — the guard style puts one line above each call that is not
  already guarded, and does nothing else.
-/

namespace ContractLint.Coverage

/-- A precondition call by its place in a file. -/
structure CallSite where
  /-- The number of the line that holds the call. -/
  line : Nat
  /-- The line above that one. -/
  previous : Option Text
  opening : Text
  /-- What follows the call on its line. -/
  args : Text
  /-- The further lines, up to the first one that ends the call. -/
  more : List Text
  deriving DecidableEq, Repr

namespace CallSite

/-- Whether the file holds the end of the call. -/
def ended (c : CallSite) : Bool := endsAt c.args c.more

/-- Whether the line above the call is a guard. -/
def guarded (c : CallSite) : Bool := c.previous.any isGuard

/-- The condition on one line. -/
def condition (c : CallSite) : Text := [' '].intercalate (argumentPieces c.args c.more)

/-- The guard for the call. -/
def guardText (c : CallSite) : Text := guardFor c.opening c.args c.more

end CallSite

/-- The calls from line number `i` on, where `previous` is the line above and `inBlock` tells
whether a block comment is open. -/
def callSitesFrom (i : Nat) (previous : Option Text) (inBlock : Bool) (lines : List Text) :
    List CallSite :=
  match lines with
  | [] => []
  | line :: rest =>
    match findCall inBlock line with
    | none => callSitesFrom (i + 1) (some line) (Comment.advance inBlock line) rest
    | some (_, args) =>
      let more := extent args rest
      ⟨i, previous, line, args, more⟩ ::
        callSitesFrom (i + (line :: more).length) (line :: more).getLast?
          (Comment.advanceAll inBlock (line :: more)) (rest.drop more.length)
termination_by lines.length
decreasing_by
  · simp
  · simp only [List.length_drop, List.length_cons]
    omega

/-- The calls of a file, in order. -/
def callSites (lines : List Text) : List CallSite := callSitesFrom 0 none false lines

theorem callSitesFrom_plain {inBlock : Bool} {line : Text} (i : Nat) (previous : Option Text)
    (rest : List Text) (h : findCall inBlock line = none) :
    callSitesFrom i previous inBlock (line :: rest) =
      callSitesFrom (i + 1) (some line) (Comment.advance inBlock line) rest := by
  rw [callSitesFrom, h]

theorem callSitesFrom_found {inBlock : Bool} {line before args : Text} (i : Nat)
    (previous : Option Text) (rest : List Text)
    (h : findCall inBlock line = some (before, args)) :
    callSitesFrom i previous inBlock (line :: rest) =
      ⟨i, previous, line, args, extent args rest⟩ ::
        callSitesFrom (i + (line :: extent args rest).length) (line :: extent args rest).getLast?
          (Comment.advanceAll inBlock (line :: extent args rest))
          (rest.drop (extent args rest).length) := by
  rw [callSitesFrom, h]

/-! ## Sites by parts -/

/-- The place of a call. -/
def Call.site (c : Call) (i : Nat) (previous : Option Text) : CallSite :=
  ⟨i, previous, c.opening, c.args, c.more⟩

/-- The places of the calls among parts that start at line number `i`. -/
def CallPart.sites (i : Nat) (previous : Option Text) : List CallPart → List CallSite
  | [] => []
  | plain line :: rest => sites (i + 1) (some line) rest
  | call c :: rest => c.site i previous :: sites (i + c.lines.length) (some c.lastLine) rest

theorem Call.getLast?_lines (c : Call) : c.lines.getLast? = some c.lastLine :=
  List.getLast?_eq_some_getLast _

theorem CallScan.callSitesFrom_eq {inBlock : Bool} {parts : List CallPart}
    (h : CallScan inBlock parts) (i : Nat) (previous : Option Text) :
    callSitesFrom i previous inBlock (parts.flatMap CallPart.lines) =
      CallPart.sites i previous parts := by
  induction h generalizing i previous with
  | nil => rw [List.flatMap_nil, callSitesFrom]; rfl
  | plain hnone _ ih =>
    rw [List.flatMap_cons, CallPart.lines, List.singleton_append, callSitesFrom_plain _ _ _ hnone,
      ih]
    rfl
  | @call inBlock c before rest hfound _ ih =>
    rw [List.flatMap_cons, CallPart.lines, Call.lines, List.cons_append,
      callSitesFrom_found _ _ _ hfound, extent_append c.ends, List.drop_left, ← Call.lines,
      c.getLast?_lines, ih]
    rfl

theorem CallPart.line_lt_of_mem_sites {c : CallSite} {parts : List CallPart} {i : Nat}
    {previous : Option Text} (h : c ∈ sites i previous parts) :
    i ≤ c.line ∧ c.line < i + (parts.flatMap CallPart.lines).length := by
  induction parts generalizing i previous with
  | nil => simp [sites] at h
  | cons p rest ih =>
    rw [List.flatMap_cons, List.length_append]
    cases p with
    | plain line =>
      have hline := ih h
      simp only [CallPart.lines, List.length_singleton]
      omega
    | call d =>
      have hlen : 0 < d.lines.length := by simp [Call.lines]
      simp only [CallPart.lines]
      rcases List.mem_cons.1 h with rfl | h
      · show i ≤ i ∧ i < _
        omega
      · have hline := ih h
        omega

theorem CallPart.pairwise_sites (i : Nat) (previous : Option Text) (parts : List CallPart) :
    (sites i previous parts).Pairwise (·.line < ·.line) := by
  induction parts generalizing i previous with
  | nil => exact .nil
  | cons p rest ih =>
    cases p with
    | plain line => exact ih _ _
    | call c =>
      refine .cons (fun d hd => ?_) (ih _ _)
      have hline := (line_lt_of_mem_sites hd).1
      have hlen : 0 < c.lines.length := by simp [Call.lines]
      show i < d.line
      omega

/-- A site has the line that it says, and the line above that one. -/
theorem CallPart.line_of_mem_sites {c : CallSite} {parts : List CallPart} {before : List Text}
    (h : c ∈ sites before.length before.getLast? parts) (after : List Text) :
    (before ++ (parts.flatMap CallPart.lines ++ after))[c.line]? = some c.opening ∧
      c.previous = ((before ++ (parts.flatMap CallPart.lines ++ after)).take c.line).getLast? := by
  induction parts generalizing before with
  | nil => simp [sites] at h
  | cons p rest ih =>
    rw [List.flatMap_cons, List.append_assoc]
    cases p with
    | plain line =>
      have hrest := @ih (before ++ [line]) (by simpa [sites] using h)
      simpa [CallPart.lines] using hrest
    | call d =>
      rcases List.mem_cons.1 h with rfl | h
      · have hline : (d.site before.length before.getLast?).line = before.length := rfl
        rw [hline, List.take_left]
        simp [CallPart.lines, Call.lines, Call.site]
      · have hlast : (before ++ d.lines).getLast? = some d.lastLine := by
          rw [List.getLast?_append, d.getLast?_lines]
          rfl
        have hrest := @ih (before ++ d.lines) (by rwa [hlast, List.length_append])
        simpa [CallPart.lines] using hrest

/-! ## Calls by line number -/

/-- Whether a call is found on line number `i`: the first one on the line is not in a comment. -/
def CallAt (lines : List Text) (i : Nat) : Prop :=
  ∃ line, lines[i]? = some line ∧
    (findCall (Comment.advanceAll false (lines.take i)) line).isSome = true

theorem CallAt.lt_length {lines : List Text} {i : Nat} (h : CallAt lines i) : i < lines.length := by
  obtain ⟨line, hline, -⟩ := h
  exact (List.getElem?_eq_some_iff.1 hline).1

/-- What follows the first call on a line. -/
def behindCall (line : Text) : Text := ((Text.cut preconditionCall line).map (·.2)).getD []

/-- The arguments of the call on line number `first`, line by line, up to line number `last`. -/
def argumentLines (lines : List Text) (first last : Nat) : List Text :=
  ((lines.drop first).take (last + 1 - first)).modifyHead behindCall

section Line

variable {lines above rest : List Text} {line before args : Text}
  (hlines : lines = above ++ line :: rest)
include hlines

theorem not_callAt_of_findCall (hnone : findCall (Comment.advanceAll false above) line = none) :
    ¬CallAt lines above.length := by
  rintro ⟨_, hline, hfound⟩
  have hself : lines[above.length]? = some line := by simp [hlines]
  obtain rfl := Option.some.inj (hself.symm.trans hline)
  rw [hlines, List.take_left, hnone] at hfound
  cases hfound

variable (hfound : findCall (Comment.advanceAll false above) line = some (before, args))
include hfound

theorem callAt_of_findCall : CallAt lines above.length := by
  refine ⟨line, by simp [hlines], ?_⟩
  rw [hlines, List.take_left, hfound]
  rfl

theorem argumentLines_of_findCall (k : Nat) :
    argumentLines lines above.length (above.length + k) = args :: rest.take k := by
  have hcut := (Option.filter_eq_some_iff.1 hfound).1
  have hlen : above.length + k + 1 - above.length = k + 1 := by omega
  rw [argumentLines, hlines, List.drop_left, hlen, List.take_succ_cons, List.modifyHead_cons,
    behindCall, hcut]
  rfl

end Line

theorem argumentLines_concat {lines : List Text} {first i : Nat} {line : Text} (hfirst : first ≤ i)
    (hline : lines[i + 1]? = some line) :
    argumentLines lines first (i + 1) = argumentLines lines first i ++ [line] := by
  obtain ⟨k, rfl⟩ := Nat.exists_eq_add_of_le hfirst
  have hlast : (lines.drop first)[k + 1]? = some line := by
    rw [List.getElem?_drop, ← Nat.add_assoc]
    exact hline
  have hlen : first + k + 1 + 1 - first = k + 1 + 1 := by omega
  have hlen' : first + k + 1 - first = k + 1 := by omega
  rw [argumentLines, argumentLines, hlen, hlen', List.take_add_one, hlast]
  cases hdrop : lines.drop first with
  | nil => rw [hdrop] at hlast; cases hlast
  | cons opening rest => rfl

theorem argumentLines_ne_nil {lines : List Text} {first i : Nat} (hfirst : first ≤ i)
    (hi : first < lines.length) : argumentLines lines first i ≠ [] := by
  have hlen : i + 1 - first = i - first + 1 := by omega
  rw [argumentLines, hlen, List.drop_eq_getElem_cons hi]
  exact List.cons_ne_nil _ _

/-! ## Lines put above others -/

/-- The lines from number `i` on, each below what `above` has for its number. -/
def insertFrom (above : Nat → Option Text) (i : Nat) : List Text → List Text
  | [] => []
  | line :: rest => (above i).toList ++ line :: insertFrom above (i + 1) rest

/-- The lines of a file, each below what `above` has for its number. -/
def insertAbove (above : Nat → Option Text) (lines : List Text) : List Text :=
  insertFrom above 0 lines

section Insert

variable {above other : Nat → Option Text} {i : Nat} {lines : List Text}

theorem insertFrom_append (above : Nat → Option Text) (i : Nat) (lines rest : List Text) :
    insertFrom above i (lines ++ rest) =
      insertFrom above i lines ++ insertFrom above (i + lines.length) rest := by
  induction lines generalizing i with
  | nil => rfl
  | cons line lines ih =>
    simp only [List.cons_append, insertFrom, ih, List.length_cons, List.append_assoc]
    rw [Nat.add_right_comm, Nat.add_assoc]

theorem insertFrom_congr (h : ∀ j, i ≤ j → above j = other j) :
    insertFrom above i lines = insertFrom other i lines := by
  induction lines generalizing i with
  | nil => rfl
  | cons line lines ih =>
    rw [insertFrom, insertFrom, h i (le_refl i), ih fun j hj => h j (by omega)]

theorem insertFrom_of_none (h : ∀ j, i ≤ j → j < i + lines.length → above j = none) :
    insertFrom above i lines = lines := by
  induction lines generalizing i with
  | nil => rfl
  | cons line lines ih =>
    rw [List.length_cons] at h
    rw [insertFrom, h i (le_refl i) (by omega), ih fun j hj hlt => h j (by omega) (by omega)]
    rfl

/-- What is put above a line stands right behind what becomes of the lines before it. -/
theorem insertAbove_take_prefix {guard : Text} (hi : i < lines.length)
    (hguard : above i = some guard) :
    insertAbove above (lines.take i) ++ [guard] <+: insertAbove above lines := by
  have hsplit : lines = lines.take i ++ lines[i] :: lines.drop (i + 1) := by simp
  have hlen : (lines.take i).length = i := by
    rw [List.length_take]
    omega
  conv_rhs => rw [hsplit]
  unfold insertAbove
  rw [insertFrom_append, Nat.zero_add, hlen, insertFrom, hguard]
  exact ⟨lines[i] :: insertFrom above (i + 1) (lines.drop (i + 1)), by simp⟩

theorem insertAbove_take_succ (above : Nat → Option Text) {line : Text}
    (hline : lines[i]? = some line) :
    insertAbove above (lines.take (i + 1)) =
      insertAbove above (lines.take i) ++ ((above i).toList ++ [line]) := by
  obtain ⟨hi, -⟩ := List.getElem?_eq_some_iff.1 hline
  have hlen : (lines.take i).length = i := by
    rw [List.length_take]
    omega
  unfold insertAbove
  rw [List.take_add_one, hline, insertFrom_append, Nat.zero_add, hlen]
  rfl

end Insert

/-! ## The guards of a file -/

/-- The guard among sites that is to be put above line number `i`. -/
def guardIn? (sites : List CallSite) (i : Nat) : Option Text :=
  (sites.find? fun c => c.line == i && !c.guarded).map CallSite.guardText

/-- The guard that the guard style puts above line number `i`. -/
def guardAbove? (lines : List Text) (i : Nat) : Option Text := guardIn? (callSites lines) i

theorem guardIn?_eq_none {sites : List CallSite} {i : Nat} (h : ∀ c ∈ sites, c.line ≠ i) :
    guardIn? sites i = none := by
  rw [guardIn?, Option.map_eq_none_iff, List.find?_eq_none]
  intro c hc
  simp [h c hc]

theorem guardIn?_cons_of_ne {c : CallSite} {sites : List CallSite} {i : Nat} (h : c.line ≠ i) :
    guardIn? (c :: sites) i = guardIn? sites i := by
  simp [guardIn?, h]

theorem guardIn?_cons_self (c : CallSite) (sites : List CallSite) :
    guardIn? (c :: sites) c.line =
      if c.guarded then guardIn? sites c.line else some c.guardText := by
  cases hg : c.guarded <;> simp [guardIn?, hg]

theorem guardIn?_eq_some_iff {sites : List CallSite}
    (hsorted : sites.Pairwise (·.line < ·.line)) {i : Nat} {guard : Text} :
    guardIn? sites i = some guard ↔
      ∃ c ∈ sites, c.line = i ∧ c.guarded = false ∧ c.guardText = guard := by
  induction sites with
  | nil => simp [guardIn?]
  | cons c sites ih =>
    obtain ⟨hhead, htail⟩ := List.pairwise_cons.1 hsorted
    simp only [List.mem_cons, exists_eq_or_imp]
    by_cases hline : c.line = i
    · -- all other sites stand further down
      have hrest : ∀ d ∈ sites, d.line ≠ i := by
        intro d hd
        have hlt := hhead d hd
        omega
      have hnone : ¬∃ d ∈ sites, d.line = i ∧ d.guarded = false ∧ d.guardText = guard := by
        rintro ⟨d, hd, hdi, -⟩
        exact hrest d hd hdi
      subst hline
      rw [guardIn?_cons_self, guardIn?_eq_none hrest, or_iff_left hnone]
      cases c.guarded <;> simp
    · rw [guardIn?_cons_of_ne hline, ih htail]
      constructor
      · exact .inr
      · rintro (⟨hi, -⟩ | hrest)
        · exact absurd hi hline
        · exact hrest

/-- A call among the parts has its guard above it, if the sites behind it leave its line alone. -/
theorem Call.toList_guardIn? {c : Call} {i : Nat} {previous : Option Text} {sites : List CallSite}
    (hrest : guardIn? sites i = none) :
    (guardIn? (c.site i previous :: sites) i).toList = c.guards previous := by
  have hself := guardIn?_cons_self (c.site i previous) sites
  rw [show (c.site i previous).line = i from rfl, hrest] at hself
  rw [hself, Call.guards, CallSite.guarded, show (c.site i previous).previous = previous from rfl]
  cases previous.any isGuard <;> rfl

/-- The guards of parts, by line number. -/
theorem CallPart.insertFrom_sites (i : Nat) (previous : Option Text) (parts : List CallPart) :
    insertFrom (guardIn? (sites i previous parts)) i (parts.flatMap CallPart.lines) =
      (withGuards previous parts).flatMap CallPart.lines := by
  -- the sites behind a part have no guard for its lines
  have hbehind (j k : Nat) (above : Option Text) (rest : List CallPart) (hj : j < k) :
      guardIn? (sites k above rest) j = none := by
    apply guardIn?_eq_none
    intro c hc
    have hline := (line_lt_of_mem_sites hc).1
    omega
  induction parts generalizing i previous with
  | nil => rfl
  | cons p rest ih =>
    cases p with
    | plain line =>
      simp only [List.flatMap_cons, CallPart.lines, List.singleton_append, sites, withGuards,
        insertFrom, hbehind i (i + 1) _ _ (Nat.lt_succ_self i), ih]
      rfl
    | call c =>
      have hlen : c.lines.length = c.more.length + 1 := by simp [Call.lines]
      set after := sites (i + c.lines.length) (some c.lastLine) rest with hafter
      have hother (j : Nat) (hj : i < j) :
          guardIn? (c.site i previous :: after) j = guardIn? after j :=
        guardIn?_cons_of_ne (Nat.ne_of_lt hj)
      have hmore : insertFrom (guardIn? (c.site i previous :: after)) (i + 1) c.more = c.more := by
        apply insertFrom_of_none
        intro j hj hlt
        rw [hother j (by omega), hbehind j _ _ _ (by omega)]
      have hlines : insertFrom (guardIn? (c.site i previous :: after)) i c.lines =
          c.guards previous ++ c.lines := by
        rw [Call.lines, insertFrom, hmore, Call.toList_guardIn? (hbehind i _ _ _ (by omega))]
      have hrest : insertFrom (guardIn? (c.site i previous :: after)) (i + c.lines.length)
          (rest.flatMap CallPart.lines) =
            (withGuards (some c.lastLine) rest).flatMap CallPart.lines := by
        rw [← ih, ← hafter]
        apply insertFrom_congr
        intro j hj
        exact hother j (by omega)
      simp only [List.flatMap_cons, CallPart.lines, sites, withGuards, List.flatMap_append,
        ← hafter]
      rw [insertFrom_append, hlines, hrest]
      simp [List.flatMap_map, CallPart.lines]

/-- **What the guard style writes**: the file's lines, and above each call that is not guarded its
guard. -/
theorem insertGuards_eq_insertAbove {lines : List Text} {r : Revision}
    (h : insertGuards lines = .ok r) : r.lines = insertAbove (guardAbove? lines) lines := by
  obtain ⟨parts, hscan, rfl, hr⟩ := exists_callScan_of_insertGuards h
  unfold insertAbove guardAbove? callSites
  rw [hr, hscan.callSitesFrom_eq, CallPart.insertFrom_sites]

theorem line_lt_of_mem_callSites {lines : List Text} {r : Revision}
    (h : insertGuards lines = .ok r) {c : CallSite} (hc : c ∈ callSites lines) :
    c.line < lines.length := by
  obtain ⟨parts, hscan, rfl, -⟩ := exists_callScan_of_insertGuards h
  rw [callSites, hscan.callSitesFrom_eq] at hc
  have hline := (CallPart.line_lt_of_mem_sites hc).2
  omega

theorem guardAbove?_eq_some_iff {lines : List Text} {r : Revision}
    (h : insertGuards lines = .ok r) {i : Nat} {guard : Text} :
    guardAbove? lines i = some guard ↔
      ∃ c ∈ callSites lines, c.line = i ∧ c.guarded = false ∧ c.guardText = guard := by
  apply guardIn?_eq_some_iff
  obtain ⟨parts, hscan, rfl, -⟩ := exists_callScan_of_insertGuards h
  rw [callSites, hscan.callSitesFrom_eq]
  exact CallPart.pairwise_sites 0 none parts

end ContractLint.Coverage
