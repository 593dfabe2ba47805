import ContractLint.Path
import ContractLint.Proofs.Sorting
import Mathlib.Data.List.Basic

/-!
# Paths below a directory

What lies below a directory is reached by names, and its path is the path of the directory with the
names behind it. What such a path denotes, how it compares with others and how it is seen from the
directory go by the names alone, however the path of the directory is written.

## The architecture

* **`isName`** — what a file or a directory can be called.
* **`splitAt_join`** — the pieces of a path seen from a directory: those of the directory, without
  the empty one behind a final slash, and then its own.
* **`components_below`, `fileName_below`, `relativeTo_below`** — all else follows from the pieces.
* **`Component.listLe`** — a linear order, and the same for paths below one directory as for their
  names (`le_below`).
-/

namespace ContractLint

theorem Text.pieces_eq_splitOnP (isBreak : Char → Bool) (t : Text) :
    pieces isBreak t = t.splitOnP isBreak := by
  induction t with
  | nil => rfl
  | cons c t ih => rw [pieces, List.splitOnP_cons_eq_if_modifyHead, ih]

theorem Text.splitAt_eq_splitOn (c : Char) (t : Text) : splitAt c t = t.splitOn c := by
  rw [splitAt, pieces_eq_splitOnP, List.splitOn_eq_splitOnP]

theorem Text.splitAt_append_cons (c : Char) (s t : Text) :
    splitAt c (s ++ c :: t) = splitAt c s ++ splitAt c t := by
  simp only [splitAt_eq_splitOn, List.splitOn_append_cons_self]

theorem Text.splitAt_ne_nil (c : Char) (t : Text) : splitAt c t ≠ [] := by
  rw [splitAt_eq_splitOn]
  exact List.splitOn_ne_nil c t

/-! ## The order of components -/

namespace Component

theorem lt_iff {a b : Component} :
    a.lt b = true ↔ a.rank < b.rank ∨ ∃ s t, a = normal s ∧ b = normal t ∧ s < t := by
  cases a <;> cases b <;> simp [lt, rank]

theorem lt_or_lt_of_ne {a b : Component} (h : a ≠ b) : a.lt b = true ∨ b.lt a = true := by
  rcases Nat.lt_trichotomy a.rank b.rank with hrank | hrank | hrank
  · exact .inl (lt_iff.2 (.inl hrank))
  · -- only two names can differ and be of one kind
    obtain ⟨s, t, rfl, rfl⟩ : ∃ s t, a = normal s ∧ b = normal t := by
      cases a <;> cases b <;> simp_all [rank]
    have hst : s ≠ t := fun hst => h (congrArg normal hst)
    rcases Text.lt_or_lt_of_ne hst with hlt | hlt
    · exact .inl (lt_iff.2 (.inr ⟨s, t, rfl, rfl, hlt⟩))
    · exact .inr (lt_iff.2 (.inr ⟨t, s, rfl, rfl, hlt⟩))
  · exact .inr (lt_iff.2 (.inl hrank))

theorem lt_irrefl (a : Component) : a.lt a = false := by
  rw [← Bool.not_eq_true, lt_iff]
  rintro (hrank | ⟨s, t, hs, ht, hlt⟩)
  · exact Nat.lt_irrefl _ hrank
  · obtain rfl : s = t := normal.inj (hs.symm.trans ht)
    exact List.lt_irrefl s hlt

theorem lt_trans {a b c : Component} (hab : a.lt b = true) (hbc : b.lt c = true) :
    a.lt c = true := by
  rcases lt_iff.1 hab with hrank | ⟨s, t, rfl, rfl, hst⟩
  · rcases lt_iff.1 hbc with hrank' | ⟨t, u, rfl, rfl, -⟩
    · exact lt_iff.2 (.inl (Nat.lt_trans hrank hrank'))
    · exact lt_iff.2 (.inl hrank)
  · rcases lt_iff.1 hbc with hrank | ⟨t', u, ht, rfl, htu⟩
    · exact lt_iff.2 (.inl hrank)
    · obtain rfl : t = t' := normal.inj ht
      exact lt_iff.2 (.inr ⟨s, u, rfl, rfl, List.lt_trans hst htu⟩)

theorem lt_asymm {a b : Component} (h : a.lt b = true) : b.lt a = false := by
  cases hba : b.lt a with
  | false => rfl
  | true => exact (lt_trans h hba).symm.trans (lt_irrefl a)

theorem listLe_total (as bs : List Component) : listLe as bs = true ∨ listLe bs as = true := by
  induction as generalizing bs with
  | nil => exact .inl (by cases bs <;> rfl)
  | cons a as ih =>
    cases bs with
    | nil => exact .inr rfl
    | cons b bs =>
      by_cases h : a = b
      · subst h
        simpa [listLe] using ih bs
      · simpa [listLe, h, Ne.symm h] using lt_or_lt_of_ne h

theorem listLe_trans {as bs cs : List Component} (hab : listLe as bs = true)
    (hbc : listLe bs cs = true) : listLe as cs = true := by
  induction as generalizing bs cs with
  | nil => cases cs <;> rfl
  | cons a as ih =>
    cases bs with
    | nil => cases hab
    | cons b bs =>
      cases cs with
      | nil => cases hbc
      | cons c cs =>
        simp only [listLe] at hab hbc ⊢
        by_cases h : a = b
        · subst h
          by_cases h' : a = c
          · subst h'
            simp only [if_true] at hab hbc ⊢
            exact ih hab hbc
          · simpa [h'] using hbc
        · by_cases h' : b = c
          · subst h'
            simpa [h] using hab
          · -- the first difference comes from the middle list on both sides
            simp only [h, h', if_false] at hab hbc
            have hlt := lt_trans hab hbc
            have hne : a ≠ c := by
              rintro rfl
              rw [lt_irrefl] at hlt
              cases hlt
            simpa [hne] using hlt

theorem listLe_antisymm {as bs : List Component} (hab : listLe as bs = true)
    (hba : listLe bs as = true) : as = bs := by
  induction as generalizing bs with
  | nil =>
    cases bs with
    | nil => rfl
    | cons b bs => cases hba
  | cons a as ih =>
    cases bs with
    | nil => cases hab
    | cons b bs =>
      simp only [listLe] at hab hba
      by_cases h : a = b
      · subst h
        simp only [if_true] at hab hba
        rw [ih hab hba]
      · simp only [h, Ne.symm h, if_false] at hab hba
        rw [lt_asymm hab] at hba
        cases hba

theorem listLe_append_left (cs as bs : List Component) :
    listLe (cs ++ as) (cs ++ bs) = listLe as bs := by
  induction cs with
  | nil => rfl
  | cons c cs ih => simpa [listLe] using ih

end Component

namespace Path

theorem le_refl (p : Path) : p.le p = true :=
  (Component.listLe_total p.components p.components).elim id id

/-! ## Names -/

/-- Whether a text can be the name of a file or a directory. -/
def isName (name : Text) : Bool := !isFiller name && name != ['.', '.'] && !name.contains '/'

theorem isFiller_of_isName {name : Text} (h : isName name = true) : isFiller name = false := by
  simp only [isName, Bool.and_eq_true, Bool.not_eq_true'] at h
  exact h.1.1

theorem ne_dots_of_isName {name : Text} (h : isName name = true) : name ≠ ['.', '.'] := by
  simp only [isName, Bool.and_eq_true, bne_iff_ne] at h
  exact h.1.2

theorem slash_notMem_of_isName {name : Text} (h : isName name = true) : '/' ∉ name := by
  simp only [isName, Bool.and_eq_true, Bool.not_eq_true', List.contains_eq_mem,
    decide_eq_false_iff_not] at h
  exact h.2

theorem ne_nil_of_isName {name : Text} (h : isName name = true) : name ≠ [] := by
  rintro rfl
  exact absurd h (by decide)

theorem ne_dot_of_isName {name : Text} (h : isName name = true) : name ≠ ['.'] := by
  rintro rfl
  exact absurd h (by decide)

theorem ofPiece_of_isName {name : Text} (h : isName name = true) :
    Component.ofPiece name = .normal name :=
  if_neg (ne_dots_of_isName h)

variable {names : List Text} (hnames : ∀ name ∈ names, isName name = true)
include hnames

theorem splitAt_joinPieces (hne : names ≠ []) : Text.splitAt '/' (joinPieces names) = names := by
  rw [Text.splitAt_eq_splitOn, joinPieces]
  exact List.splitOn_intercalate '/' (fun name hname => slash_notMem_of_isName (hnames name hname))
    hne

theorem filter_isFiller_names : names.filter (!isFiller ·) = names :=
  List.filter_eq_self.2 fun name hname => by rw [isFiller_of_isName (hnames name hname)]; rfl

theorem map_ofPiece_names : names.map Component.ofPiece = names.map .normal :=
  List.map_congr_left fun name hname => ofPiece_of_isName (hnames name hname)

theorem dropWhile_isFiller_names : names.dropWhile isFiller = names := by
  cases names with
  | nil => rfl
  | cons name rest =>
    rw [List.dropWhile_cons_of_neg (by simp [isFiller_of_isName (hnames name (by simp))])]

theorem dropEndFillers_names : dropEndFillers names = names := by
  have hreverse : ∀ name ∈ names.reverse, isName name = true :=
    fun name hname => hnames name (List.mem_reverse.1 hname)
  rw [dropEndFillers, dropWhile_isFiller_names hreverse, List.reverse_reverse]

theorem isAbsolute_joinPieces : isAbsolute ⟨joinPieces names⟩ = false := by
  cases names with
  | nil => rfl
  | cons name rest =>
    have hname := hnames name (by simp)
    obtain ⟨c, cs, rfl⟩ := List.exists_cons_of_ne_nil (ne_nil_of_isName hname)
    have hslash : c ≠ '/' := by
      rintro rfl
      exact slash_notMem_of_isName hname (by simp)
    cases rest with
    | nil => simp [isAbsolute, joinPieces, List.intercalate, hslash]
    | cons next rest => simp [isAbsolute, joinPieces, List.intercalate, hslash]

omit hnames

/-! ## Pieces and components -/

/-- The component that the first piece of a path stands for, if the path is not empty. -/
def firstComponent (first : Text) : Component :=
  if first.isEmpty then .root else if first = ['.'] then .current else .ofPiece first

/-- Unfolding equation for the components of a path that is not empty. -/
theorem components_eq {p : Path} (hp : p.text ≠ []) {first : Text} {rest : List Text}
    (h : Text.splitAt '/' p.text = first :: rest) :
    p.components =
      firstComponent first :: (rest.filter (!isFiller ·)).map Component.ofPiece := by
  rw [components, h]
  simp only [firstComponent]
  split
  · next hempty =>
    -- a path whose first piece is empty starts with a slash
    have habsolute : p.isAbsolute = true := by
      obtain ⟨text⟩ := p
      cases text with
      | nil => exact absurd rfl hp
      | cons c text =>
        by_cases hc : c = '/'
        · subst hc
          rfl
        · rw [Text.splitAt_eq_splitOn, List.splitOn_cons_eq_if_modifyHead,
            if_neg (by simpa using hc)] at h
          obtain ⟨piece, pieces, hpieces⟩ :=
            List.exists_cons_of_ne_nil (List.splitOn_ne_nil '/' text)
          rw [hpieces, List.modifyHead_cons] at h
          cases h
          simp at hempty
    rw [if_pos habsolute]
  · split <;> rfl

theorem components_nil : components ⟨[]⟩ = [] := rfl

/-! ## Paths seen from a directory -/

section Join

variable {rel : Path} (hrel : rel.isAbsolute = false)
include hrel

/-- **The pieces of a joined path** are those of both parts. Only an empty piece at the end of the
first one does not count. -/
theorem splitAt_join (dir : Path) :
    ∃ init, Text.splitAt '/' (dir.join rel).text = init ++ Text.splitAt '/' rel.text ∧
      (Text.splitAt '/' dir.text = init ∧ init ≠ [] ∨ Text.splitAt '/' dir.text = init ++ [[]]) := by
  rw [join]
  by_cases hempty : dir.text = []
  · refine ⟨[], ?_, .inr ?_⟩
    · rw [if_pos (by simp [hempty]), List.nil_append]
    · rw [hempty]
      rfl
  · rw [if_neg (by simp [hrel, hempty])]
    split
    · next hlast =>
      obtain ⟨init, htext⟩ := List.getLast?_eq_some_iff.1 hlast
      refine ⟨Text.splitAt '/' init, ?_, .inr ?_⟩
      · rw [htext, List.append_assoc, List.singleton_append, Text.splitAt_append_cons]
      · rw [htext, Text.splitAt_append_cons]
        rfl
    · refine ⟨Text.splitAt '/' dir.text, ?_, .inl ⟨rfl, Text.splitAt_ne_nil _ _⟩⟩
      rw [Text.splitAt_append_cons]

/-- The pieces behind the first one, for a directory whose path is not empty. -/
theorem exists_pieces_join {dir : Path} (hdir : dir.text ≠ []) :
    ∃ first rest,
      Text.splitAt '/' (dir.join rel).text = first :: (rest ++ Text.splitAt '/' rel.text) ∧
        dir.components =
          firstComponent first :: (rest.filter (!isFiller ·)).map Component.ofPiece := by
  obtain ⟨first, rest, hpieces⟩ := List.exists_cons_of_ne_nil (Text.splitAt_ne_nil '/' dir.text)
  have hcomponents := components_eq hdir hpieces
  obtain ⟨init, hjoin, ⟨hinit, -⟩ | hinit⟩ := splitAt_join hrel dir
  · rw [hpieces] at hinit
    refine ⟨first, rest, ?_, hcomponents⟩
    rw [hjoin, ← hinit]
    rfl
  · cases init with
    | nil =>
      -- the only text whose one piece is empty is the empty one
      rw [Text.splitAt_eq_splitOn] at hinit
      have htext : ['/'].intercalate (dir.text.splitOn '/') = dir.text :=
        List.intercalate_splitOn '/'
      rw [hinit] at htext
      exact absurd htext.symm hdir
    | cons piece init =>
      rw [hpieces, List.cons_append] at hinit
      obtain ⟨rfl, rfl⟩ := List.cons.inj hinit
      refine ⟨first, init, hjoin, ?_⟩
      rw [hcomponents, List.filter_append]
      simp [isFiller]

theorem join_text_ne_nil {dir : Path} (h : dir.text ≠ []) : (dir.join rel).text ≠ [] := by
  rw [join, if_neg (by simp [hrel, h])]
  split
  · exact fun hnil => h (List.append_eq_nil_iff.1 hnil).1
  · simp

/-- **The components of a joined path.** -/
theorem components_join {dir : Path} (hdir : dir.text ≠ []) :
    (dir.join rel).components = dir.components ++
      ((Text.splitAt '/' rel.text).filter (!isFiller ·)).map Component.ofPiece := by
  obtain ⟨first, rest, hpieces, hcomponents⟩ := exists_pieces_join hrel hdir
  rw [components_eq (join_text_ne_nil hrel hdir) hpieces, hcomponents, List.filter_append,
    List.map_append]
  rfl

end Join

/-! ## Paths below a directory -/

/-- The path of what a list of names leads to from a directory. -/
def below (dir : Path) (names : List Text) : Path :=
  if names.isEmpty then dir else dir.join ⟨joinPieces names⟩

@[simp] theorem below_nil (dir : Path) : dir.below [] = dir := rfl

theorem below_of_ne_nil (hne : names ≠ []) (dir : Path) :
    dir.below names = dir.join ⟨joinPieces names⟩ := by
  rw [below, if_neg (by simpa using hne)]

theorem below_of_text_eq_nil {dir : Path} (h : dir.text = []) (names : List Text) :
    dir.below names = ⟨joinPieces names⟩ := by
  obtain ⟨text⟩ := dir
  obtain rfl : text = [] := h
  cases names with
  | nil => rfl
  | cons name rest => simp [below, join]

include hnames

/-- The pieces behind the first one, for a directory whose path is not empty. -/
theorem exists_pieces_below {dir : Path} (hdir : dir.text ≠ []) :
    ∃ first rest, Text.splitAt '/' (dir.below names).text = first :: (rest ++ names) ∧
      dir.components =
        firstComponent first :: (rest.filter (!isFiller ·)).map Component.ofPiece := by
  by_cases hne : names = []
  · subst hne
    obtain ⟨first, rest, hpieces⟩ := List.exists_cons_of_ne_nil (Text.splitAt_ne_nil '/' dir.text)
    exact ⟨first, rest, by simpa using hpieces, components_eq hdir hpieces⟩
  · have hjoin := exists_pieces_join (isAbsolute_joinPieces hnames) hdir
    rwa [splitAt_joinPieces hnames hne, ← below_of_ne_nil hne] at hjoin

/-- **The components of a path below a directory.** -/
theorem components_below (dir : Path) :
    (dir.below names).components = dir.components ++ names.map .normal := by
  by_cases hdir : dir.text = []
  · rw [below_of_text_eq_nil hdir]
    obtain ⟨text⟩ := dir
    obtain rfl : text = [] := hdir
    rw [components_nil, List.nil_append]
    by_cases hne : names = []
    · subst hne
      rfl
    · obtain ⟨name, rest, rfl⟩ := List.exists_cons_of_ne_nil hne
      have hname := hnames name (by simp)
      have hrest : ∀ n ∈ rest, isName n = true := fun n hn => hnames n (by simp [hn])
      have hpieces := splitAt_joinPieces hnames hne
      have htext : joinPieces (name :: rest) ≠ [] := by
        intro hnil
        rw [hnil] at hpieces
        obtain rfl : [] = name := (List.cons.inj hpieces).1
        exact ne_nil_of_isName hname rfl
      have hfirst : firstComponent name = .normal name := by
        rw [firstComponent, if_neg (by simpa using ne_nil_of_isName hname),
          if_neg (ne_dot_of_isName hname), ofPiece_of_isName hname]
      rw [components_eq (p := ⟨joinPieces (name :: rest)⟩) htext hpieces, hfirst,
        filter_isFiller_names hrest, map_ofPiece_names hrest]
      rfl
  · by_cases hne : names = []
    · subst hne
      simp
    · rw [below_of_ne_nil hne, components_join (isAbsolute_joinPieces hnames) hdir,
        splitAt_joinPieces hnames hne, filter_isFiller_names hnames, map_ofPiece_names hnames]

/-- A path below a directory is compared with others there by its names. -/
theorem le_below {others : List Text} (hothers : ∀ name ∈ others, isName name = true)
    (dir : Path) :
    (dir.below names).le (dir.below others) =
      Component.listLe (names.map .normal) (others.map .normal) := by
  rw [le, components_below hnames, components_below hothers, Component.listLe_append_left]

theorem fileName_below (hne : names ≠ []) (dir : Path) :
    (dir.below names).fileName = names.getLast hne := by
  have hlast : (dir.below names).components.getLast? = some (.normal (names.getLast hne)) := by
    rw [components_below hnames, List.getLast?_append_of_ne_nil _ (by simpa using hne),
      List.getLast?_map, List.getLast?_eq_some_getLast hne]
    rfl
  rw [fileName, hlast]

/-! ## Seen from the directory -/

omit hnames in
theorem dropWhile_dropNamed (rest : List Text) :
    (dropNamed (rest.filter (!isFiller ·)).length (rest ++ names)).dropWhile isFiller =
      names.dropWhile isFiller := by
  induction rest with
  | nil => rw [List.filter_nil, List.length_nil, List.nil_append, dropNamed]
  | cons piece rest ih =>
    cases hfiller : isFiller piece with
    | false =>
      rw [List.filter_cons_of_pos (by simp [hfiller]), List.length_cons, List.cons_append, dropNamed,
        if_neg (by simp [hfiller]), ih]
    | true =>
      rw [List.filter_cons_of_neg (by simp [hfiller]), List.cons_append]
      -- a piece that counts for nothing is passed over now or by the trimming
      cases hcount : (rest.filter (!isFiller ·)).length with
      | zero =>
        rw [hcount, dropNamed] at ih
        rw [dropNamed, List.dropWhile_cons_of_pos hfiller, ih]
      | succ n =>
        rw [hcount] at ih
        rw [dropNamed, if_pos hfiller, ih]

/-- **Seen from the directory, a path below it is its names.** -/
theorem relativeTo_below (dir : Path) : (dir.below names).relativeTo dir = ⟨joinPieces names⟩ := by
  by_cases hdir : dir.text = []
  · have hempty : dir.components = [] := by
      obtain ⟨text⟩ := dir
      obtain rfl : text = [] := hdir
      rfl
    rw [relativeTo, stripBase?, hempty, below_of_text_eq_nil hdir, Option.getD_some]
    by_cases hne : names = []
    · subst hne
      rfl
    · obtain ⟨name, rest, rfl⟩ := List.exists_cons_of_ne_nil hne
      have hrest : ∀ n ∈ rest, isName n = true := fun n hn => hnames n (by simp [hn])
      rw [withoutEndFillers, splitAt_joinPieces hnames hne]
      simp only [dropEndFillers_names hrest, isAbsolute_joinPieces hnames]
      cases rest with
      | nil => simp [joinPieces, List.intercalate]
      | cons next rest => rfl
  · obtain ⟨first, rest, hpieces, hcomponents⟩ := exists_pieces_below hnames hdir
    have hstarts : dir.components.isPrefixOf (dir.below names).components = true := by
      rw [List.isPrefixOf_iff_prefix, components_below hnames]
      exact List.prefix_append _ _
    have hrest : dropNamed (dir.components.length - 1)
        (Text.splitAt '/' (dir.below names).text).tail =
          dropNamed (rest.filter (!isFiller ·)).length (rest ++ names) := by
      rw [hpieces, hcomponents]
      simp
    rw [relativeTo, stripBase?]
    split
    · next hnil => simp [hcomponents] at hnil
    · simp only [hstarts, if_true, hrest, dropWhile_dropNamed, dropWhile_isFiller_names hnames,
        dropEndFillers_names hnames, Option.getD_some]

end Path

end ContractLint
