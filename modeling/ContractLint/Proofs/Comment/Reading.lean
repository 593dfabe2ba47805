import ContractLint.Proofs.Comment.Automaton

/-!
# Comments read from left to right

What a comment is can be said without searching for anything: read the text from its start, and look
at the next two characters. `Region.read` does so with no more to remember than the region that it
is in. It serves as the definition of what the scanner is to find, by which the places that are
hidden are the places inside a comment.

`Lexer` reads single characters and therefore remembers half a delimiter; here a delimiter is
consumed as a whole, and one that a text cuts in two is none.
-/

namespace ContractLint

namespace Region

/-- The region at the end of a text, where the first argument is the region at its start. Code is
left by `/*` and `//`, a block comment by `*/`, a line comment by nothing. -/
def read : Region → Text → Region
  | .code, '/' :: '*' :: t => read .block t
  | .code, '/' :: '/' :: t => read .line t
  | .code, _ :: t => read .code t
  | .block, '*' :: '/' :: t => read .code t
  | .block, _ :: t => read .block t
  | .line, _ :: t => read .line t
  | region, [] => region

/-- The region at the start of a line. -/
def start (inBlock : Bool) : Region := if inBlock then .block else .code

-- delimiters that overlap: the first one takes both of its characters
example : read .code "/*/" = .block ∧ read .code "//*" = .line ∧ read .block "**/" = .code := by
  decide

example : read .block "*//" = .code ∧ read .block "*//*" = .block ∧ read .code "/" = .code := by
  decide

end Region

namespace Comment

/-- A delimiter does not start a text that the reader finds no delimiter in front of. -/
theorem isPrefixOf_pair {a b c : Char} {t : Text} (h : ∀ rest, c = a → t = b :: rest → False) :
    [a, b].isPrefixOf (c :: t) = false := by
  refine Bool.eq_false_iff.2 fun hprefix => ?_
  obtain ⟨rest, hrest⟩ := List.isPrefixOf_iff_prefix.1 hprefix
  obtain ⟨hc, ht⟩ := List.cons.inj hrest
  exact h rest hc.symm ht.symm

/-- **The scanner finds what reading finds.** A line comment is not left, so there is nothing to scan
in one. -/
theorem read_eq_scan (region : Region) (t : Text) :
    region.read t = if region = .line then .line else scan (region == .block) t := by
  -- one case for each row of the reader, and for each an equation of the scanner
  fun_induction Region.read region t with
  | case1 t ih => exact ih.trans (scan_code_opener t).symm
  | case2 t ih => exact ih.trans (scan_code_lineMark t).symm
  | case3 c t hopen hmark ih =>
    rw [ih]
    exact (scan_code_cons (isPrefixOf_pair hopen) (isPrefixOf_pair hmark)).symm
  | case4 t ih => exact ih.trans (scan_block_closer t).symm
  | case5 c t hclose ih =>
    rw [ih]
    exact (scan_block_cons (isPrefixOf_pair hclose)).symm
  | case6 c t ih => exact ih
  | case7 region =>
    cases region with
    | code => rw [scan_eq_region_run]; rfl
    | block => rw [scan_eq_region_run]; rfl
    | line => rfl

theorem scan_eq_read (inBlock : Bool) (t : Text) : scan inBlock t = (Region.start inBlock).read t := by
  rw [read_eq_scan]
  cases inBlock <;> rfl

theorem hides_eq_read (inBlock : Bool) (before : Text) :
    hides inBlock before = ((Region.start inBlock).read before != .code) := by
  rw [hides, scan_eq_read]

/-- **Scanning a line is reading it from left to right**, from either region that a line can start in.

* Both end in the same region, in which a block comment is open, a line comment is reached, or
  neither.
* A byte is hidden exactly if reading what stands before it ends in a comment. It can be asked for
  where a character starts or the line ends, and nowhere else.
* A block comment is open behind the line exactly if reading all of it ends in one. -/
theorem scan_reads_from_left (inBlock : Bool) (line : Text) :
    scan inBlock line = (Region.start inBlock).read line ∧
      (∀ pos hidden, hidesAt? inBlock line pos = some hidden ↔
        ∃ before : Text, before <+: line ∧ before.byteSize = pos ∧
          hidden = ((Region.start inBlock).read before != .code)) ∧
      advance inBlock line = ((Region.start inBlock).read line == .block) := by
  refine ⟨scan_eq_read inBlock line, fun pos hidden => ?_, ?_⟩
  · rw [hidesAt?, Option.map_eq_some_iff]
    constructor
    · rintro ⟨before, hbefore, rfl⟩
      obtain ⟨hstarts, hbytes⟩ := Text.takeBytes?_eq_some_iff.1 hbefore
      exact ⟨before, hstarts, hbytes, hides_eq_read inBlock before⟩
    · rintro ⟨before, hstarts, hbytes, rfl⟩
      exact ⟨before, Text.takeBytes?_eq_some_iff.2 ⟨hstarts, hbytes⟩, hides_eq_read inBlock before⟩
  · rw [advance, scan_eq_read]

end Comment

end ContractLint
