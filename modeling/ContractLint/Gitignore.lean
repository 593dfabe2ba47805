import ContractLint.FileTree
import ContractLint.Glob
import ContractLint.Text.Blank
import ContractLint.Text.Lines

/-!
# Ignore files of a repository

Each directory of a repository can hold a `.gitignore` with patterns for what lies below it. Of the
patterns of one file the last one that fits decides; of several files the one nearest to the path
does. Files above the directory that holds `.git` are not asked, and without such a directory none
is.
-/

namespace ContractLint.Gitignore

/-- One component of a pattern. -/
inductive Segment where
  /-- Any number of components. -/
  | anyDepth
  | name (pattern : List Glob.Piece)
  deriving DecidableEq, Repr

/-- One line of an ignore file. -/
structure Entry where
  /-- The patterns of the line, of which one has to fit. -/
  choices : List (List Segment)
  /-- Whether the line takes paths back out. -/
  negated : Bool
  /-- Whether the line is about directories only. -/
  dirOnly : Bool
  deriving DecidableEq, Repr

/-! ## Reading lines -/

/-- Reads a component. A backslash takes the meaning from the next character. There is no answer for
a set that is not closed or a backslash at the end. -/
def namePieces? (t : Text) : Option (List Glob.Piece) :=
  match t with
  | [] => some []
  | '\\' :: c :: rest => (namePieces? rest).map (.char c :: ·)
  | ['\\'] => none
  | '?' :: rest => (namePieces? rest).map (.anyChar :: ·)
  | '*' :: rest => (namePieces? rest).map (.anyRun :: ·)
  | '[' :: rest =>
    let body := match rest with
      | '^' :: body => '!' :: body
      | body => body
    match Glob.set? body with
    | some (piece, after) =>
      if after.length ≤ rest.length then (namePieces? after).map (piece :: ·) else none
    | none => none
  | c :: rest => (namePieces? rest).map (.char c :: ·)
termination_by t.length
decreasing_by all_goals (simp only [List.length_cons]; omega)

/-- Reads a component, where two stars stand for any number of components. -/
def segment? (t : Text) : Option Segment :=
  if t = ['*', '*'] then some .anyDepth else (namePieces? t).map .name

/-- The texts between commas up to a closing brace, and what follows it. Braces are not nested. -/
def group? : Text → Option (List Text × Text)
  | [] => none
  | '\\' :: c :: rest => (group? rest).map fun (texts, after) =>
      (texts.modifyHead fun t => '\\' :: c :: t, after)
  | '\x7b' :: _ => none
  | '\x7d' :: rest => some ([[]], rest)
  | ',' :: rest => (group? rest).map fun (texts, after) => ([] :: texts, after)
  | c :: rest => (group? rest).map fun (texts, after) => (texts.modifyHead (c :: ·), after)

/-- The patterns that a pattern with alternatives in braces stands for. An empty alternative counts
only if there is no other. -/
def alternatives? (t : Text) : Option (List Text) :=
  match t with
  | [] => some [[]]
  | '\\' :: c :: rest => (alternatives? rest).map (·.map fun t => '\\' :: c :: t)
  | '\x7b' :: rest =>
    match group? rest with
    | some (texts, after) =>
      if after.length ≤ rest.length then
        let filled := texts.filter (!·.isEmpty)
        let choices := if filled.isEmpty then [[]] else filled
        (alternatives? after).map fun tails => choices.flatMap fun choice => tails.map (choice ++ ·)
      else none
    | none => none
  | '\x7d' :: _ => none
  | c :: rest => (alternatives? rest).map (·.map (c :: ·))
termination_by t.length
decreasing_by all_goals (simp only [List.length_cons]; omega)

/-- Reads a pattern. One without a slash, and not tied to the directory by one before it, holds at
any depth; what ends in any number of components needs one more below. -/
def segments? (tied : Bool) (t : Text) : Option (List Segment) := do
  let segments ← (Text.splitAt '/' t).mapM segment?
  let segments := if tied then segments else .anyDepth :: segments
  if segments.getLast? = some .anyDepth && segments.length > 1
    then some (segments ++ [.name [.anyRun]]) else some segments

/-- Reads a line. Comments, empty lines and faulty patterns say nothing. -/
def entry? (line : Text) : Option Entry := do
  if line.head? = some '#' then none
  let line := if ("\\ " : Text).isSuffixOf line then line else line.trimEnd
  let (negated, rest) := match line with
    | '!' :: rest => (true, rest)
    | rest => (false, rest)
  let (anchored, rest) := match rest with
    | '/' :: rest => (true, rest)
    | rest => (false, rest)
  let dirOnly := rest.getLast? = some '/'
  let body := if dirOnly then rest.dropLast else rest
  if line.isEmpty || body.isEmpty then none
  let choices ← (← alternatives? body).mapM (segments? (anchored || body.contains '/'))
  some { choices, negated, dirOnly }

/-- Reads an ignore file. -/
def ofText (t : Text) : List Entry := t.lines.filterMap entry?

/-! ## Matching -/

/-- The list and what is left of it after each of its elements. -/
def tails : Key → List Key
  | [] => [[]]
  | name :: key => (name :: key) :: tails key

/-- Whether the names from an ignore file's directory to a path fit a pattern. -/
def fits : List Segment → Key → Bool
  | [], key => key.isEmpty
  | .anyDepth :: rest, key => (tails key).any (fits rest)
  | .name _ :: _, [] => false
  | .name pattern :: rest, name :: key => Glob.fits pattern name && fits rest key

/-- What the entries of one file say about a path: to ignore it, to keep it, or nothing. -/
def decision? (entries : List Entry) (isDir : Bool) (key : Key) : Option Bool :=
  (entries.reverse.find? fun e => e.choices.any (fits · key) && (!e.dirOnly || isDir)).map (!·.negated)

/-- The entries of the ignore file in a directory. -/
def entriesIn (t : FileTree) (dir : Key) : List Entry :=
  ((t.file? (dir ++ [".gitignore".toList])).bind decode?).elim [] ofText

/-- Whether a directory is the top of a repository. -/
def isTop (t : FileTree) (dir : Key) : Bool := t.has (dir ++ [".git".toList])

/-- What the ignore files in a directory and above it say about a path below it. The directory is
given as the names that lead to it, last one first. -/
def decisionAbove? (t : FileTree) (isDir : Bool) : (dirReversed below : Key) → Option Bool
  | [], below => decision? (entriesIn t []) isDir below
  | name :: up, below =>
    let dir := (name :: up).reverse
    match decision? (entriesIn t dir) isDir below with
    | some d => some d
    | none => if isTop t dir then none else decisionAbove? t isDir up (name :: below)

/-- Whether a directory lies in a repository. -/
def inRepository (t : FileTree) : (dirReversed : Key) → Bool
  | [] => isTop t []
  | name :: up => isTop t (name :: up).reverse || inRepository t up

/-- Whether the entry `name` of a directory is ignored. -/
def ignoresEntry (t : FileTree) (isDir : Bool) (dir : Key) (name : Text) : Bool :=
  inRepository t dir.reverse && (decisionAbove? t isDir dir.reverse [name]).getD false

/-- Whether a file below a directory is ignored, because it is itself or because a directory on the
way to it is. -/
def ignores (t : FileTree) (dir : Key) : (below : Key) → Bool
  | [] => false
  | [name] => ignoresEntry t false dir name
  | name :: rest => ignoresEntry t true dir name || ignores t (dir ++ [name]) rest

end ContractLint.Gitignore
