import ContractLint.Rule.Finding
import ContractLint.Sorting
import ContractLint.SourceView

/-!
# Import blocks

The import lines of a file are those above its first contract or library. They should name only what
the rest of the file uses, name it once, and stand in order: by directory, then by file, with paths
that have no directory last. `ImportBlock.expected` is the list that satisfies all three; the block
is in order if it is that list already.
-/

namespace ContractLint

/-- One import line. -/
structure ImportDecl where
  /-- The line without its indentation. -/
  text : Text
  /-- The line's number, counted from one. -/
  line : Nat
  /-- The first name in braces, if the braces stand apart. -/
  symbol : Option Text
  /-- What stands between the first two double quotes. -/
  path : Text
  deriving DecidableEq, Repr

/-- What import lines are sorted by. -/
structure ImportKey where
  /-- Whether the path has no directory. -/
  bare : Bool
  directory : Text
  base : Text
  deriving DecidableEq, Repr

/-- Paths with a directory come first; then directories and last names are compared character by
character. -/
def ImportKey.le (a b : ImportKey) : Bool :=
  if a.bare ≠ b.bare then b.bare
  else if a.directory ≠ b.directory then decide (a.directory < b.directory)
  else a.base.le b.base

namespace ImportDecl

/-- Reads an import line. -/
def ofLine (line : Nat) (text : Text) : ImportDecl where
  text := text.trimStart
  line
  symbol := match text.words with
    | _ :: brace :: name :: _ => if brace = ['\x7b'] then some name else none
    | _ => none
  path := ((Text.splitAt '"' text.trimStart)[1]?).getD []

/-- The sorting key: the path split at its last slash. -/
def key (d : ImportDecl) : ImportKey :=
  let (directory, base) := (Text.cutLast '/' d.path).getD ([], d.path)
  ⟨directory.isEmpty, directory, base⟩

/-- What makes two import lines duplicates: the symbol, or the path if there is none. -/
def identity (d : ImportDecl) : Text := d.symbol.getD d.path

end ImportDecl

/-- The first element of each key, in order. -/
def distinctBy {α : Type} (key : α → Text) : List α → List α
  | [] => []
  | a :: l => a :: (distinctBy key l).filter (key · != key a)

/-- A file split around its import lines. -/
structure ImportBlock where
  /-- The lines above the first import. -/
  above : List Text := []
  imports : List ImportDecl := []
  /-- All other lines. -/
  below : List Text := []
  deriving DecidableEq, Repr

namespace ImportBlock

/-- Whether a line starts the code of a file. -/
def startsCode (line : Text) : Bool :=
  ("contract" : Text).isPrefixOf line || ("library" : Text).isPrefixOf line

/-- Whether a line is an import line, if it stands above the code. -/
def isImport (line : Text) : Bool := ("import" : Text).isPrefixOf line.trimStart

/-- Splits the lines from number `line` on. `started` tells whether there was an import line,
`inCode` whether the code has started. -/
def splitFrom (line : Nat) (started inCode : Bool) : List Text → ImportBlock
  | [] => {}
  | text :: rest =>
    if !inCode && isImport text then
      let block := splitFrom (line + 1) true inCode rest
      { block with imports := ImportDecl.ofLine line text :: block.imports }
    else
      let block := splitFrom (line + 1) started (inCode || startsCode text) rest
      if started then { block with below := text :: block.below }
      else { block with above := text :: block.above }

/-- Splits a file around its import lines. -/
def ofLines (lines : List Text) : ImportBlock := splitFrom 1 false false lines

/-- Whether the file uses what an import names. An import without a symbol counts as used. -/
def uses (b : ImportBlock) (d : ImportDecl) : Bool :=
  d.symbol.all fun name => b.below.any name.occursIn

/-- The imports that are used, without duplicates, in order. -/
def expected (b : ImportBlock) : List ImportDecl :=
  sortBy (fun d e => d.key.le e.key) (distinctBy ImportDecl.identity (b.imports.filter b.uses))

/-- Whether the imports are as they should be. -/
def isCorrect (b : ImportBlock) : Bool := b.expected.map (·.text) == b.imports.map (·.text)

/-- The lines of the file with its imports as they should be. -/
def arranged (b : ImportBlock) : List Text := b.above ++ b.expected.map (·.text) ++ b.below

/-- Import lines as they are listed in messages. -/
def listing (imports : List ImportDecl) : Text :=
  imports.flatMap fun d => ("\n    " : Text) ++ d.text

/-- What is wrong with the imports of a file. -/
def findings (v : SourceView) : List Finding :=
  let block := ofLines v.source.lines
  if block.isCorrect then []
  else
    [{ line := (block.imports.head?.map (·.line)).getD 1
       message := "Imports in '" ++ v.relativePath.text ++
        "' are not sorted or contain unused/duplicate entries:" ++ listing block.imports
       suggestion := some (">>> SHOULD BE >>>" ++ listing block.expected) }]

/-- The lines of a file with its imports put right, if they are not. -/
def fix (v : SourceView) : Option (List Text) :=
  let block := ofLines v.source.lines
  if block.isCorrect then none else some block.arranged

end ImportBlock

end ContractLint
