import ContractLint.Gitignore
import ContractLint.Sorting

/-!
# Finding files

`discover` lists the files of a directory and everything below it whose names fit a pattern, in the
order of paths. An ignore list takes out files again by a plain test on their paths.
-/

namespace ContractLint

/-- The files below `dir`, or `dir` itself if it is a file, whose names fit the pattern, ordered by
path. A directory that does not exist holds none. The pattern is read before the tree is looked
at. -/
def discover (t : FileTree) (dir : Path) (pattern : Text) (respectGitignore : Bool) :
    Except Glob.Error (List Path) := do
  let pattern ← Glob.ofText pattern
  match t.resolve dir with
  | .error _ => .ok []
  | .ok key =>
    let files : List Path :=
      if (t.file? key).isSome then [dir]
      else
        let below := t.filesBelow key
        let kept := if respectGitignore then below.filter (!Gitignore.ignores t key ·) else below
        kept.map fun names => dir.join ⟨Path.joinPieces names⟩
    .ok (sortBy Path.le (files.filter fun p => Glob.fits pattern p.fileName))

/-- Texts that mark paths to be left out. -/
structure IgnoreList where
  entries : List Text := []
  deriving DecidableEq, Repr

namespace IgnoreList

/-- One entry for each line that is not blank, without blanks around it. -/
def ofText (t : Text) : IgnoreList where
  entries := (t.lines.map Text.trim).filter (!·.isEmpty)

/-- Whether an entry occurs in the text of the path. -/
def ignores (l : IgnoreList) (p : Path) : Bool := l.entries.any (·.occursIn p.text)

end IgnoreList

end ContractLint
