import ContractLint.Path

/-!
# File trees

A file tree holds the files that a run can see: each file under the list of names that leads to it
from the root directory, with its bytes. A directory exists if it is listed or if something is in
it. Paths are resolved name by name, so `a/..` exists only if `a` is a directory.

Links, symbolic and hard ones alike, are outside of the model. A file is held under one list of
names and a directory is entered from one parent, so writing to a file leaves the bytes under all
other names as they are. Every statement that a file is left untouched rests on this: where two
names lead to one file, a write under the one is seen under the other.

Reading a file as text gives back what was written (`decode_encode`).
-/

namespace ContractLint

/-- Why a file could not be read. -/
inductive AccessError where
  | notFound
  | notDirectory
  | isDirectory
  | notText
  deriving DecidableEq, Repr

/-- The operating system's wording of an error. -/
def AccessError.message : AccessError → Text
  | notFound => "No such file or directory (os error 2)"
  | notDirectory => "Not a directory (os error 20)"
  | isDirectory => "Is a directory (os error 21)"
  | notText => "stream did not contain valid UTF-8"

/-- The text that bytes encode in UTF-8. -/
def decode? (bytes : ByteArray) : Option Text := (String.fromUTF8? bytes).map String.toList

/-- The bytes of a text in UTF-8. -/
def encode (t : Text) : ByteArray := (String.ofList t).toUTF8

theorem decode_encode (t : Text) : decode? (encode t) = some t := by
  have h : (String.ofList t).toUTF8.IsValidUTF8 := (String.ofList t).isValidUTF8
  unfold decode? encode String.fromUTF8?
  rw [dif_pos h]
  exact congrArg some String.toList_ofList

/-- The names that lead from the root directory to a file. -/
abbrev Key := List Text

/-- Files and directories, without links: no two lists of names lead to one file. -/
structure FileTree where
  files : List (Key × ByteArray) := []
  dirs : List Key := []

namespace FileTree

/-- The bytes of a file. -/
def file? (t : FileTree) (key : Key) : Option ByteArray := t.files.lookup key

/-- Whether there is a directory under these names. -/
def isDir (t : FileTree) (key : Key) : Bool :=
  key.isEmpty || t.dirs.any key.isPrefixOf ||
    t.files.any fun (file, _) => key.isPrefixOf file && key.length < file.length

/-- Whether there is a file or a directory under these names. -/
def has (t : FileTree) (key : Key) : Bool := (t.file? key).isSome || t.isDir key

/-- Follows the pieces of a path from a place on. Only a directory can be passed. -/
def follow (t : FileTree) : List Text → Key → Except AccessError Key
  | [], key => if t.has key then .ok key else .error .notFound
  | piece :: rest, key =>
    if !t.isDir key then .error (if (t.file? key).isSome then .notDirectory else .notFound)
    else if Path.isFiller piece then t.follow rest key
    else if piece = ['.', '.'] then t.follow rest key.dropLast
    else t.follow rest (key ++ [piece])

/-- The place that a path leads to from the root directory. The empty path leads nowhere. -/
def resolve (t : FileTree) (p : Path) : Except AccessError Key :=
  if p.text.isEmpty then .error .notFound else t.follow (Text.splitAt '/' p.text) []

/-- Whether an absolute path leads anywhere. -/
def pathExists (t : FileTree) (p : Path) : Bool :=
  match t.resolve p with
  | .ok _ => true
  | .error _ => false

/-- The text of the file that an absolute path leads to. -/
def readText (t : FileTree) (p : Path) : Except AccessError Text := do
  let key ← t.resolve p
  match t.file? key with
  | none => .error .isDirectory
  | some bytes =>
    match decode? bytes with
    | some text => .ok text
    | none => .error .notText

/-- The tree with a file set to the given bytes. -/
def write (t : FileTree) (key : Key) (bytes : ByteArray) : FileTree :=
  { t with
    files :=
      if (t.file? key).isSome then
        t.files.map fun (k, old) => if k = key then (k, bytes) else (k, old)
      else t.files ++ [(key, bytes)] }

/-- The place that an absolute path names, whether or not it exists. -/
def keyOf (p : Path) : Key :=
  (Text.splitAt '/' p.text).foldl (fun key piece =>
    if Path.isFiller piece then key
    else if piece = ['.', '.'] then key.dropLast
    else key ++ [piece]) []

/-- The tree with the file of an absolute path set to the given text. -/
def writeText (t : FileTree) (p : Path) (text : Text) : FileTree := t.write (keyOf p) (encode text)

/-- The files below a directory, each with the names that lead to it from there. -/
def filesBelow (t : FileTree) (dir : Key) : List Key :=
  (t.files.map (·.1)).filterMap fun file =>
    if dir.isPrefixOf file && dir.length < file.length then some (file.drop dir.length) else none

end FileTree

end ContractLint
