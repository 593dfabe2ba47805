import ContractLint.Cli.Places
import ContractLint.Cli.Run

/-!
# The program

Reads the files that the run looks at, runs it, writes the files that it changed and prints what it
has to say.
-/

namespace ContractLint.Cli

/-- Where a key of the file tree is on the disk. -/
def placeOf (key : Key) := (IO.FS.DirEntry.mk "/" (String.ofList (Path.joinPieces key))).path

/-- Adds what is on the disk under a key: a file with its bytes, a directory by its name and, if
`deep`, with everything below it. -/
partial def addPlace (deep : Bool) (t : FileTree) (key : Key) : IO FileTree := do
  let place := placeOf key
  if ← place.isDir then
    let t := { t with dirs := key :: t.dirs }
    if deep then
      (← place.readDir).foldlM (fun t entry => addPlace deep t (key ++ [entry.fileName.toList])) t
    else return t
  else if (t.file? key).isNone && (← place.pathExists) then
    return { t with files := (key, ← IO.FS.readBinFile place) :: t.files }
  else return t

/-- Adds what is under a path and on the way to it. -/
def addPath (s : Surroundings) (deep : Bool) (t : FileTree) (p : Path) : IO FileTree := do
  let key := FileTree.keyOf (s.directory.join p)
  let t ← (List.range key.length).foldlM (fun t n => addPlace false t (key.take n)) t
  addPlace deep t key

/-- The files that an invocation looks at. -/
def gather (s : Surroundings) (i : Invocation) : IO FileTree := do
  let t ← (settingsPlaces s i).foldlM (addPath s false) {}
  match i.request.project? with
  | none => return t
  | some project =>
    match Settings.load s t project i.settingsFile with
    | .error _ => return t
    | .ok settings =>
      let t ← (sidePlaces s settings i.request).foldlM (addPath s false) t
      (i.request.sourceRoot? settings).toList.foldlM (addPath s true) t

/-- What the program finds around it. -/
def surroundings : IO Surroundings := do
  let directory : Path := ⟨(← IO.currentDir).toString.toList⟩
  let home := (← IO.getEnv "HOME").map fun dir => (⟨dir.toList⟩ : Path)
  let settingsVariable := (← IO.getEnv "SOLLINT_CONFIG").map String.toList
  let settingsDirVariable := (← IO.getEnv "SOLLINT_CONFIG_DIR").map String.toList
  return { directory, home, settingsVariable, settingsDirVariable }

/-- Writes the files that differ. -/
def writeChanges (before after : FileTree) : IO Unit :=
  after.files.forM fun (key, bytes) =>
    if before.file? key == some bytes then pure () else IO.FS.writeBinFile (placeOf key) bytes

end ContractLint.Cli

open ContractLint in
/-- Runs the program with its arguments. -/
def main (args : List String) : IO UInt32 := do
  let s ← Cli.surroundings
  let args := args.map String.toList
  let before ← match Cli.Invocation.ofArguments s.settingsVariable args with
    | .ok invocation => Cli.gather s invocation
    | .error _ => pure {}
  let outcome := Cli.run s before args
  Cli.writeChanges before outcome.tree
  IO.print (String.ofList outcome.output)
  if outcome.exit = 2 then IO.eprint (String.ofList (unlines Cli.helpLines))
  outcome.problem.toList.forM fun problem => IO.eprintln (String.ofList problem)
  return outcome.exit.toUInt32
