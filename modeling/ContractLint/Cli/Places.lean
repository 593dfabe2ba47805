import ContractLint.Cli.Request
import ContractLint.Settings.Lookup

/-!
# Places

Which files and directories a run looks at, so that no others have to be read from a disk.
-/

namespace ContractLint.Cli

/-- The files that can hold the settings of a run, or that it would write them to. -/
def settingsPlaces (s : Surroundings) (i : Invocation) : List Path :=
  let ofProject := fun project => (i.settingsFile.map ([·])).getD (Settings.candidates s project)
  match i.request with
  | .check _ project _ _ => ofProject project
  | .coverage project _ _ => ofProject project
  | .listRules => []
  | .init _ => [Path.join "." Settings.fileName]

/-- The project directory of a request. -/
def Request.project? : Request → Option Path
  | check _ project _ _ => some project
  | coverage project _ _ => some project
  | _ => none

/-- The directory whose files a request is about. -/
def Request.sourceRoot? (settings : Settings) : Request → Option Path
  | check target _ _ _ => some (target.directory settings)
  | coverage _ _ _ => some settings.contractsRoot
  | _ => none

/-- The single files that a run looks at besides those below its source directory: the ignore list,
and in each directory above the source directory what tells about ignored files there. -/
def sidePlaces (s : Surroundings) (settings : Settings) (r : Request) : List Path :=
  let above := match r.sourceRoot? settings with
    | some root =>
      let key := FileTree.keyOf (s.directory.join root)
      (List.range (key.length + 1)).map key.take
    | none => []
  let inDirectory := fun (names : Key) (name : Path) => Path.join ⟨'/' :: Path.joinPieces names⟩ name
  settings.ignorePath :: above.flatMap fun names =>
    [inDirectory names ".gitignore", inDirectory names ".git"]

end ContractLint.Cli
