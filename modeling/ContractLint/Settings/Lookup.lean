import ContractLint.FileTree
import ContractLint.Settings.Reader

/-!
# Finding a project's settings

The settings of a project are in the file that was named, else in a file of the project directory,
else in a file of the user's own; without any the defaults hold. A file that is found must be
readable. The root of a project counts from the project directory.
-/

namespace ContractLint

/-- What a run finds around it. -/
structure Surroundings where
  /-- The current directory, as an absolute path. -/
  directory : Path
  /-- The user's home directory. -/
  home : Option Path := none
  /-- The environment variable that names a settings file. -/
  settingsVariable : Option Text := none
  /-- The environment variable that names the directory of the user's settings. -/
  settingsDirVariable : Option Text := none
  deriving DecidableEq, Repr

/-- Why settings could not be had. -/
inductive SettingsError where
  | read (path : Path) (cause : AccessError)
  | malformed (path : Path)
  deriving DecidableEq, Repr

namespace SettingsError

/-- The file that was to be loaded. -/
def path : SettingsError → Path
  | read path _ => path
  | malformed path => path

/-- What went wrong, each time with what caused it after it. -/
def causes : SettingsError → List Text
  | read path cause =>
    ["Failed to read config file " ++ path.text ++ ": " ++ cause.message, cause.message]
  | malformed _ => ["Failed to parse config:"]

end SettingsError

namespace Settings

/-- The name of a project's settings file. -/
def fileName : Path := "sollint.toml"

/-- The names under which a project keeps its settings, the first being preferred. -/
def projectFileNames : List Path := [fileName, ".sollint.toml"]

/-- The name under which a user keeps settings for all projects. -/
def userFileName : Path := "config.toml"

/-- The directory of the user's settings. -/
def userDirectory (s : Surroundings) : Option Path :=
  match s.settingsDirVariable with
  | some dir => some ⟨dir⟩
  | none => s.home.map (·.join ".sollint")

/-- The files that can hold the settings of a project if none is named, in the order in which they
are tried. -/
def candidates (s : Surroundings) (project : Path) : List Path :=
  projectFileNames.map project.join ++ ((userDirectory s).map (·.join userFileName)).toList

/-- The file that holds the settings of a project. -/
def locate (s : Surroundings) (t : FileTree) (project : Path) (named : Option Path) : Option Path :=
  named.or ((candidates s project).find? fun p => t.pathExists (s.directory.join p))

/-- The settings with their root taken from a project directory. -/
def anchored (settings : Settings) (project : Path) : Settings :=
  { settings with layout := { settings.layout with root := project.join settings.layout.root } }

/-- The settings of a project. -/
def load (s : Surroundings) (t : FileTree) (project : Path) (named : Option Path) :
    Except SettingsError Settings := do
  let settings ← match locate s t project named with
    | none => .ok {}
    | some path =>
      match t.readText (s.directory.join path) with
      | .error cause => .error (.read path cause)
      | .ok text =>
        match ofToml? text with
        | some settings => .ok settings
        | none => .error (.malformed path)
  .ok (settings.anchored project)

end Settings

end ContractLint
