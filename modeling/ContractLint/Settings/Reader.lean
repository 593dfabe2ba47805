import ContractLint.Settings
import ContractLint.Sorting
import ContractLint.Toml.Document

/-!
# Settings as TOML

A section of the settings is a table of named fields or an array of the same fields by position;
missing fields take their defaults and others are ignored. A word out of a fixed choice is a string,
or a table that holds the word as its only key with nothing in it.
-/

namespace ContractLint

namespace Toml.Value

/-- The fields of a section, in the order of their names. A date counts as a section without
fields. -/
def fields? (names : List Text) : Value → Option (List (Option Value))
  | table _ entries => some (names.map (Entries.get? entries))
  | array items => some (names.zipIdx.map fun (_, i) => items[i]?)
  | tables elements =>
    some (names.zipIdx.map fun (_, i) => elements[i]?.map (table .header))
  | dateTime _ => some (names.map fun _ => none)
  | _ => none

/-- A text field. -/
def text? : Value → Option Text
  | string t => some t
  | _ => none

/-- A path field. -/
def path? (v : Value) : Option Path := v.text?.map Path.mk

/-- A truth value. -/
def flag? : Value → Option Bool
  | boolean b => some b
  | _ => none

/-- Whether the value is an array or a table with nothing in it. -/
def isHollow : Value → Bool
  | array items => items.isEmpty
  | table _ entries => entries.isEmpty
  | tables elements => elements.isEmpty
  | _ => false

/-- A word out of a fixed choice. -/
def choice? {α : Type} (ofName? : Text → Option α) : Value → Option α
  | string t => ofName? t
  | table _ [(t, inner)] => if inner.isHollow then ofName? t else none
  | _ => none

end Toml.Value

namespace Settings

/-- Reads a field, or takes the default if it is missing. -/
def fieldD {α : Type} (read? : Toml.Value → Option α) (default : α) : Option Toml.Value → Option α
  | some v => read? v
  | none => some default

/-- Reads the section on the project's files. -/
def readLayout (v : Toml.Value) : Option Layout := do
  let fields ← v.fields? ["root", "contracts_dir", "tests_dir", "contract_pattern", "test_pattern",
    "ignore_file", "respect_gitignore"]
  let field := fun (i : Nat) => fields[i]?.join
  let default : Layout := {}
  some {
    root := ← fieldD Toml.Value.path? default.root (field 0)
    contractsDir := ← fieldD Toml.Value.path? default.contractsDir (field 1)
    testsDir := ← fieldD Toml.Value.path? default.testsDir (field 2)
    contractPattern := ← fieldD Toml.Value.text? default.contractPattern (field 3)
    testPattern := ← fieldD Toml.Value.text? default.testPattern (field 4)
    ignoreFile := ← fieldD Toml.Value.path? default.ignoreFile (field 5)
    respectGitignore := ← fieldD Toml.Value.flag? default.respectGitignore (field 6) }

/-- Reads the section on file headers. -/
def readHeader (v : Toml.Value) : Option Header := do
  let fields ← v.fields? ["author", "solidity_version"]
  let default : Header := {}
  some {
    author := ← fieldD Toml.Value.text? default.author fields[0]?.join
    solidityVersion := ← fieldD Toml.Value.text? default.solidityVersion fields[1]?.join }

/-- Reads the section on test files. -/
def readMarker (v : Toml.Value) : Option Text := do
  let fields ← v.fields? ["forbidden_marker"]
  fieldD Toml.Value.text? ({} : Settings).marker fields[0]?.join

/-- Reads the section on coverage runs. -/
def readStyle (v : Toml.Value) : Option PreconditionStyle := do
  let fields ← v.fields? ["precondition_style"]
  fieldD (Toml.Value.choice? PreconditionStyle.ofName?) ({} : Settings).style fields[0]?.join

/-- Reads the settings of one rule. -/
def readRule (v : Toml.Value) : Option RuleSettings := do
  let fields ← v.fields? ["enabled", "severity"]
  some {
    enabled := ← fieldD (fun v => v.flag?.map some) none fields[0]?.join
    severity := ← fieldD (fun v => (v.choice? Severity.ofName?).map some) none fields[1]?.join }

/-- Reads the section on rules, which is a table by rule name. -/
def readRules : Toml.Value → Option (List (Text × RuleSettings))
  | .table _ entries => do
    let rules ← entries.mapM fun (name, v) => (readRule v).map (name, ·)
    some (sortBy (fun a b => a.1.le b.1) rules)
  | _ => none

/-- Reads the settings of a project. There is no answer for a text that is not TOML or holds a value
of the wrong type. -/
def ofToml? (t : Text) : Option Settings := do
  let root ← Toml.document? t
  let default : Settings := {}
  some {
    layout := ← fieldD readLayout default.layout (root.get? "analyzer")
    header := ← fieldD readHeader default.header (root.get? "header")
    marker := ← fieldD readMarker default.marker (root.get? "tests")
    style := ← fieldD readStyle default.style (root.get? "coverage")
    rules := ← fieldD readRules default.rules (root.get? "rules") }

end Settings

end ContractLint
