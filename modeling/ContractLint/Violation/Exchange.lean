import ContractLint.Json
import ContractLint.Violation

/-!
# Reports as JSON

`Report.toJson` writes the fields of a report in a fixed order and leaves out the list of changed
files when it is empty; `Report.ofJson?` reads reports back. A structure is an object of named
fields, of which unknown ones are ignored, or an array of exactly its fields by position.
-/

namespace ContractLint

/-! ## Writing -/

/-- A place as JSON. -/
def Location.toJson (l : Location) : Json :=
  .object [("file", .string l.file.text), ("line", .nat l.line), ("column", .nat l.column),
    ("offset", .nat l.offset), ("length", .nat l.length)]

/-- A suggestion as JSON. -/
def suggestionToJson : Option Text → Json
  | some message => .object [("message", .string message)]
  | none => .null

/-- A violation as JSON. -/
def Violation.toJson (v : Violation) : Json :=
  .object [("code", .string v.code), ("rule", .string v.rule), ("severity", .string v.severity.name),
    ("location", v.location.toJson), ("message", .string v.message),
    ("suggestion", suggestionToJson v.suggestion)]

/-- A report as JSON. -/
def Report.toJson (r : Report) : Json :=
  let fixed : List (Text × Json) :=
    if r.filesFixed.isEmpty then []
    else [("files_fixed", .array (r.filesFixed.map fun p => .string p.text))]
  .object (("violations", .array (r.violations.map Violation.toJson)) ::
    ("files_checked", .nat r.filesChecked) :: fixed)

/-! ## Reading -/

namespace Json

/-- The fields of a structure. All fields of an array must be there unless they are among the last
`optional` ones, and no others. -/
def fields? (names : List Text) (optional : Nat) : Json → Option (List (Option Json))
  | object fields => some (names.map (List.lookup · fields))
  | array items =>
    if items.length ≤ names.length && names.length ≤ items.length + optional then
      some (names.zipIdx.map fun (_, i) => items[i]?)
    else none
  | _ => none

/-- A string. -/
def text? : Json → Option Text
  | string t => some t
  | _ => none

/-- A count. -/
def nat? : Json → Option Nat
  | nat n => if n < Nat.pow 2 64 then some n else none
  | _ => none

/-- A list. -/
def items? : Json → Option (List Json)
  | array items => some items
  | _ => none

/-- A severity: its name, or an object with the name as its only key and nothing in it. -/
def severity? : Json → Option Severity
  | string t => Severity.ofName? t
  | object [(t, null)] => Severity.ofName? t
  | _ => none

end Json

/-- Reads a place. -/
def Location.ofJson? (j : Json) : Option Location := do
  let fields ← j.fields? ["file", "line", "column", "offset", "length"] 0
  let field := fun (i : Nat) => fields[i]?.join
  some {
    file := ⟨← (← field 0).text?⟩
    line := ← (← field 1).nat?
    column := ← (← field 2).nat?
    offset := ← (← field 3).nat?
    length := ← (← field 4).nat? }

/-- Reads a suggestion, which may be missing. -/
def suggestionOfJson? : Option Json → Option (Option Text)
  | none => some none
  | some .null => some none
  | some j => do
    let fields ← j.fields? ["message"] 0
    some (some (← (← fields[0]?.join).text?))

/-- Reads a violation. -/
def Violation.ofJson? (j : Json) : Option Violation := do
  let fields ← j.fields? ["code", "rule", "severity", "location", "message", "suggestion"] 0
  let field := fun (i : Nat) => fields[i]?.join
  some {
    code := ← (← field 0).text?
    rule := ← (← field 1).text?
    severity := ← (← field 2).severity?
    location := ← Location.ofJson? (← field 3)
    message := ← (← field 4).text?
    suggestion := ← suggestionOfJson? (field 5) }

/-- Reads a report. The list of changed files may be missing, but not null. -/
def Report.ofJson? (j : Json) : Option Report := do
  let fields ← j.fields? ["violations", "files_checked", "files_fixed"] 1
  let field := fun (i : Nat) => fields[i]?.join
  some {
    violations := ← (← (← field 0).items?).mapM Violation.ofJson?
    filesChecked := ← (← field 1).nat?
    filesFixed := ← match field 2 with
      | none => some []
      | some files => do (← files.items?).mapM fun p => p.text?.map Path.mk }

end ContractLint
