import ContractLint.FileTree
import ContractLint.Source
import ContractLint.Violation.Exchange

/-!
# Listings

A listing is the text of a report for readers. There are four formats: a few lines for each
violation with a coloured summary, the report as JSON, one line for each violation, and each
violation pointed out in its source line, with the summary again.
-/

namespace ContractLint

/-- How a report is listed. -/
inductive Format where
  | text
  | json
  | compact
  | rich
  deriving DecidableEq, Repr

namespace Format

/-- The word for a format on the command line. -/
def name : Format → Text
  | text => "text"
  | json => "json"
  | compact => "compact"
  | rich => "rich"

/-- The format that a word stands for. -/
def ofName? (t : Text) : Option Format := [text, json, compact, rich].find? (·.name == t)

end Format

/-! ## Colours -/

/-- The colours of a listing. -/
inductive Colour where
  | red
  | green
  | yellow
  | blue
  deriving DecidableEq, Repr

/-- The number of a colour in a terminal's escape sequences. -/
def Colour.code : Colour → Text
  | .red => "31"
  | .green => "32"
  | .yellow => "33"
  | .blue => "34"

/-- A text between the escape sequences that switch a colour on and off. -/
def Colour.paint (colour : Colour) (t : Text) : Text := "\x1b[" ++ colour.code ++ "m" ++ t ++ "\x1b[0m"

/-- The colour of a severity. -/
def Severity.colour : Severity → Colour
  | .error => .red
  | .warning => .yellow
  | .info => .blue

/-! ## Lines of a violation -/

/-- Lines with a line feed after each. -/
def unlines (lines : List Text) : Text := lines.flatMap (· ++ ['\n'])

/-- The lines of a text, the first after one margin and the others after another. -/
def underMargin (first others t : Text) : List Text :=
  match t.lines with
  | [] => []
  | line :: rest => (first ++ line) :: rest.map (others ++ ·)

/-- A position as it stands in a listing. -/
def Location.display (l : Location) : Text :=
  l.file.text ++ ":" ++ Text.decimal l.line ++ ":" ++ Text.decimal l.column

namespace Violation

/-- A violation with its place, its message and what to do about it, and a blank line below. -/
def paragraph (v : Violation) : List Text :=
  [v.code ++ " " ++ v.rule ++ " at " ++ v.location.display,
    "  " ++ v.severity.colour.paint v.severity.name ++ ": " ++ v.message] ++
  ((v.suggestion.map (underMargin "  = help: " "          ")).getD [] ++ [[]])

/-- A violation with the source line it is in, underlined from its column on. -/
def snippet (v : Violation) (text : Text) : List Text :=
  let d := v.diagnostic
  let line := (text.lines[v.location.line - 1]?).getD []
  let reach := min d.length (line.drop (v.location.column - 1)).length
  let number := Text.decimal v.location.line
  let margin : Text := List.replicate (number.length + 2) ' '
  underMargin "  × " "  │ " d.message ++
    [margin ++ "╭─[" ++ v.location.display ++ "]",
      " " ++ number ++ " │ " ++ line,
      margin ++ "· " ++ List.replicate (v.location.column - 1) ' ' ++
        List.replicate (max 1 reach) '─' ++ " " ++ d.label,
      margin ++ "╰────"] ++
    ((d.help.map (underMargin "  help: " "        ")).getD [] ++ [[]])

end Violation

/-! ## Listings of a report -/

namespace Report

/-- One line for each file that was changed. -/
def modifiedLines (r : Report) : List Text := r.filesFixed.map (("modified " : Text) ++ ·.text)

/-- The last line: a message if nothing was found, and else the number of violations of each
severity. -/
def summaryLine (r : Report) (cleanMessage : Text) : Text :=
  if r.violations.isEmpty then Colour.green.paint cleanMessage
  else
    (if r.hasErrors then Colour.red else Colour.yellow).paint <|
      "Found " ++ Text.decimal (r.count .error) ++ " error(s), " ++
        Text.decimal (r.count .warning) ++ " warning(s), " ++
        Text.decimal (r.count .info) ++ " info(s) in " ++
        Text.decimal r.filesChecked ++ " file(s)"

/-- Changed files, a paragraph for each violation, and the summary. -/
def textListing (r : Report) (cleanMessage : Text) : Text :=
  unlines (r.modifiedLines ++ r.violations.flatMap Violation.paragraph ++ [r.summaryLine cleanMessage])

/-- One line for each violation. -/
def compactListing (r : Report) : Text := unlines (r.violations.map Violation.display)

/-- Why a source could not be shown. -/
structure Unreadable where
  path : Path
  cause : AccessError
  deriving DecidableEq, Repr

/-- The snippets of violations, each in its file's text as it is now. -/
def snippets (t : FileTree) (root : Path) : List Violation → Except Unreadable (List Text)
  | [] => .ok []
  | v :: rest =>
    let path := root.join v.location.file
    match t.readText path with
    | .error cause => .error ⟨path, cause⟩
    | .ok text => (snippets t root rest).map (v.snippet text ++ ·)

/-- Changed files, a snippet for each violation, and the summary. Files are found below `root`. -/
def richListing (r : Report) (t : FileTree) (root : Path) (cleanMessage : Text) :
    Except Unreadable Text :=
  (snippets t root r.violations).map fun shown =>
    unlines (r.modifiedLines ++ shown ++ [r.summaryLine cleanMessage])

/-- The listing of a report in a format, without blanks at its end and with one line feed there. -/
def listing (r : Report) (format : Format) (t : FileTree) (root : Path) (cleanMessage : Text) :
    Except Unreadable Text := do
  let rendered ← match format with
    | .text => .ok (r.textListing cleanMessage)
    | .json => .ok r.toJson.pretty
    | .compact => .ok r.compactListing
    | .rich => r.richListing t root cleanMessage
  .ok (rendered.trimEnd ++ "\n")

end Report

end ContractLint
