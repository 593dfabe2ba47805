import ContractLint.Listing

/-!
# The first settings file

The settings file that a new project starts from. It says what the defaults say, with comments.
-/

namespace ContractLint.Settings

/-- The section on where files are. -/
def layoutLines : List Text := [
  "# sollint configuration",
  "",
  "[analyzer]",
  "# Project root, relative to where sollint runs (default: current directory)",
  "# root = \".\"",
  "",
  "# Where contract sources and test files live, relative to root",
  "contracts_dir = \"contracts\"",
  "tests_dir = \"test\"",
  "",
  "# File name patterns",
  "contract_pattern = \"*.sol\"",
  "test_pattern = \"*.js\"",
  "",
  "# One path substring per line; matching contracts are not linted.",
  "# The file must exist when running `sollint contracts`.",
  "ignore_file = \".soliumignore\"",
  "",
  "# Respect .gitignore files while walking",
  "respect_gitignore = false",
  ""]

/-- The sections on headers, tests and coverage runs. -/
def contentLines : List Text := [
  "[header]",
  "author = \"dYdX\"",
  "solidity_version = \"0.5.7\"",
  "",
  "[tests]",
  "forbidden_marker = \".only(\"",
  "",
  "[coverage]",
  "# \"guard\": insert `if (<condition>) \x7b /* FOR COVERAGE TESTING */ \x7d` above",
  "#          each Require.that call",
  "# \"inline\": rename Require.that to require and comment out its payload",
  "precondition_style = \"guard\"",
  ""]

/-- The section on rules. -/
def ruleLines : List Text := [
  "# Rule configurations",
  "# Each rule can be enabled/disabled and have its severity overridden",
  "",
  "[rules.import-order]",
  "enabled = true",
  "",
  "[rules.file-header]",
  "enabled = true",
  "",
  "[rules.function-comments]",
  "enabled = true",
  "# severity = \"warning\"  # Override default severity",
  "",
  "[rules.no-exclusive-tests]",
  "enabled = true"]

/-- The text of the file. -/
def template : Text := unlines (layoutLines ++ contentLines ++ ruleLines)

end ContractLint.Settings
