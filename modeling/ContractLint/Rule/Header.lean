import ContractLint.Rule.Finding
import ContractLint.SourceView

/-!
# File headers

Every contract file states its title and author in a comment and fixes the compiler version. The
lines are compared as a whole and may stand anywhere in the file.
-/

namespace ContractLint

/-- What the header of a contract file should say. -/
structure Header where
  author : Text := "dYdX"
  solidityVersion : Text := "0.5.7"
  deriving DecidableEq, Repr

namespace Header

/-- The required lines, each with the complaint when it is missing. -/
def requirements (h : Header) (s : Source) : List (Text × Text) :=
  [(" * @title " ++ s.fileStem, "No title (or incorrect title) line in " ++ s.fileName),
    (" * @author " ++ h.author, "No author (or incorrect author) line in " ++ s.fileName),
    (" *", "Unlikely to be a proper file-level comment in " ++ s.fileName),
    ("pragma solidity " ++ h.solidityVersion ++ ";",
      "Unlikely to be using solidity version " ++ h.solidityVersion ++ " in " ++ s.fileName),
    ("pragma experimental ABIEncoderV2;", "Must use ABIEncoderV2 in " ++ s.fileName)]

/-- What is missing from a file's header. -/
def findings (h : Header) (v : SourceView) : List Finding :=
  ((h.requirements v.source).filter fun (line, _) => !v.source.containsLine line).map
    fun (line, message) =>
      { line := 1, message, suggestion := some ("Add the line `" ++ line ++ "`") }

end Header

end ContractLint
