import ContractLint.Text.Basic

/-!
# TOML values

The tables of a document are built up by headers, by dotted keys and by inline tables. Each table
remembers how it came about (`TableOrigin`), because that decides whether later lines may add to it:
a table named by a header is complete at the next header, dotted keys may only extend tables that
dotted keys made, and inline tables are closed.
-/

namespace ContractLint.Toml

/-- How a table came about. -/
inductive TableOrigin where
  /-- Named by a header of its own. -/
  | header
  /-- Named only at the start of longer headers. -/
  | implied
  /-- Named only at the start of dotted keys. -/
  | dotted
  /-- Written in braces. -/
  | inline
  deriving DecidableEq, Repr

/-- A TOML value. Floats and dates are kept as they were written. -/
inductive Value where
  | string (text : Text)
  | integer (value : Int)
  | float (text : Text)
  | boolean (value : Bool)
  | dateTime (text : Text)
  | array (items : List Value)
  | table (origin : TableOrigin) (entries : List (Text × Value))
  /-- An array of tables grown by double-bracket headers. -/
  | tables (elements : List (List (Text × Value)))

/-- The keys of a table with their values, in the order they were first set. -/
abbrev Entries := List (Text × Value)

namespace Entries

/-- The value of a key. -/
def get? (entries : Entries) (key : Text) : Option Value := entries.lookup key

/-- Sets the value of a key that is already there. -/
def replace (entries : Entries) (key : Text) (value : Value) : Entries :=
  entries.map fun (k, v) => if k = key then (k, value) else (k, v)

/-- Changes the table that a path of keys leads to. Tables on the way that do not exist are made. A
path may lead through the last element of an array of tables, but not into any other value; a path
of a dotted key (`dotted`) may not enter a table that has a header. -/
def modifyAt (dotted : Bool) (f : TableOrigin → Entries → Option Entries) :
    List Text → TableOrigin → Entries → Option Entries
  | [], origin, entries => f origin entries
  | key :: path, _, entries =>
    match entries.get? key with
    | none => do
      let origin := if dotted then TableOrigin.dotted else .implied
      let inner ← modifyAt dotted f path origin []
      some (entries ++ [(key, .table origin inner)])
    | some (.table origin inner) =>
      if origin = .inline || dotted && origin = .header then none
      else do
        let inner ← modifyAt dotted f path origin inner
        some (entries.replace key (.table origin inner))
    | some (.tables elements) => do
      let inner ← modifyAt dotted f path .header (elements.getLast?.getD [])
      some (entries.replace key (.tables (elements.dropLast ++ [inner])))
    | some _ => none

/-- Sets a new key, given with the path of its dotted key. -/
def insert (path : List Text) (key : Text) (value : Value) (entries : Entries) : Option Entries :=
  modifyAt true (fun origin inner =>
    if !path.isEmpty && origin ≠ .dotted || (inner.get? key).isSome then none
    else some (inner ++ [(key, value)])) path .header entries

/-- Starts the table of a header. The key may have been implied by an earlier header, but not set. -/
def define (path : List Text) (key : Text) (entries : Entries) : Option Entries :=
  modifyAt false (fun _ inner =>
    match inner.get? key with
    | none => some (inner ++ [(key, .table .header [])])
    | some (.table .implied sub) => some (inner.replace key (.table .header sub))
    | some _ => none) path .header entries

/-- Starts the next table of an array of tables. -/
def defineNext (path : List Text) (key : Text) (entries : Entries) : Option Entries :=
  modifyAt false (fun _ inner =>
    match inner.get? key with
    | none => some (inner ++ [(key, .tables [[]])])
    | some (.tables elements) => some (inner.replace key (.tables (elements ++ [[]])))
    | some _ => none) path .header entries

end Entries

end ContractLint.Toml
