import ContractLint.Text.Basic

/-!
# Lines

A line ends at a line feed, which takes one carriage return right before it along. What follows the
last line feed is a line of its own unless it is empty; it keeps its carriage returns.
-/

namespace ContractLint.Text

/-- The lines of a text, without their ends. -/
def lines : Text → List Text
  | [] => []
  | '\n' :: t => [] :: lines t
  | '\r' :: '\n' :: t => [] :: lines t
  | c :: t =>
    match lines t with
    | [] => [[c]]
    | line :: rest => (c :: line) :: rest

example : lines "a\r\n\nb\r" = [['a'], [], ['b', '\r']] := by decide

end ContractLint.Text
