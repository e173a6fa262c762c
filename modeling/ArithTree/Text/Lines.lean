/-!
# Lines

A line ends with a line feed, a carriage return, or a carriage return and a line feed together. What
follows the last end is a line too unless it is empty, so an empty text has no lines.
-/

namespace ArithTree

/-- The lines of a text, without their ends. -/
def lines : List Char → List (List Char)
  | [] => []
  | '\r' :: '\n' :: cs => [] :: lines cs
  | '\r' :: cs => [] :: lines cs
  | '\n' :: cs => [] :: lines cs
  | c :: cs =>
    match lines cs with
    | [] => [[c]]
    | l :: ls => (c :: l) :: ls

example : lines "a\r\nb\rc\n\nd".toList = [['a'], ['b'], ['c'], [], ['d']] := by decide

end ArithTree
