/-! # Lines of a text

A newline ends a line, a carriage return right before it belongs to the end, and a text that ends in
a newline has no empty last line.
-/

namespace LoopNest.Source

/-- A line without the carriage return of its ending. -/
def dropReturn (line : List Char) : List Char :=
  if line.getLast? = some '\r' then line.dropLast else line

/-- The lines that the stretches between newlines are. The last stretch, which no newline ends, is a
line only if it holds something, and it keeps a carriage return. -/
def endLines : List (List Char) → List (List Char)
  | [] => []
  | [l] => if l.isEmpty then [] else [l]
  | l :: ls => dropReturn l :: endLines ls

/-- The lines of a text. -/
def lines (text : String) : List String :=
  (endLines (text.toList.splitOn '\n')).map String.ofList

/-- The line with a given number, counted from one. -/
def line? (text : String) (number : Nat) : Option String :=
  match number with
  | 0 => none
  | n + 1 => (lines text)[n]?

end LoopNest.Source
