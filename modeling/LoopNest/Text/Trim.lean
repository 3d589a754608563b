import LoopNest.Text.Classes

/-! # Trimming and cutting texts -/

namespace LoopNest.Text

/-- The text without the characters at both its ends for which `p` holds. -/
def trimMatches (p : Char → Bool) (cs : List Char) : List Char :=
  ((cs.dropWhile p).reverse.dropWhile p).reverse

/-- The text without the blanks at both its ends. -/
def trim (cs : List Char) : List Char :=
  trimMatches isBlank cs

/-- The first word of a text between blanks. -/
def firstWord? (cs : List Char) : Option (List Char) :=
  match (cs.dropWhile isBlank).takeWhile fun c => !isBlank c with
  | [] => none
  | w => some w

/-- The text cut around the first `c`, which is left out. -/
def cutAt? (c : Char) (cs : List Char) : Option (List Char × List Char) :=
  match cs.dropWhile (· != c) with
  | [] => none
  | _ :: after => some (cs.takeWhile (· != c), after)

/-- The text before the last `c`. -/
def beforeLast? (c : Char) (cs : List Char) : Option (List Char) :=
  match cs.reverse.dropWhile (· != c) with
  | [] => none
  | _ :: before => some before.reverse

/-- The text inside the first `left` and the last `right`, which have to stand in this order. -/
def between? (left right : Char) (cs : List Char) : Option (List Char) :=
  match cutAt? left cs with
  | none => none
  | some (_, after) => beforeLast? right after

/-- Whether a word is a stretch of a text. -/
def occursIn (word : List Char) : List Char → Bool
  | [] => word.isEmpty
  | c :: cs => word.isPrefixOf (c :: cs) || occursIn word cs

end LoopNest.Text
