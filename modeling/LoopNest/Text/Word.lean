import LoopNest.Text.Classes

/-! # Wrapping whole words

A name occurs as a whole word where a word boundary lies on both sides of it. Occurrences are found
from left to right, at each place the first of the names that fits, and do not overlap. The empty
name fits at every boundary that does not end an occurrence.
-/

namespace LoopNest.Text

/-- A boundary lies between a word character and anything else, the ends of the text included. -/
def isBoundary (before after : Option Char) : Bool :=
  before.any isWordChar != after.any isWordChar

/-- The first of the names that stands as a whole word at the head of a text, behind a given
character. -/
def wordHere? (names : List (List Char)) (before : Option Char) (cs : List Char) :
    Option (List Char) :=
  if isBoundary before cs.head? then
    names.find? fun name =>
      name.isPrefixOf cs &&
        isBoundary (name.getLast?.or before) (cs.drop name.length).head?
  else none

/-- Puts every whole occurrence of a name between `left` and `right`. The characters still to be
passed over belong to an occurrence that is written already, and `ended` says that one ends right
here. -/
def wrapFrom (names : List (List Char)) (left right : List Char) :
    Option Char → Nat → Bool → List Char → List Char
  | _, skip + 1, _, c :: cs => wrapFrom names left right (some c) skip true cs
  | _, _ + 1, _, [] => []
  | before, 0, ended, [] =>
    match wordHere? names before [] with
    | some name => if ended then [] else left ++ name ++ right
    | none => []
  | before, 0, ended, c :: cs =>
    match wordHere? names before (c :: cs) with
    | none => c :: wrapFrom names left right (some c) 0 false cs
    | some [] =>
      if ended then c :: wrapFrom names left right (some c) 0 false cs
      else left ++ right ++ c :: wrapFrom names left right (some c) 0 false cs
    | some (d :: name) =>
      left ++ d :: name ++ right ++ wrapFrom names left right (some c) name.length true cs

/-- A text with every whole occurrence of a name put between `left` and `right`. -/
def wrapWords (names : List String) (left right : String) (text : String) : String :=
  String.ofList
    (wrapFrom (names.map String.toList) left.toList right.toList none 0 false text.toList)

end LoopNest.Text
