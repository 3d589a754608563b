import LoopNest.Text.Additions
import LoopNest.Text.Letters
import LoopNest.Text.Marks
import LoopNest.Text.Numbers

/-! # Classes of characters

Identifiers follow the Unicode identifier profile closed under compatibility decomposition, words
follow the Unicode word class of regular expressions, and blanks are the characters with the
property `White_Space`. Identifiers and words are those of version 16.0 of the standard, letters and
numbers in general those of version 17.0. Below code point 128 every class is decided directly; the
tables speak of the rest.
-/

namespace LoopNest.Text

/-- The characters whose code point is below 128. -/
def isAscii (c : Char) : Bool :=
  c.toNat < 128

/-- An ASCII letter or digit. -/
def isAsciiAlphanumeric (c : Char) : Bool :=
  c.isAlpha || c.isDigit

/-- Characters that join words: the underscore and its relatives. -/
def connectors : Ranges :=
  [(0x203F, 0x2040), (0x2054, 0x2054), (0xFE33, 0xFE34), (0xFE4D, 0xFE4F), (0xFF3F, 0xFF3F)]

/-- Letters drawn inside a circle or a square. -/
def framedLetters : Ranges :=
  [(0x24B6, 0x24E9), (0x1F130, 0x1F149), (0x1F150, 0x1F169), (0x1F170, 0x1F189)]

/-- The two invisible characters that control joining. -/
def joinControls : Ranges :=
  [(0x200C, 0x200D)]

/-- Letters that cannot occur in an identifier, because their decompositions could not. -/
def decomposingLetters : Ranges :=
  [(0x37A, 0x37A), (0x2E2F, 0x2E2F), (0xFC5E, 0xFC63), (0xFDFA, 0xFDFB), (0xFE70, 0xFE70),
   (0xFE72, 0xFE72), (0xFE74, 0xFE74), (0xFE76, 0xFE76), (0xFE78, 0xFE78), (0xFE7A, 0xFE7A),
   (0xFE7C, 0xFE7C), (0xFE7E, 0xFE7E)]

/-- Letters that can continue an identifier and cannot start one. -/
def continuingLetters : Ranges :=
  [(0xE33, 0xE33), (0xEB3, 0xEB3), (0xFF9E, 0xFF9F)]

/-- Characters that start identifiers without being letters. -/
def otherStarts : Ranges :=
  [(0x1885, 0x1886), (0x2118, 0x2118), (0x212E, 0x212E)]

/-- Characters that continue identifiers without being letters, marks, digits or connectors. -/
def otherContinues : Ranges :=
  [(0xB7, 0xB7), (0x387, 0x387), (0x1369, 0x1371), (0x19DA, 0x19DA), (0x200C, 0x200D),
   (0x30FB, 0x30FB), (0xFF65, 0xFF65)]

/-- The characters that can start an identifier, the underscore apart. -/
def isIdentifierStart (c : Char) : Bool :=
  if isAscii c then c.isAlpha
  else
    letters.contains c && !decomposingLetters.contains c && !continuingLetters.contains c ||
      otherStarts.contains c

/-- The characters that can continue an identifier. -/
def isIdentifierContinue (c : Char) : Bool :=
  if isAscii c then isAsciiAlphanumeric c || c = '_'
  else
    (letters.contains c || marks.contains c || decimalDigits.contains c || connectors.contains c ||
        otherStarts.contains c || otherContinues.contains c) &&
      !decomposingLetters.contains c

/-- Letters, and the marks and symbols that count as letters. -/
def isAlphabetic (c : Char) : Bool :=
  if isAscii c then c.isAlpha
  else letters.contains c || alphabeticMarks.contains c || framedLetters.contains c

/-- Alphabetic characters and numbers of every kind, the latest ones included. -/
def isAlphanumeric (c : Char) : Bool :=
  if isAscii c then isAsciiAlphanumeric c
  else
    isAlphabetic c || decimalDigits.contains c || otherNumbers.contains c ||
      addedAlphanumerics.contains c

/-- The characters words are made of: a word boundary lies between one of these and any other
character. -/
def isWordChar (c : Char) : Bool :=
  if isAscii c then isAsciiAlphanumeric c || c = '_'
  else
    isAlphabetic c || marks.contains c || enclosingMarks.contains c || decimalDigits.contains c ||
      connectors.contains c || joinControls.contains c

/-- The blanks, which trimming removes. -/
def blanks : Ranges :=
  [(0x9, 0xD), (0x20, 0x20), (0x85, 0x85), (0xA0, 0xA0), (0x1680, 0x1680), (0x2000, 0x200A),
   (0x2028, 0x2029), (0x202F, 0x202F), (0x205F, 0x205F), (0x3000, 0x3000)]

def isBlank (c : Char) : Bool :=
  blanks.contains c

end LoopNest.Text
