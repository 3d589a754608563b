import LoopNest.Text.Classes
import LoopNest.Token.Basic

/-! # Scanning a text into tokens

Between tokens lie gaps: blanks, comments, escaped newlines and, inside brackets, newlines. After a
gap the longest lexeme is read. What starts no lexeme is a fault; scanning can go on behind it, so a
text becomes a list of items, each a token or a fault, of which the last is the end of the input.
-/

namespace LoopNest

/-- Why a stretch of text is no token. -/
inductive ScanError.Cause where
  | unexpectedCharacter (c : Char)
  | malformedExponent
  | digitBeforeName
  | unmatched (bracket : Bracket)
deriving DecidableEq, Inhabited

def ScanError.Cause.message : ScanError.Cause → String
  | unexpectedCharacter c => "Unexpected character: '" ++ String.singleton c ++ "'"
  | malformedExponent => "Invalid floating-point exponent"
  | digitBeforeName => "Identifier cannot start with a digit"
  | unmatched b => "Unmatched '" ++ b.rightSymbol ++ "'"

structure ScanError where
  cause : ScanError.Cause
  span : Span
deriving DecidableEq, Inhabited

def ScanError.message (e : ScanError) : String :=
  e.cause.message ++ " at " ++ e.span.text

namespace Scan

/-- The gap at the head of a text, inside the given number of brackets. A comment runs up to the
newline that ends its line. -/
def gap (depth : Nat) (comment : Bool) : List Char → List Char
  | [] => []
  | c :: cs =>
    if comment && c != '\n' then c :: gap depth true cs
    else if c = '#' then c :: gap depth true cs
    else if c = ' ' || c = '\t' || c = '\r' then c :: gap depth false cs
    else if c = '\n' && 0 < depth then c :: gap depth false cs
    else if c = '\\' then
      match cs with
      | '\n' :: rest => '\\' :: '\n' :: gap depth false rest
      | _ => []
    else []

/-- The lexemes that are always spelled the same, the longer ones first. -/
def spellings : List (List Char × Token.Kind) :=
  [(['*', '*', '='], .augmented .pow), (['/', '/', '='], .augmented .floorDiv),
   (['<', '<', '='], .augmented .shiftLeft), (['>', '>', '='], .augmented .shiftRight),
   (['*', '*'], .binary .pow), (['/', '/'], .binary .floorDiv),
   (['<', '<'], .binary .shiftLeft), (['>', '>'], .binary .shiftRight),
   (['&', '&'], .ampAmp), (['|', '|'], .pipePipe),
   (['=', '='], .compare .eq), (['!', '='], .compare .ne),
   (['<', '='], .compare .le), (['>', '='], .compare .ge),
   (['+', '='], .augmented .add), (['-', '='], .augmented .sub),
   (['*', '='], .augmented .mult), (['/', '='], .augmented .div),
   (['%', '='], .augmented .mod), (['@', '='], .augmented .matMult),
   (['^', '='], .augmented .bitXor), (['&', '='], .augmented .bitAnd),
   (['|', '='], .augmented .bitOr),
   (['+'], .binary .add), (['-'], .binary .sub), (['*'], .binary .mult), (['/'], .binary .div),
   (['%'], .binary .mod), (['@'], .binary .matMult), (['^'], .binary .bitXor),
   (['&'], .binary .bitAnd), (['|'], .binary .bitOr), (['~'], .tilde),
   (['<'], .compare .lt), (['>'], .compare .gt), (['!'], .bang), (['='], .equal),
   (['('], .left .round), (['['], .left .square), (['{'], .left .curly),
   ([')'], .right .round), ([']'], .right .square), (['}'], .right .curly),
   ([','], .comma), ([':'], .colon), ([';'], .semicolon), (['\n'], .newline)]

/-- The spelling a text starts with. -/
def spelling? (cs : List Char) : Option (List Char × Token.Kind) :=
  spellings.find? fun s => s.1.isPrefixOf cs

/-- A stretch of text and what it is. -/
structure Lexeme where
  text : List Char
  outcome : Except ScanError.Cause Token.Kind

def startsWithDigit : List Char → Bool
  | c :: _ => c.isDigit
  | [] => false

/-- A point with the digits after it, of which there is at least one. -/
def fraction (cs : List Char) : List Char :=
  match cs with
  | '.' :: rest => if startsWithDigit rest then '.' :: rest.takeWhile Char.isDigit else []
  | _ => []

/-- The letter of an exponent with its sign. -/
def exponentHead (cs : List Char) : List Char :=
  match cs with
  | e :: rest =>
    if e = 'e' || e = 'E' then
      match rest with
      | s :: _ => if s = '+' || s = '-' then [e, s] else [e]
      | [] => [e]
    else []
  | [] => []

/-- The number at the head of a text: digits, a fraction and an exponent, each optional. An exponent
without digits is a fault, and so is a name that follows with nothing between. -/
def number (cs : List Char) : Lexeme :=
  let whole := cs.takeWhile Char.isDigit
  let point := fraction (cs.drop whole.length)
  let mantissa := whole ++ point
  let head := exponentHead (cs.drop mantissa.length)
  let digits := (cs.drop (mantissa.length + head.length)).takeWhile Char.isDigit
  if !head.isEmpty && digits.isEmpty then
    ⟨mantissa ++ head, .error .malformedExponent⟩
  else
    let text := mantissa ++ if head.isEmpty then [] else head ++ digits
    match cs.drop text.length with
    | c :: _ =>
      if Text.isIdentifierStart c || c = '_' then ⟨text ++ [c], .error .digitBeforeName⟩
      else ⟨text, .ok (if point.isEmpty && head.isEmpty then .integer else .float)⟩
    | [] => ⟨text, .ok (if point.isEmpty && head.isEmpty then .integer else .float)⟩

/-- The name or keyword that a character starts. -/
def identifier (c : Char) (cs : List Char) : Lexeme :=
  let text := c :: cs.takeWhile fun d => Text.isIdentifierContinue d || d = '_'
  ⟨text, .ok ((Token.Kind.keyword? (String.ofList text)).getD .identifier)⟩

/-- A closing bracket is a token only where one is open. -/
def balanced (depth : Nat) : Token.Kind → Except ScanError.Cause Token.Kind
  | .right b => if depth = 0 then .error (.unmatched b) else .ok (.right b)
  | kind => .ok kind

/-- The lexeme at the head of a text; the empty text has none. -/
def lexeme? (depth : Nat) : List Char → Option Lexeme
  | [] => none
  | c :: cs =>
    match spelling? (c :: cs) with
    | some (text, kind) => some ⟨text, balanced depth kind⟩
    | none =>
      if c.isDigit || (c = '.' && startsWithDigit cs) then some (number (c :: cs))
      else if Text.isIdentifierStart c || c = '_' then some (identifier c cs)
      else some ⟨[c], .error (.unexpectedCharacter c)⟩

/-- How many brackets are open behind a token. -/
def depthAfter (depth : Nat) : Token.Kind → Nat
  | .left _ => depth + 1
  | .right _ => depth - 1
  | _ => depth

/-- What scanning yields: a token, or a fault it can go on from. -/
inductive Item where
  | token (t : Token)
  | fault (e : ScanError)
deriving DecidableEq, Inhabited

def Item.span : Item → Span
  | token t => t.span
  | fault e => e.span

def Item.isEnd : Item → Bool
  | token t => t.isEnd
  | fault _ => false

end Scan

/-- A place in a text from which scanning goes on. -/
structure Scanner where
  rest : List Char
  place : Location
  depth : Nat
  finished : Bool
deriving DecidableEq, Inhabited

namespace Scanner

def ofText (text : List Char) : Scanner :=
  ⟨text, Location.start, 0, false⟩

/-- The next item and the scanner behind it. At the end of the text this is the end of the input,
however often it is asked for. -/
def next (s : Scanner) : Scan.Item × Scanner :=
  let gap := Scan.gap s.depth false s.rest
  let rest := s.rest.drop gap.length
  let start := s.place.after gap
  match Scan.lexeme? s.depth rest with
  | none => (.token ⟨.endOfInput, ⟨start, start⟩, ""⟩, ⟨rest, start, s.depth, true⟩)
  | some l =>
    let stop := start.after l.text
    let rest := rest.drop l.text.length
    match l.outcome with
    | .ok kind =>
      (.token ⟨kind, ⟨start, stop⟩, String.ofList l.text⟩,
        ⟨rest, stop, Scan.depthAfter s.depth kind, s.finished⟩)
    | .error cause => (.fault ⟨cause, ⟨start, stop⟩⟩, ⟨rest, stop, s.depth, s.finished⟩)

/-- The items up to the end of the input, at most `n` of them, and the scanner behind the last. -/
def run : Nat → Scanner → List Scan.Item × Scanner
  | 0, s => ([], s)
  | n + 1, s =>
    let (item, s) := s.next
    if item.isEnd then ([item], s)
    else
      let (items, s) := run n s
      (item :: items, s)

end Scanner

namespace Scan

/-- The items of a text. Each but the end takes a character at least, so one more than there are
characters is enough. -/
def items (source : String) : List Item :=
  let text := source.toList
  ((Scanner.ofText text).run (text.length + 1)).1

/-- The tokens before the first fault, or that fault. -/
def tokensOf : List Item → Except ScanError (List Token)
  | [] => .ok []
  | .token t :: rest =>
    match tokensOf rest with
    | .ok ts => .ok (t :: ts)
    | .error e => .error e
  | .fault e :: _ => .error e

/-- The tokens of a text in which nothing is a fault. -/
def tokens (source : String) : Except ScanError (List Token) :=
  tokensOf (items source)

end Scan

end LoopNest
