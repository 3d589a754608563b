import LoopNest.Operator
import LoopNest.Source.Span

/-! # Tokens

A token is a stretch of the source with its kind. Every kind has a name, used in messages, and a
label, used where token lists are dumped.
-/

namespace LoopNest

inductive Bracket where
  | round | square | curly
deriving DecidableEq, Inhabited

namespace Bracket

def leftSymbol : Bracket → String
  | round => "("
  | square => "["
  | curly => "\x7b"

def rightSymbol : Bracket → String
  | round => ")"
  | square => "]"
  | curly => "\x7d"

end Bracket

inductive Token.Kind where
  | integer | float | identifier
  | and | or | not
  | binary (op : BinaryOp)
  | tilde
  | compare (op : CompareOp)
  | ampAmp | pipePipe | bang
  | equal
  | augmented (op : BinaryOp)
  | left (bracket : Bracket)
  | right (bracket : Bracket)
  | comma | colon | semicolon
  | newline
  | endOfInput
deriving DecidableEq, Inhabited

namespace Token.Kind

/-- The keywords; every other identifier is a name. -/
def keyword? (s : String) : Option Kind :=
  if s = "and" then some .and
  else if s = "or" then some .or
  else if s = "not" then some .not
  else none

def isComparison : Kind → Bool
  | compare _ => true
  | _ => false

/-- The kinds that end a statement. -/
def isTerminator : Kind → Bool
  | newline | semicolon | endOfInput => true
  | _ => false

/-- How messages name a token of this kind. -/
def name : Kind → String
  | integer => "integer"
  | float => "float"
  | identifier => "identifier"
  | and => "and"
  | or => "or"
  | not => "not"
  | binary op => op.symbol
  | tilde => "~"
  | compare op => op.symbol
  | ampAmp => "&&"
  | pipePipe => "||"
  | bang => "!"
  | equal => "="
  | augmented _ => "augmented assignment"
  | left b => b.leftSymbol
  | right b => b.rightSymbol
  | comma => ","
  | colon => ":"
  | semicolon => ";"
  | newline => "newline"
  | endOfInput => "end of input"

/-- The label of the token that writes a binary operator. -/
def binaryLabel : BinaryOp → String
  | .add => "Plus"
  | .sub => "Minus"
  | .mult => "Star"
  | .div => "Slash"
  | .floorDiv => "SlashSlash"
  | .mod => "Percent"
  | .pow => "StarStar"
  | .matMult => "At"
  | .bitXor => "Caret"
  | .bitAnd => "Amp"
  | .bitOr => "Pipe"
  | .shiftLeft => "LessLess"
  | .shiftRight => "GreaterGreater"

/-- The label of the token that writes a comparison. -/
def compareLabel : CompareOp → String
  | .eq => "EqualEqual"
  | .ne => "BangEqual"
  | .lt => "Less"
  | .le => "LessEqual"
  | .gt => "Greater"
  | .ge => "GreaterEqual"

def label : Kind → String
  | integer => "Integer"
  | float => "Float"
  | identifier => "Identifier"
  | and => "And"
  | or => "Or"
  | not => "Not"
  | binary op => binaryLabel op
  | tilde => "Tilde"
  | compare op => compareLabel op
  | ampAmp => "AmpAmp"
  | pipePipe => "PipePipe"
  | bang => "Bang"
  | equal => "Equal"
  | augmented _ => "AugAssign"
  | left .round => "LeftParen"
  | right .round => "RightParen"
  | left .square => "LeftBracket"
  | right .square => "RightBracket"
  | left .curly => "LeftBrace"
  | right .curly => "RightBrace"
  | comma => "Comma"
  | colon => "Colon"
  | semicolon => "Semicolon"
  | newline => "Newline"
  | endOfInput => "Eof"

end Token.Kind

structure Token where
  kind : Token.Kind
  span : Span
  lexeme : String
deriving DecidableEq, Inhabited

namespace Token

def isEnd (t : Token) : Bool :=
  t.kind = .endOfInput

/-- A token as it is dumped: its label, and its lexeme in parentheses. -/
def text (t : Token) : String :=
  t.kind.label ++ "(" ++ t.lexeme ++ ")"

end Token

end LoopNest
