/-! # Operators of the description language

Each operator has the symbol it is written with and the label under which trees are dumped.
-/

namespace LoopNest

/-- Operators that join two operands, also inside augmented assignments. -/
inductive BinaryOp where
  | add | sub | mult | div | floorDiv | mod | pow | matMult
  | bitXor | bitAnd | bitOr | shiftLeft | shiftRight
deriving DecidableEq, Inhabited

namespace BinaryOp

def symbol : BinaryOp → String
  | add => "+"
  | sub => "-"
  | mult => "*"
  | div => "/"
  | floorDiv => "//"
  | mod => "%"
  | pow => "**"
  | matMult => "@"
  | bitXor => "^"
  | bitAnd => "&"
  | bitOr => "|"
  | shiftLeft => "<<"
  | shiftRight => ">>"

def label : BinaryOp → String
  | add => "Add"
  | sub => "Sub"
  | mult => "Mult"
  | div => "Div"
  | floorDiv => "FloorDiv"
  | mod => "Mod"
  | pow => "Pow"
  | matMult => "MatMult"
  | bitXor => "BitXor"
  | bitAnd => "BitAnd"
  | bitOr => "BitOr"
  | shiftLeft => "LShift"
  | shiftRight => "RShift"

def all : List BinaryOp :=
  [add, sub, mult, div, floorDiv, mod, pow, matMult, bitXor, bitAnd, bitOr, shiftLeft, shiftRight]

/-- The operator of an augmented assignment, which is its symbol followed by an equals sign. -/
def ofAugmented? (lexeme : String) : Option BinaryOp :=
  all.find? fun op => op.symbol ++ "=" == lexeme

end BinaryOp

inductive CompareOp where
  | eq | ne | lt | le | gt | ge
deriving DecidableEq, Inhabited

namespace CompareOp

def symbol : CompareOp → String
  | eq => "=="
  | ne => "!="
  | lt => "<"
  | le => "<="
  | gt => ">"
  | ge => ">="

def label : CompareOp → String
  | eq => "Eq"
  | ne => "NotEq"
  | lt => "Lt"
  | le => "LtE"
  | gt => "Gt"
  | ge => "GtE"

def all : List CompareOp :=
  [eq, ne, lt, le, gt, ge]

end CompareOp

inductive UnaryOp where
  | neg | pos | not | invert
deriving DecidableEq, Inhabited

def UnaryOp.label : UnaryOp → String
  | neg => "USub"
  | pos => "UAdd"
  | not => "Not"
  | invert => "Invert"

/-- The operators that join truth values. -/
inductive Connective where
  | and | or
deriving DecidableEq, Inhabited

def Connective.label : Connective → String
  | and => "And"
  | or => "Or"

end LoopNest
