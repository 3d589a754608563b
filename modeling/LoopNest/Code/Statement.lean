import LoopNest.Error

/-! # C text of statements

An expression becomes the C expression with the same meaning. A power is a call of `pow`, both
divisions are one, a chain of comparisons is the conjunction of its neighbours, and parentheses stand
only where the precedences of C ask for them. Tuples outside of subscripts, displays and the matrix
product have no C text.
-/

namespace LoopNest

/-- The levels of C expressions, the loosest first. -/
inductive CLevel where
  | or | and | bitOr | bitXor | bitAnd | equality | relational | shift | additive | multiplicative
  | unary | postfixed
deriving DecidableEq, Inhabited

namespace CLevel

def rank : CLevel → Nat
  | or => 1
  | and => 2
  | bitOr => 3
  | bitXor => 4
  | bitAnd => 5
  | equality => 6
  | relational => 7
  | shift => 8
  | additive => 9
  | multiplicative => 10
  | unary => 11
  | postfixed => 12

/-- The level of a binary operation; a power is a call. -/
def ofBinary : BinaryOp → CLevel
  | .add | .sub => additive
  | .mult | .div | .floorDiv | .mod | .matMult => multiplicative
  | .pow => postfixed
  | .shiftLeft | .shiftRight => shift
  | .bitAnd => bitAnd
  | .bitXor => bitXor
  | .bitOr => bitOr

def ofCompare : CompareOp → CLevel
  | .eq | .ne => equality
  | _ => relational

def ofConnective : Connective → CLevel
  | .and => and
  | .or => or

end CLevel

/-- A C expression: its text and the level of its outermost operation. -/
structure CText where
  level : CLevel
  text : String
deriving Inhabited

namespace CText

def atom (text : String) : CText :=
  ⟨.postfixed, text⟩

def grouped (text : String) : String :=
  "(" ++ text ++ ")"

/-- The text as an operand that has to bind at least as tightly as `rank` says. -/
def operand (rank : Nat) (t : CText) : String :=
  if t.level.rank < rank then grouped t.text else t.text

def call (callee : String) (args : List String) : CText :=
  atom (callee ++ "(" ++ ", ".intercalate args ++ ")")

/-- A binary operation groups to the left, so its right operand has to bind tighter. -/
def binary (level : CLevel) (symbol : String) (left right : CText) : CText :=
  ⟨level, left.operand level.rank ++ " " ++ symbol ++ " " ++ right.operand (level.rank + 1)⟩

/-- The symbol of a sign or negation. -/
def signSymbol : UnaryOp → String
  | .neg => "-"
  | .pos => "+"
  | .invert => "~"
  | .not => "!"

/-- Two equal signs in a row would be another operator. -/
def clashes (op : UnaryOp) (operand : String) : Bool :=
  match op with
  | .neg => operand.toList.head? = some '-'
  | .pos => operand.toList.head? = some '+'
  | _ => false

def unary (op : UnaryOp) (t : CText) : CText :=
  let operand := t.operand CLevel.unary.rank
  ⟨.unary, signSymbol op ++ if clashes op operand then grouped operand else operand⟩

def connectiveSymbol : Connective → String
  | .and => "&&"
  | .or => "||"

def connect (op : Connective) (values : List CText) : CText :=
  let level := CLevel.ofConnective op
  ⟨level, (" " ++ connectiveSymbol op ++ " ").intercalate (values.map (operand level.rank))⟩

/-- The comparisons of neighbours in a chain. -/
def comparisons (left : CText) : List (CompareOp × CText) → List String
  | [] => []
  | (op, right) :: links =>
    (binary (.ofCompare op) op.symbol left right).text :: comparisons right links

/-- One comparison has its own level, more of them are a conjunction. -/
def chainLevel : List (CompareOp × CText) → CLevel
  | [(op, _)] => .ofCompare op
  | _ => .and

def compare (left : CText) (links : List (CompareOp × CText)) : CText :=
  ⟨chainLevel links, " && ".intercalate (comparisons left links)⟩

def subscript (base : CText) (index : List CText) : CText :=
  atom (base.operand CLevel.postfixed.rank ++ "[" ++
    ", ".intercalate (index.map (·.text)) ++ "]")

/-- The C operator of a binary operation. -/
def symbolOf : BinaryOp → Except CompileError String
  | .floorDiv => .ok "/"
  | .matMult => .error (.unsupported .matrixProduct)
  | op => .ok op.symbol

end CText

mutual

def Expr.cText : Expr → Except CompileError CText
  | .name _ text => .ok (.atom text)
  | .number _ text => .ok (.atom text)
  | .binary _ left .pow right => do
    let l ← left.cText
    let r ← right.cText
    return .call "pow" [l.text, r.text]
  | .binary _ left op right => do
    let symbol ← CText.symbolOf op
    let l ← left.cText
    let r ← right.cText
    return .binary (.ofBinary op) symbol l r
  | .unary _ op operand => do return .unary op (← operand.cText)
  | .connect _ op values => do return .connect op (← cTextAll values)
  | .compare _ left links => do
    let l ← left.cText
    return .compare l (← cTextLinks links)
  | .call _ callee args => do return .call callee ((← cTextAll args).map (·.text))
  | .subscript _ base (.tuple _ items) => do
    let b ← base.cText
    return .subscript b (← cTextAll items)
  | .subscript _ base index => do
    let b ← base.cText
    return .subscript b [← index.cText]
  | .tuple span _ => .error (.unsupported (.tupleValue span))
  | .list span _ => .error (.unsupported (.listValue span))
  | .dict span _ => .error (.unsupported (.dictValue span))

def cTextAll : List Expr → Except CompileError (List CText)
  | [] => .ok []
  | e :: es => do
    let t ← e.cText
    return t :: (← cTextAll es)

def cTextLinks : List (CompareOp × Expr) → Except CompileError (List (CompareOp × CText))
  | [] => .ok []
  | (op, e) :: links => do
    let t ← e.cText
    return (op, t) :: (← cTextLinks links)

end

/-- A tuple cannot be assigned to in C. -/
def Expr.cTarget (e : Expr) : Except CompileError String :=
  match e with
  | .tuple span _ => .error (.unsupported (.tupleTarget span))
  | _ => do return (← e.cText).text

/-- A statement without the semicolon at its end. -/
def Stmt.cText : Stmt → Except CompileError String
  | .assign _ [target] value => do
    let t ← target.cTarget
    return t ++ " = " ++ (← value.cText).text
  | .assign _ targets _ => .error (.unsupported (.targets targets.length))
  | .augment _ target op value => do
    let t ← target.cTarget
    let v ← value.cText
    match op with
    | .pow => return t ++ " = " ++ (CText.call "pow" [t, v.text]).text
    | op => return t ++ " " ++ (← CText.symbolOf op) ++ "= " ++ v.text
  | .eval _ value => do return (← value.cText).text

/-- The statements in order. -/
def cTextOfBody : List Stmt → Except CompileError (List String)
  | [] => .ok []
  | s :: ss => do
    let t ← s.cText
    return t :: (← cTextOfBody ss)

/-- A program with a statement on each line. -/
def Program.cText (p : Program) : Except CompileError String := do
  match ← cTextOfBody p.body with
  | [] => return ""
  | texts => return ";\n".intercalate texts ++ ";"

end LoopNest
