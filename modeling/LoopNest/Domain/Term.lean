import LoopNest.Error
import LoopNest.Names

/-! # Terms of a domain

A term is built from iterators, constants, literals, applications of functions and arithmetic. It is
written with the fewest parentheses that keep its shape: `**` groups to the right, every other
operator to the left.
-/

namespace LoopNest

inductive ArithOp where
  | add | sub | mul | div | mod | pow
deriving DecidableEq, Inhabited

namespace ArithOp

def symbol : ArithOp → String
  | add => "+"
  | sub => "-"
  | mul => "*"
  | div => "/"
  | mod => "%"
  | pow => "**"

def label : ArithOp → String
  | add => "Add"
  | sub => "Sub"
  | mul => "Mul"
  | div => "Div"
  | mod => "Mod"
  | pow => "Pow"

def all : List ArithOp :=
  [add, sub, mul, div, mod, pow]

/-- How tightly an operator binds. -/
def precedence : ArithOp → Nat
  | add | sub => 1
  | mul | div | mod => 2
  | pow => 3

/-- The arithmetic of the description language. Both divisions are one, and the operators on bits and
matrices have no counterpart. -/
def ofBinary? : BinaryOp → Option ArithOp
  | .add => some add
  | .sub => some sub
  | .mult => some mul
  | .div | .floorDiv => some div
  | .mod => some mod
  | .pow => some pow
  | _ => none

def ofBinary (op : BinaryOp) : Except CompileError ArithOp :=
  match ofBinary? op with
  | some op => .ok op
  | none => .error (.unsupportedOperator op.symbol)

end ArithOp

inductive Term where
  | iterator (name : String)
  | constant (name : String)
  | literal (text : String)
  | apply (function : String) (args : List Term)
  | arith (left : Term) (op : ArithOp) (right : Term)
deriving Inhabited

namespace Term

/-- A literal with a sign binds like a product. -/
def isSigned (text : String) : Bool :=
  text.toList.head? = some '-'

/-- How tightly a term holds together; what is not an operation holds tightest. -/
def precedence : Term → Nat
  | arith _ op _ => op.precedence
  | literal text => if isSigned text then 2 else 4
  | _ => 4

/-- Whether the left operand of an operation needs parentheses. -/
def groupsLeft (op : ArithOp) (operand : Term) : Bool :=
  if op = .pow then operand.precedence ≤ op.precedence else operand.precedence < op.precedence

/-- Whether the right operand of an operation needs parentheses. -/
def groupsRight (op : ArithOp) (operand : Term) : Bool :=
  if op = .pow then operand.precedence < op.precedence else operand.precedence ≤ op.precedence

def group (needed : Bool) (text : String) : String :=
  if needed then "(" ++ text ++ ")" else text

mutual

def text : Term → String
  | iterator name => name
  | constant name => name
  | literal text => text
  | apply function args => function ++ "(" ++ ", ".intercalate (textAll args) ++ ")"
  | arith left op right =>
    group (groupsLeft op left) left.text ++ " " ++ op.symbol ++ " " ++
      group (groupsRight op right) right.text

def textAll : List Term → List String
  | [] => []
  | t :: ts => t.text :: textAll ts

end

mutual

/-- The iterators and constants of a term from left to right, with repetitions. -/
def symbols : Term → List String
  | iterator name => [name]
  | constant name => [name]
  | literal _ => []
  | apply _ args => symbolsAll args
  | arith left _ right => left.symbols ++ right.symbols

def symbolsAll : List Term → List String
  | [] => []
  | t :: ts => t.symbols ++ symbolsAll ts

end

/-- The symbols of the operands and arguments of a term. -/
def innerSymbols : Term → List String
  | apply _ args => symbolsAll args
  | arith left _ right => left.symbols ++ right.symbols
  | _ => []

mutual

/-- The constants of a term from left to right, with repetitions. -/
def constants : Term → List String
  | iterator _ => []
  | constant name => [name]
  | literal _ => []
  | apply _ args => constantsAll args
  | arith left _ right => left.constants ++ right.constants

def constantsAll : List Term → List String
  | [] => []
  | t :: ts => t.constants ++ constantsAll ts

end

/-- What a walk does at the named leaves that it meets. -/
structure Visitor (σ : Type) where
  iterator : String → σ → σ
  constant : String → σ → σ

/-- Constants are kept at their first appearance, iterators are passed by. -/
def Visitor.constants : Visitor (List String) where
  iterator _ names := names
  constant name names := Names.insert names name

mutual

/-- A visitor meets the leaves of a term from left to right. -/
def walk {σ : Type} (v : Visitor σ) : Term → σ → σ
  | iterator name, state => v.iterator name state
  | constant name, state => v.constant name state
  | literal _, state => state
  | apply _ args, state => walkAll v args state
  | arith left _ right, state => right.walk v (left.walk v state)

def walkAll {σ : Type} (v : Visitor σ) : List Term → σ → σ
  | [], state => state
  | t :: ts, state => walkAll v ts (t.walk v state)

end

mutual

theorem walk_constants (t : Term) (names : List String) :
    t.walk .constants names = Names.union names t.constants := by
  cases t with
  | apply function args => rw [walk, constants, walkAll_constants args]
  | arith left op right =>
    rw [walk, constants, walk_constants left, walk_constants right, Names.union_append]
  | _ => rfl

theorem walkAll_constants (ts : List Term) (names : List String) :
    walkAll .constants ts names = Names.union names (constantsAll ts) := by
  cases ts with
  | nil => rfl
  | cons t ts =>
    rw [walkAll, constantsAll, walk_constants t, walkAll_constants ts, Names.union_append]

end

/-- A term with its sign changed by multiplication. -/
def negate (t : Term) : Term :=
  .arith (.literal "-1") .mul t

end Term

end LoopNest
