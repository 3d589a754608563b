import LoopNest.Operator
import LoopNest.Source.Span

/-! # Programs

A program is a list of statements over expressions. A comparison keeps its whole chain, so
`0 <= i < N` is one comparison with two links. Parentheses are not kept; every node knows its span.
-/

namespace LoopNest

inductive Expr where
  | name (span : Span) (text : String)
  | number (span : Span) (text : String)
  | binary (span : Span) (left : Expr) (op : BinaryOp) (right : Expr)
  | unary (span : Span) (op : UnaryOp) (operand : Expr)
  | connect (span : Span) (op : Connective) (values : List Expr)
  | compare (span : Span) (left : Expr) (links : List (CompareOp × Expr))
  | call (span : Span) (callee : String) (args : List Expr)
  | subscript (span : Span) (base : Expr) (index : Expr)
  | tuple (span : Span) (items : List Expr)
  | list (span : Span) (items : List Expr)
  | dict (span : Span) (entries : List (Expr × Expr))
deriving Inhabited

/-- The kind of an expression, as messages name it. -/
inductive Expr.Form where
  | name | number | binary | unary | connect | compare | call | subscript | tuple | list | dict
deriving DecidableEq, Inhabited

def Expr.Form.text : Expr.Form → String
  | name => "name"
  | number => "number"
  | binary => "binary operation"
  | unary => "unary operation"
  | connect => "boolean operation"
  | compare => "comparison"
  | call => "call"
  | subscript => "subscript"
  | tuple => "tuple"
  | list => "list"
  | dict => "dict display"

namespace Expr

def span : Expr → Span
  | name s _ | number s _ | binary s _ _ _ | unary s _ _ | connect s _ _ | compare s _ _
  | call s _ _ | subscript s _ _ | tuple s _ | list s _ | dict s _ => s

def form : Expr → Form
  | name .. => .name
  | number .. => .number
  | binary .. => .binary
  | unary .. => .unary
  | connect .. => .connect
  | compare .. => .compare
  | call .. => .call
  | subscript .. => .subscript
  | tuple .. => .tuple
  | list .. => .list
  | dict .. => .dict

/-- A binary operation over the span of its operands. -/
def join (left : Expr) (op : BinaryOp) (right : Expr) : Expr :=
  .binary (left.span.merge right.span) left op right

def name? : Expr → Option String
  | name _ text => some text
  | _ => none

/-- The operator `^` joins the constraints of a domain. -/
def isConjunction : Expr → Bool
  | binary _ _ .bitXor _ => true
  | _ => false

/-- A tuple used as an index has its items as components, anything else is one component. -/
def components : Expr → List Expr
  | tuple _ items => items
  | e => [e]

end Expr

inductive Stmt where
  | assign (span : Span) (targets : List Expr) (value : Expr)
  | augment (span : Span) (target : Expr) (op : BinaryOp) (value : Expr)
  | eval (span : Span) (value : Expr)
deriving Inhabited

namespace Stmt

def span : Stmt → Span
  | assign s _ _ | augment s _ _ _ | eval s _ => s

/-- The name and the value of an assignment to one name. -/
def named? : Stmt → Option (String × Expr)
  | assign _ [target] value => target.name?.map (·, value)
  | _ => none

/-- A header opens a computation: it assigns a dict display. -/
def isHeader : Stmt → Bool
  | assign _ _ (.dict ..) => true
  | _ => false

end Stmt

structure Program where
  body : List Stmt
  span : Span
deriving Inhabited

end LoopNest
