import LoopNest.Proofs.CGrammar

/-!
# The C trees of expressions

The tree of an expression in C is the expression itself, with a power as a call of `pow`, both
divisions as one, and a chain of comparisons as the conjunction of its neighbours. Trees are compared
up to the association of nested conjunctions and of nested disjunctions.
-/

namespace LoopNest

namespace C

/-! ### The tree of an expression -/

def signOf : UnaryOp → String
  | .neg => "-"
  | .pos => "+"
  | .not => "!"
  | .invert => "~"

def connectiveOf : Connective → String
  | .and => "&&"
  | .or => "||"

/-- A binary operation. The matrix product is none in C. -/
def operation? (left : Tree) (op : BinaryOp) (right : Tree) : Option Tree :=
  match op with
  | .pow => some (.call (.name "pow") [left, right])
  | .floorDiv => some (.binary left "/" right)
  | .matMult => none
  | op => some (.binary left op.symbol right)

/-- Trees with an operator between neighbours. -/
def junction? (op : String) : List Tree → Option Tree
  | [] => none
  | [t] => some t
  | t :: ts => (junction? op ts).map (.binary t op ·)

/-- The comparisons of neighbours in a chain. -/
def neighbours (left : Tree) : List (CompareOp × Tree) → List Tree
  | [] => []
  | (op, right) :: links => .binary left op.symbol right :: neighbours right links

end C

mutual

/-- The C tree of an expression. Tuples outside of subscripts, displays and matrix products have
none. -/
def Expr.cTree? : Expr → Option C.Tree
  | .name _ text => some (.name text)
  | .number _ text => some (.number text)
  | .binary _ left op right => do
    let l ← left.cTree?
    let r ← right.cTree?
    C.operation? l op r
  | .unary _ op operand => operand.cTree?.map (.unary (C.signOf op))
  | .connect _ op values => do
    let ts ← cTreesOf? values
    C.junction? (C.connectiveOf op) ts
  | .compare _ left links => do
    let l ← left.cTree?
    let ls ← cLinksOf? links
    C.junction? "&&" (C.neighbours l ls)
  | .call _ callee args => (cTreesOf? args).map (.call (.name callee))
  | .subscript _ base (.tuple _ items) => do
    let b ← base.cTree?
    let ts ← cTreesOf? items
    return .subscript b ts
  | .subscript _ base index => do
    let b ← base.cTree?
    let t ← index.cTree?
    return .subscript b [t]
  | .tuple .. | .list .. | .dict .. => none

def cTreesOf? : List Expr → Option (List C.Tree)
  | [] => some []
  | e :: es => do
    let t ← e.cTree?
    let ts ← cTreesOf? es
    return t :: ts

def cLinksOf? : List (CompareOp × Expr) → Option (List (CompareOp × C.Tree))
  | [] => some []
  | (op, e) :: links => do
    let t ← e.cTree?
    let ls ← cLinksOf? links
    return (op, t) :: ls

end

mutual

/-- Whether no subscript of an expression has the empty tuple as its index. -/
def Expr.indexed : Expr → Bool
  | .name .. | .number .. => true
  | .binary _ left _ right => left.indexed && right.indexed
  | .unary _ _ operand => operand.indexed
  | .connect _ _ values => allIndexed values
  | .compare _ left links => left.indexed && linksIndexed links
  | .call _ _ args => allIndexed args
  | .subscript _ base (.tuple _ items) => base.indexed && !items.isEmpty && allIndexed items
  | .subscript _ base index => base.indexed && index.indexed
  | .tuple _ items | .list _ items => allIndexed items
  | .dict _ entries => entriesIndexed entries

def allIndexed : List Expr → Bool
  | [] => true
  | e :: es => e.indexed && allIndexed es

def linksIndexed : List (CompareOp × Expr) → Bool
  | [] => true
  | (_, e) :: links => e.indexed && linksIndexed links

def entriesIndexed : List (Expr × Expr) → Bool
  | [] => true
  | (key, value) :: entries => key.indexed && value.indexed && entriesIndexed entries

end

namespace C

/-! ### Trees up to association -/

mutual

/-- Trees that differ only in how nested conjunctions, or nested disjunctions, are associated. -/
inductive Tree.Alike : Tree → Tree → Prop where
  | refl (t : Tree) : Alike t t
  | symm {t u : Tree} (h : Alike t u) : Alike u t
  | trans {t u v : Tree} (h : Alike t u) (h' : Alike u v) : Alike t v
  | assoc {op : String} (h : op = "&&" ∨ op = "||") (t u v : Tree) :
      Alike (.binary (.binary t op u) op v) (.binary t op (.binary u op v))
  | unary (op : String) {t u : Tree} (h : Alike t u) : Alike (.unary op t) (.unary op u)
  | binary (op : String) {t t' u u' : Tree} (hl : Alike t t') (hr : Alike u u') :
      Alike (.binary t op u) (.binary t' op u')
  | stepped (op : String) {t u : Tree} (h : Alike t u) : Alike (.stepped t op) (.stepped u op)
  | call {t t' : Tree} {args args' : List Tree} (h : Alike t t') (ha : AllAlike args args') :
      Alike (.call t args) (.call t' args')
  | subscript {t t' : Tree} {index index' : List Tree} (h : Alike t t')
      (hi : AllAlike index index') : Alike (.subscript t index) (.subscript t' index')

inductive Tree.AllAlike : List Tree → List Tree → Prop where
  | nil : AllAlike [] []
  | cons {t t' : Tree} {ts ts' : List Tree} (h : Alike t t') (hs : AllAlike ts ts') :
      AllAlike (t :: ts) (t' :: ts')

end

end C

end LoopNest
