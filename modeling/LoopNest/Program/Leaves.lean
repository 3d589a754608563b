import LoopNest.Program.Basic

/-! # Leaves of a program

The names and numbers of a program in the order in which they are met: operands from left to right,
the keys of a dict display before its values, the targets of an assignment before its value. The
callee of a call is not a leaf.
-/

namespace LoopNest

/-- A name or a number with its place. -/
structure Leaf where
  text : String
  span : Span
deriving DecidableEq, Inhabited

mutual

def Expr.leaves : Expr → List Leaf
  | .name s text => [⟨text, s⟩]
  | .number s text => [⟨text, s⟩]
  | .binary _ left _ right => left.leaves ++ right.leaves
  | .unary _ _ operand => operand.leaves
  | .connect _ _ values => leavesOfAll values
  | .compare _ left links => left.leaves ++ leavesOfLinks links
  | .call _ _ args => leavesOfAll args
  | .subscript _ base index => base.leaves ++ index.leaves
  | .tuple _ items => leavesOfAll items
  | .list _ items => leavesOfAll items
  | .dict _ entries => leavesOfKeys entries ++ leavesOfValues entries

def leavesOfAll : List Expr → List Leaf
  | [] => []
  | e :: es => e.leaves ++ leavesOfAll es

def leavesOfLinks : List (CompareOp × Expr) → List Leaf
  | [] => []
  | (_, e) :: links => e.leaves ++ leavesOfLinks links

def leavesOfKeys : List (Expr × Expr) → List Leaf
  | [] => []
  | (key, _) :: entries => key.leaves ++ leavesOfKeys entries

def leavesOfValues : List (Expr × Expr) → List Leaf
  | [] => []
  | (_, value) :: entries => value.leaves ++ leavesOfValues entries

end

def Stmt.leaves : Stmt → List Leaf
  | .assign _ targets value => leavesOfAll targets ++ value.leaves
  | .augment _ target _ value => target.leaves ++ value.leaves
  | .eval _ value => value.leaves

def Program.leaves (p : Program) : List Leaf :=
  p.body.flatMap Stmt.leaves

end LoopNest
