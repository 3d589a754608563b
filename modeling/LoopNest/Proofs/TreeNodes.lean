import LoopNest.Program.Basic

/-!
# Trees with lists of their own

A chain of comparisons can be kept as its operators and, apart from them, its comparators, and a dict
display as its keys and its values. In such a tree nothing ties the two lists together. A tree is in
shape if they have the same length wherever they stand, if a chain has a comparison and a connective
joins two values or more. Pairing the lists gives the expressions that programs are made of.
-/

namespace LoopNest

/-- A node of a tree, in which the two sides of a chain and of a dict display are lists of their own. -/
inductive Node where
  | name (span : Span) (text : String)
  | number (span : Span) (text : String)
  | binary (span : Span) (left : Node) (op : BinaryOp) (right : Node)
  | unary (span : Span) (op : UnaryOp) (operand : Node)
  | connect (span : Span) (op : Connective) (values : List Node)
  | compare (span : Span) (left : Node) (ops : List CompareOp) (comparators : List Node)
  | call (span : Span) (callee : String) (args : List Node)
  | subscript (span : Span) (base : Node) (index : Node)
  | tuple (span : Span) (items : List Node)
  | list (span : Span) (items : List Node)
  | dict (span : Span) (keys values : List Node)
deriving Inhabited

namespace Node

def span : Node → Span
  | name s _ | number s _ | binary s _ _ _ | unary s _ _ | connect s _ _ | compare s _ _ _
  | call s _ _ | subscript s _ _ | tuple s _ | list s _ | dict s _ _ => s

def form : Node → Expr.Form
  | name .. => .name
  | number .. => .number
  | binary .. => .binary
  | unary .. => .unary
  | connect .. => .connect
  | compare .. => .compare
  | call .. => .call
  | subscript .. => .subscript
  | tuple .. => .tuple
  | list .. => .list
  | dict .. => .dict

/-- A binary operation over the span of its operands. -/
def join (left : Node) (op : BinaryOp) (right : Node) : Node :=
  .binary (left.span.merge right.span) left op right

mutual

/-- The expression of a tree, in which lists that stood apart are paired. What is left over of the
longer one is lost. -/
def expr : Node → Expr
  | name span text => .name span text
  | number span text => .number span text
  | binary span left op right => .binary span left.expr op right.expr
  | unary span op operand => .unary span op operand.expr
  | connect span op values => .connect span op (exprs values)
  | compare span left ops comparators => .compare span left.expr (ops.zip (exprs comparators))
  | call span callee args => .call span callee (exprs args)
  | subscript span base index => .subscript span base.expr index.expr
  | tuple span items => .tuple span (exprs items)
  | list span items => .list span (exprs items)
  | dict span keys values => .dict span ((exprs keys).zip (exprs values))

def exprs : List Node → List Expr
  | [] => []
  | t :: ts => t.expr :: exprs ts

end

@[simp] theorem exprs_eq_map (ts : List Node) : exprs ts = ts.map expr := by
  induction ts with
  | nil => rfl
  | cons t ts ih => rw [exprs, ih, List.map_cons]

@[simp] theorem span_expr (t : Node) : t.expr.span = t.span := by
  cases t <;> rfl

@[simp] theorem form_expr (t : Node) : t.expr.form = t.form := by
  cases t <;> rfl

@[simp] theorem expr_join (left : Node) (op : BinaryOp) (right : Node) :
    (left.join op right).expr = left.expr.join op right.expr := by
  simp [join, expr, Expr.join]

/-! ### Nodes inside a node -/

/-- The nodes right below a node. -/
def children : Node → List Node
  | name .. | number .. => []
  | binary _ left _ right => [left, right]
  | unary _ _ operand => [operand]
  | connect _ _ values => values
  | compare _ left _ comparators => left :: comparators
  | call _ _ args => args
  | subscript _ base index => [base, index]
  | tuple _ items | list _ items => items
  | dict _ keys values => keys ++ values

/-- A node occurs in itself and wherever it occurs in a child. -/
inductive Occurs (t : Node) : Node → Prop where
  | here : Occurs t t
  | inside {root child : Node} (hchild : child ∈ root.children) (h : Occurs t child) : Occurs t root

mutual

/-- What holds of a node whenever it holds of its children holds of every node. -/
theorem induction_on_children {P : Node → Prop}
    (h : ∀ t, (∀ child ∈ t.children, P child) → P t) : ∀ t : Node, P t
  | name .. | number .. => h _ (by simp [children])
  | binary _ left _ right | subscript _ left right => by
    have hl := induction_on_children h left
    have hr := induction_on_children h right
    exact h _ (by simp [children, hl, hr])
  | unary _ _ operand => h _ (List.forall_mem_singleton.mpr (induction_on_children h operand))
  | connect _ _ ts | call _ _ ts | tuple _ ts | list _ ts => h _ (forall_of_children h ts)
  | compare _ left _ comparators =>
    h _ (List.forall_mem_cons.mpr
      ⟨induction_on_children h left, forall_of_children h comparators⟩)
  | dict _ keys values =>
    h _ (List.forall_mem_append.mpr ⟨forall_of_children h keys, forall_of_children h values⟩)

theorem forall_of_children {P : Node → Prop} (h : ∀ t, (∀ child ∈ t.children, P child) → P t) :
    ∀ ts : List Node, ∀ t ∈ ts, P t
  | [] => by simp
  | t :: ts => List.forall_mem_cons.mpr ⟨induction_on_children h t, forall_of_children h ts⟩

end

/-! ### Shapes -/

/-- The shape of a node: its lists have the same length, a chain has a comparison at least, and a
connective two values at least. -/
def WellShaped : Node → Prop
  | compare _ _ ops comparators => ops.length = comparators.length ∧ 1 ≤ ops.length
  | connect _ _ values => 2 ≤ values.length
  | dict _ keys values => keys.length = values.length
  | _ => True

/-- A node that is in shape at every depth. -/
def Shaped (t : Node) : Prop :=
  ∀ inner : Node, inner.Occurs t → inner.WellShaped

theorem shaped_iff {t : Node} :
    t.Shaped ↔ t.WellShaped ∧ ∀ child ∈ t.children, child.Shaped := by
  constructor
  · exact fun h => ⟨h t .here, fun child hchild inner hinner => h inner (.inside hchild hinner)⟩
  · rintro ⟨hroot, hchildren⟩ inner hinner
    cases hinner with
    | here => exact hroot
    | inside hchild h => exact hchildren _ hchild inner h

theorem Shaped.child {t child : Node} (h : t.Shaped) (hchild : child ∈ t.children) :
    child.Shaped :=
  (shaped_iff.mp h).2 child hchild

/-- Names, subscripts and tuples of what can be assigned to can be assigned to. -/
inductive Assignable : Node → Prop where
  | name (span : Span) (text : String) : Assignable (.name span text)
  | subscript (span : Span) (base index : Node) : Assignable (.subscript span base index)
  | tuple (span : Span) {items : List Node} (h : ∀ t ∈ items, Assignable t) :
      Assignable (.tuple span items)

/-! ### Statements -/

/-- A statement over nodes. -/
inductive Stmt where
  | assign (span : Span) (targets : List Node) (value : Node)
  | augment (span : Span) (target : Node) (op : BinaryOp) (value : Node)
  | eval (span : Span) (value : Node)
deriving Inhabited

/-- A program over nodes. -/
structure Program where
  body : List Stmt
  span : Span
deriving Inhabited

namespace Stmt

/-- The statement of a program that has the expressions of the nodes. -/
def stmt : Stmt → LoopNest.Stmt
  | assign span targets value => .assign span (targets.map expr) value.expr
  | augment span target op value => .augment span target.expr op value.expr
  | eval span value => .eval span value.expr

/-- The nodes that a statement is made of. -/
def children : Stmt → List Node
  | assign _ targets value => targets ++ [value]
  | augment _ target _ value => [target, value]
  | eval _ value => [value]

/-- A node anywhere in a statement. -/
def Contains (s : Stmt) (t : Node) : Prop :=
  ∃ root ∈ s.children, t.Occurs root

/-- The shape of a statement: an assignment has a target at least, and every target can be assigned
to. -/
def WellShaped : Stmt → Prop
  | assign _ targets _ => 1 ≤ targets.length ∧ ∀ target ∈ targets, target.Assignable
  | augment _ target _ _ => target.Assignable
  | eval .. => True

/-- A statement that is in shape, as are all nodes in it. -/
structure Shaped (s : Stmt) : Prop where
  stmt : s.WellShaped
  nodes : ∀ t ∈ s.children, t.Shaped

theorem Shaped.wellShaped_of_contains {s : Stmt} (h : s.Shaped) {t : Node} (ht : s.Contains t) :
    t.WellShaped := by
  obtain ⟨root, hroot, hocc⟩ := ht
  exact h.nodes root hroot t hocc

end Stmt

/-- The program that has the expressions of the nodes. -/
def Program.program (p : Program) : LoopNest.Program :=
  ⟨p.body.map Stmt.stmt, p.span⟩

end Node

end LoopNest
