import LoopNest.Computation
import LoopNest.Json.Basic

/-! # Dumps

Programs and computations as JSON values. A case of an inductive type is an object with one member,
whose key names the case.
-/

namespace LoopNest

def Span.toJson (s : Span) : Json :=
  .object
    [("start_line", .ofNat s.start.line), ("start_column", .ofNat s.start.column),
     ("end_line", .ofNat s.stop.line), ("end_column", .ofNat s.stop.column),
     ("start_offset", .ofNat s.start.offset), ("end_offset", .ofNat s.stop.offset)]

/-- What a node is, with its place. -/
def Span.node (s : Span) (kind : Json) : Json :=
  .object [("kind", kind), ("span", s.toJson)]

mutual

def Expr.toJson : Expr → Json
  | .name s text => s.node (.tagged "Name" (.string text))
  | .number s text => s.node (.tagged "Number" (.string text))
  | .binary s left op right =>
    s.node (.tagged "BinOp" (.object
      [("left", left.toJson), ("op", .string op.label), ("right", right.toJson)]))
  | .unary s op operand =>
    s.node (.tagged "UnaryOp" (.object [("op", .string op.label), ("operand", operand.toJson)]))
  | .connect s op values =>
    s.node (.tagged "BoolOp" (.object
      [("op", .string op.label), ("values", .array (toJsonAll values))]))
  | .compare s left links =>
    s.node (.tagged "Compare" (.object
      [("left", left.toJson), ("ops", .array (links.map fun l => .string l.1.label)),
       ("comparators", .array (toJsonLinks links))]))
  | .call s callee args =>
    s.node (.tagged "Call" (.object
      [("func", .string callee), ("args", .array (toJsonAll args))]))
  | .subscript s base index =>
    s.node (.tagged "Subscript" (.object [("value", base.toJson), ("index", index.toJson)]))
  | .tuple s items => s.node (.tagged "Tuple" (.array (toJsonAll items)))
  | .list s items => s.node (.tagged "List" (.array (toJsonAll items)))
  | .dict s entries =>
    s.node (.tagged "Dict" (.object
      [("keys", .array (toJsonKeys entries)), ("values", .array (toJsonValues entries))]))

def toJsonAll : List Expr → List Json
  | [] => []
  | e :: es => e.toJson :: toJsonAll es

def toJsonLinks : List (CompareOp × Expr) → List Json
  | [] => []
  | (_, e) :: links => e.toJson :: toJsonLinks links

def toJsonKeys : List (Expr × Expr) → List Json
  | [] => []
  | (key, _) :: entries => key.toJson :: toJsonKeys entries

def toJsonValues : List (Expr × Expr) → List Json
  | [] => []
  | (_, value) :: entries => value.toJson :: toJsonValues entries

end

def Stmt.toJson : Stmt → Json
  | .assign s targets value =>
    s.node (.tagged "Assign" (.object
      [("targets", .array (toJsonAll targets)), ("value", value.toJson)]))
  | .augment s target op value =>
    s.node (.tagged "AugAssign" (.object
      [("target", target.toJson), ("op", .string op.label), ("value", value.toJson)]))
  | .eval s value => s.node (.tagged "Expr" value.toJson)

def Program.toJson (p : Program) : Json :=
  .object [("body", .array (p.body.map Stmt.toJson)), ("span", p.span.toJson)]

mutual

def Term.toJson : Term → Json
  | .iterator name => .tagged "Iterator" (.object [("name", .string name)])
  | .constant name => .tagged "Constant" (.object [("name", .string name)])
  | .literal text => .tagged "Literal" (.object [("value", .string text)])
  | .apply function args =>
    .tagged "Function" (.object
      [("name", .string function), ("args", .array (Term.toJsonAll args))])
  | .arith left op right =>
    .tagged "BinOp" (.object
      [("left", left.toJson), ("op", .string op.label), ("right", right.toJson)])

def Term.toJsonAll : List Term → List Json
  | [] => []
  | t :: ts => t.toJson :: Term.toJsonAll ts

end

def Relation.toJson (r : Relation) : Json :=
  .object
    [("id", .ofNat r.id), ("left", r.left.toJson), ("left_op", .string r.leftOp.label),
     ("mid", .ofOption Term.toJson r.mid), ("right_op", .ofOption (.string ·.label) r.rightOp),
     ("right", r.right.toJson)]

def Space.toJson (s : Space) : Json :=
  .object
    [("name", .string s.name),
     ("iterators", .object (s.iterators.map fun i => (i, .object [("name", .string i)]))),
     ("relations", .array (s.relations.map Relation.toJson))]

def Access.toJson (a : Access) : Json :=
  .object [("index", .array (Term.toJsonAll a.index)), ("is_write", .bool a.isWrite)]

def Field.toJson (f : Field) : Json :=
  .object [("name", .string f.name), ("accesses", .array (f.accesses.map Access.toJson))]

def Computation.toJson (c : Computation) : Json :=
  .object
    [("space", c.space.toJson), ("body", .array (c.body.map Stmt.toJson)),
     ("fields", .object (c.fields.map fun f => (f.name, f.toJson)))]

/-- The text of a dump of computations. -/
def Computation.dump (cs : List Computation) : String :=
  (Json.array (cs.map Computation.toJson)).pretty

end LoopNest
