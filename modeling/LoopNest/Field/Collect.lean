import LoopNest.Field.Basic

/-! # Collecting the fields of a body

Every subscript of a name is an access to the field of that name, and so is every bare name that is
neither an iterator nor a constant of the space. The target of an assignment is written, all else is
read. An index has to be a list of terms; outside of indices expressions are read only for the
accesses inside them.
-/

namespace LoopNest

/-- The names that are no fields. -/
structure Scope where
  iterators : List String
  constants : List String
deriving Inhabited

def Space.scope (s : Space) : Scope :=
  ⟨s.iterators, s.constants⟩

abbrev Collecting := StateT Fields (Except CompileError)

namespace Collecting

/-- A bare name, and the access to it if it is a field. -/
def symbol (scope : Scope) (isWrite : Bool) (name : String) : Collecting Term := do
  if name ∈ scope.iterators then return .iterator name
  else if name ∈ scope.constants then return .constant name
  else
    modify (Fields.record · name ⟨[], isWrite⟩)
    return .constant name

/-- The operation on two operands, if both are terms. An operator without an arithmetic counterpart is
a fault only in an index. -/
def operation (inIndex : Bool) (left : Option Term) (op : BinaryOp) (right : Option Term) :
    Collecting (Option Term) :=
  match ArithOp.ofBinary? op with
  | some op =>
    match left, right with
    | some l, some r => return some (.arith l op r)
    | _, _ => return none
  | none => if inIndex then throw (.unsupportedOperator op.symbol) else return none

def signed (op : UnaryOp) (operand : Option Term) : Option Term :=
  match op, operand with
  | .neg, some (.literal text) =>
    if Term.isSigned text then some (Term.literal text).negate else some (.literal ("-" ++ text))
  | .neg, some t => some t.negate
  | .pos, operand => operand
  | _, _ => none

/-- The component of an index has to be a term. -/
def component (e : Expr) : Option Term → Collecting Term
  | some t => return t
  | none => throw (.unsupported (.component e.form e.span))

/-- An argument that is no term is left out, but not in an index. -/
def argument (inIndex : Bool) (e : Expr) : Option Term → Collecting (List Term)
  | some t => return [t]
  | none => if inIndex then throw (.unsupported (.argument e.form e.span)) else return []

/-- The name that a subscript is taken of. -/
def baseName (span : Span) (base : Expr) : Collecting String :=
  match base with
  | .name _ name => return name
  | _ => throw (.unsupported (.subscriptBase base.form span))

/-- The access that a subscript makes, with the term that stands for it. -/
def access (name : String) (index : List Term) (isWrite : Bool) : Collecting Term := do
  modify (Fields.record · name ⟨index, isWrite⟩)
  return .apply name index

mutual

/-- Records the accesses in an expression. `isWrite` speaks of the expression itself, never of its
parts. -/
def read (scope : Scope) (inIndex isWrite : Bool) : Expr → Collecting (Option Term)
  | .name _ text => do return some (← symbol scope isWrite text)
  | .number _ text => return some (.literal text)
  | .binary _ left op right => do
    let l ← read scope inIndex false left
    let r ← read scope inIndex false right
    operation inIndex l op r
  | .unary _ op operand => do return signed op (← read scope inIndex false operand)
  | .connect _ _ values => do
    readAll scope inIndex values
    return none
  | .compare _ left links => do
    let _ ← read scope inIndex false left
    readLinks scope inIndex links
    return none
  | .call _ callee args => do return some (.apply callee (← readArgs scope inIndex args))
  | .subscript span base (.tuple _ items) => do
    let name ← baseName span base
    modify (Fields.touch · name)
    return some (← access name (← readComponents scope items) isWrite)
  | .subscript span base index => do
    let name ← baseName span base
    modify (Fields.touch · name)
    let t ← component index (← read scope true false index)
    return some (← access name [t] isWrite)
  | .tuple _ items => do
    readAll scope inIndex items
    return none
  | .list _ items => do
    readAll scope inIndex items
    return none
  | .dict _ entries => do
    readKeys scope inIndex entries
    readValues scope inIndex entries
    return none

def readAll (scope : Scope) (inIndex : Bool) : List Expr → Collecting Unit
  | [] => return ()
  | e :: es => do
    let _ ← read scope inIndex false e
    readAll scope inIndex es

def readLinks (scope : Scope) (inIndex : Bool) : List (CompareOp × Expr) → Collecting Unit
  | [] => return ()
  | (_, e) :: links => do
    let _ ← read scope inIndex false e
    readLinks scope inIndex links

def readKeys (scope : Scope) (inIndex : Bool) : List (Expr × Expr) → Collecting Unit
  | [] => return ()
  | (key, _) :: entries => do
    let _ ← read scope inIndex false key
    readKeys scope inIndex entries

def readValues (scope : Scope) (inIndex : Bool) : List (Expr × Expr) → Collecting Unit
  | [] => return ()
  | (_, value) :: entries => do
    let _ ← read scope inIndex false value
    readValues scope inIndex entries

/-- The arguments of a call that are terms. -/
def readArgs (scope : Scope) (inIndex : Bool) : List Expr → Collecting (List Term)
  | [] => return []
  | e :: es => do
    let ts ← argument inIndex e (← read scope inIndex false e)
    return ts ++ (← readArgs scope inIndex es)

/-- The components of an index. -/
def readComponents (scope : Scope) : List Expr → Collecting (List Term)
  | [] => return []
  | e :: es => do
    let t ← component e (← read scope true false e)
    return t :: (← readComponents scope es)

end

/-- The target of an assignment is written. -/
def target (scope : Scope) (e : Expr) : Collecting Unit :=
  match e with
  | .tuple span _ => throw (.unsupported (.tupleTarget span))
  | _ => do
    let _ ← read scope false true e

def statement (scope : Scope) : Stmt → Collecting Unit
  | .assign _ [e] value => do
    target scope e
    let _ ← read scope false false value
  | .assign _ targets _ => throw (.unsupported (.targets targets.length))
  | .augment _ e _ value => do
    target scope e
    let _ ← read scope false false value
  | .eval _ value => do
    let _ ← read scope false false value

def statements (scope : Scope) : List Stmt → Collecting Unit
  | [] => return ()
  | s :: ss => do
    statement scope s
    statements scope ss

end Collecting

/-- The fields that the statements of a body access over a space. -/
def Fields.ofBody (space : Space) (body : List Stmt) : Except CompileError Fields :=
  ((Collecting.statements space.scope body).run []).map (·.2)

end LoopNest
