import LoopNest.Domain.Chain

/-! # Reading domain headers

A header assigns a dict display to a name. Its keys list the iterators, its values are constraints:
chains of comparisons between terms, or conjunctions of constraints. An expression that is no term
is still read to its end, so that a fault inside it is the one reported.
-/

namespace LoopNest

/-- Remarks that do not stop a compilation. -/
inductive Warning where
  | repeatedIterator (iterator space : String)
deriving DecidableEq, Inhabited

def Warning.message : Warning → String
  | repeatedIterator iterator space =>
    "Iterator '" ++ iterator ++ "' declared twice in space '" ++ space ++ "'"

/-- The space read so far, the next free identity of a relation, and the warnings given. -/
structure Draft where
  space : Space
  nextId : Nat
  warnings : List Warning
deriving Inhabited

def Draft.empty : Draft :=
  ⟨Space.named "", 0, []⟩

/-- Reading a header changes a draft; a failure leaves the draft as it was met. -/
abbrev Lowering := EStateM CompileError Draft

namespace Lowering

def liftExcept {α : Type} : Except CompileError α → Lowering α
  | .ok a => pure a
  | .error e => throw e

def declare (iterator : String) : Lowering Unit :=
  modify fun d =>
    { d with
      space := d.space.addIterator iterator
      warnings :=
        if d.space.hasIterator iterator then
          d.warnings ++ [.repeatedIterator iterator d.space.name]
        else d.warnings }

/-- The iterators of a key in turn. -/
def declareAll : List Expr → Lowering Unit
  | [] => return ()
  | e :: es => do
    match e with
    | .name _ iterator => declare iterator
    | _ => throw (.malformed (.iteratorName e.form))
    declareAll es

/-- The keys of a header are lists or tuples of iterators. -/
def declareKeys : List (Expr × Expr) → Lowering Unit
  | [] => return ()
  | (key, _) :: entries => do
    match key with
    | .list _ items | .tuple _ items => declareAll items
    | _ => throw (.malformed (.iteratorList key.form))
    declareKeys entries

/-- A name stands for an iterator of the space if there is one, else for a constant. -/
def symbol (name : String) : Lowering Term := do
  return if (← get).space.hasIterator name then .iterator name else .constant name

/-- An operand has to be a term. -/
def demand (e : Expr) : Option Term → Lowering Term
  | some t => return t
  | none => throw (.unsupported (.operand e.form e.span))

/-- The relations of a chain are added to the space. -/
def addChain (left : Expr) (term : Term) (links : List (CompareOp × Chain.Comparand)) :
    Lowering Unit := do
  let d ← get
  match Chain.relations (.begin d.nextId term) links with
  | .ok (relations, free) =>
    set { d with space := relations.foldl Space.addRelation d.space, nextId := free }
  | .error .missingOperand => throw (.malformed .missingOperand)
  | .error .danglingOperand =>
    throw (.malformed (.danglingOperand d.space.name left.span))

mutual

/-- The term an expression stands for, if it is one. -/
def read : Expr → Lowering (Option Term)
  | .name _ text => do return some (← symbol text)
  | .number _ text => return some (.literal text)
  | .binary _ left op right => do
    let l ← demand left (← read left)
    let op ← liftExcept (ArithOp.ofBinary op)
    let r ← demand right (← read right)
    return some (.arith l op r)
  | .unary _ .neg (.number _ text) => return some (.literal ("-" ++ text))
  | .unary _ .neg operand => do return some (← demand operand (← read operand)).negate
  | .unary _ .pos operand => do return some (← demand operand (← read operand))
  | .unary _ .not _ => throw (.unsupportedOperator "not")
  | .unary _ .invert _ => throw (.unsupportedOperator "~")
  | .call _ callee args => do return some (.apply callee (← readArgs args))
  | .compare _ left links => do
    let l ← demand left (← read left)
    let comparands ← readLinks (links.length % 2 = 1) links
    addChain left l comparands
    return none
  | .connect span .or _ => throw (.unsupported (.disjunction span))
  | .connect _ .and values => do
    constrainAll values
    return none
  | .subscript _ base index => do
    let _ ← read base
    let _ ← read index
    return none
  | .tuple _ items => do
    readAll items
    return none
  | .list _ items => do
    readAll items
    return none
  | .dict _ entries => do
    declareKeys entries
    constrainValues entries
    return none

/-- The arguments of a call, all of them terms. -/
def readArgs : List Expr → Lowering (List Term)
  | [] => return []
  | e :: es => do
    let t ← demand e (← read e)
    return t :: (← readArgs es)

def readAll : List Expr → Lowering Unit
  | [] => return ()
  | e :: es => do
    let _ ← read e
    readAll es

/-- The terms of the links of a chain. A conjunction is taken apart, except in the last link of a
chain with an odd number of them, where it is an operation that no term has. -/
def readLinks (odd : Bool) : List (CompareOp × Expr) → Lowering (List (CompareOp × Chain.Comparand))
  | [] => return []
  | (op, .binary _ left .bitXor right) :: links => do
    let close ← demand left (← read left)
    if odd && links.isEmpty then
      throw (.unsupportedOperator BinaryOp.bitXor.symbol)
    else
      let reopen ← demand right (← read right)
      return (op, .joint close reopen) :: (← readLinks odd links)
  | (op, e) :: links => do
    let t ← demand e (← read e)
    return (op, .single t) :: (← readLinks odd links)

/-- Each of some constraints, which are comparisons and connected constraints. -/
def constrainAll : List Expr → Lowering Unit
  | [] => return ()
  | e :: es => do
    match e with
    | .compare .. | .connect .. => let _ ← read e
    | _ => throw (.unsupported (.constraint e.form e.span))
    constrainAll es

/-- The values of a header, each a constraint. -/
def constrainValues : List (Expr × Expr) → Lowering Unit
  | [] => return ()
  | (_, e) :: entries => do
    match e with
    | .compare .. | .connect .. => let _ ← read e
    | _ => throw (.unsupported (.constraint e.form e.span))
    constrainValues entries

end

/-- An assignment names the space and says what is in it. An expression that stands alone is read
without naming any. -/
def visit : Stmt → Lowering Unit
  | .assign _ [.name _ name] value => do
    modify fun d => { d with space := { d.space with name := name } }
    match value with
    | .dict .. => let _ ← read value
    | _ => throw (.malformed (.headerValue name value.form))
  | .assign .. => throw (.malformed .headerTarget)
  | .augment .. => throw (.malformed .headerAugmented)
  | .eval _ value => do let _ ← read value

/-- The space that was read, which must have got a name. -/
def named : Lowering Space := do
  let d ← get
  if d.space.name.isEmpty then
    throw (.malformed .headerUnnamed)
  else
    return d.space

/-- The space that a statement describes. -/
def header (s : Stmt) : Lowering Space := do
  modify fun d => { d with space := Space.named "" }
  visit s
  named

end Lowering

/-- The space that one statement describes, with identities counted from zero. -/
def Space.ofStmt (s : Stmt) : Except CompileError Space :=
  match (Lowering.header s).run Draft.empty with
  | .ok space _ => .ok space
  | .error e _ => .error e

end LoopNest
