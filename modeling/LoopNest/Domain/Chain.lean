import LoopNest.Domain.Space

/-! # Splitting a chain of comparisons

In a chain such as `0 <= i < N ^ 0 <= j < M` a link whose term is a conjunction ends one relation and
begins the next. The links are taken in pairs, so that a pair fills the middle and the right of one
relation, and a last odd link extends the relation before it.
-/

namespace LoopNest.Chain

/-- The term a link compares with: one term, or the end of a relation with the beginning of the
next. -/
inductive Comparand where
  | single (t : Term)
  | joint (close : Term) (reopen : Term)
deriving Inhabited

/-- Why a chain has no relations. -/
inductive Fault where
  | missingOperand | danglingOperand
deriving DecidableEq, Inhabited

/-- A relation under construction, which later links fill. Its identity and its left term are there
from the beginning. -/
structure Open where
  id : Nat
  left : Term
  leftOp : Option CompareOp
  mid : Option Term
  rightOp : Option CompareOp
  right : Option Term
deriving Inhabited

namespace Open

def begin (id : Nat) (left : Term) : Open :=
  ⟨id, left, none, none, none, none⟩

/-- The relation that is added. It has to have a left operator and a right term. -/
def relation (r : Open) : Except Fault Relation :=
  match r.leftOp, r.right with
  | some op, some right => .ok ⟨r.id, r.left, op, r.mid, r.rightOp, right⟩
  | _, _ => .error .missingOperand

/-- The first link of a pair either closes the relation or gives it a middle term, whose operator is
that of the second link. The result is what was added, and the relation that is open now. -/
def first (r : Open) (op next : CompareOp) : Comparand → Except Fault (List Relation × Open)
  | .single t => .ok ([], { r with leftOp := some op, mid := some t, rightOp := some next })
  | .joint close reopen => do
    let added ← { r with leftOp := some op, right := some close : Open }.relation
    return ([added], { begin (r.id + 1) reopen with leftOp := some next })

/-- The second link of a pair always adds the relation. -/
def second (r : Open) : Comparand → Except Fault (List Relation × Open)
  | .single t => do
    let filled := { r with right := some t }
    return ([← filled.relation], filled)
  | .joint close reopen => do
    let added ← { r with right := some close : Open }.relation
    return ([added], begin (r.id + 1) reopen)

/-- The relation that a last odd link completes: one that has a right term has it moved to the
middle. -/
def extended (r : Open) (op : CompareOp) (t : Term) : Open :=
  match r.right with
  | some right => { r with mid := some right, rightOp := some op, right := some t }
  | none => { r with leftOp := some op, right := some t }

end Open

/-- The relations in the order in which they are added, and the first identity that is still free. A
relation that ends up with nothing to its right dangles. -/
def relations (r : Open) : List (CompareOp × Comparand) → Except Fault (List Relation × Nat)
  | [] => if r.right.isSome then .ok ([], r.id + 1) else .error .danglingOperand
  | [(op, .single t)] => do
    let added ← (r.extended op t).relation
    return ([added], r.id + 1)
  | [(_, .joint _ _)] => .error .danglingOperand
  | (op, c) :: (next, d) :: rest => do
    let (closed, r) ← r.first op next c
    let (added, r) ← r.second d
    let (others, free) ← relations r rest
    return (closed ++ added ++ others, free)

end LoopNest.Chain
