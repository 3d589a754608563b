import LoopNest.Domain.Chain

/-!
# Relations under construction

Everything in an open relation but its beginning may be missing, and adding one without a left
operator or a right term is a fault. Splitting a chain never gets there: the open relations that it
reaches between two pairs of links are the pending ones below, in which an operator to the left and a
term to the right come together. Splitting pending relations has no such fault, and it is the same.
-/

namespace LoopNest.Chain

/-- A relation that later links may still fill. Once it has been added, its left operator and its
right term are known. -/
structure Pending where
  id : Nat
  left : Term
  mid : Option Term
  rightOp : Option CompareOp
  added : Option (CompareOp × Term)
deriving Inhabited

def Pending.begin (id : Nat) (left : Term) : Pending :=
  ⟨id, left, none, none, none⟩

/-- The relation with its left operator and its right term. -/
def Pending.close (p : Pending) (op : CompareOp) (right : Term) : Relation :=
  ⟨p.id, p.left, op, p.mid, p.rightOp, right⟩

def Pending.between (p : Pending) (mid : Term) (op : CompareOp) : Pending :=
  { p with mid := some mid, rightOp := some op }

/-- The first link of a pair either closes the pending relation or gives it a middle term, whose
operator is that of the second link. The result is what was added, the relation now pending, and
its left operator. -/
def first (op next : CompareOp) (p : Pending) :
    Comparand → List Relation × Pending × CompareOp
  | .single t => ([], p.between t next, op)
  | .joint close reopen => ([p.close op close], .begin (p.id + 1) reopen, next)

/-- The second link of a pair always adds the pending relation. -/
def second (op : CompareOp) (p : Pending) : Comparand → List Relation × Pending
  | .single t => ([p.close op t], { p with added := some (op, t) })
  | .joint close reopen => ([p.close op close], .begin (p.id + 1) reopen)

/-- The relation that a last odd link completes: one already added has its right term moved to the
middle. -/
def extend (p : Pending) (op : CompareOp) (t : Term) : Relation :=
  match p.added with
  | some (leftOp, right) => (p.between right op).close leftOp t
  | none => p.close op t

/-- The relations in the order in which they are added, and the first identity that is still free. A
relation that ends up with nothing to its right is no relation, and then there is no result. -/
def split (p : Pending) : List (CompareOp × Comparand) → Option (List Relation × Nat)
  | [] => if p.added.isSome then some ([], p.id + 1) else none
  | [(op, .single t)] => some ([extend p op t], p.id + 1)
  | [(_, .joint _ _)] => none
  | (op, c) :: (next, d) :: rest =>
    let (relations, p, op) := first op next p c
    let (more, p) := second op p d
    match split p rest with
    | some (others, free) => some (relations ++ more ++ others, free)
    | none => none

/-- A pending relation as an open one. -/
def Pending.opened (p : Pending) : Open :=
  ⟨p.id, p.left, p.added.map Prod.fst, p.mid, p.rightOp, p.added.map Prod.snd⟩

theorem opened_begin (id : Nat) (left : Term) :
    (Pending.begin id left).opened = Open.begin id left :=
  rfl

/-- A pair of links is read by `first` and `second`, and the links behind it from there. -/
theorem split_pair (p : Pending) (op next : CompareOp) (c d : Comparand)
    (rest : List (CompareOp × Comparand)) :
    split p ((op, c) :: (next, d) :: rest) =
      (split (second (first op next p c).2.2 (first op next p c).2.1 d).2 rest).map fun r =>
        ((first op next p c).1 ++
          (second (first op next p c).2.2 (first op next p c).2.1 d).1 ++ r.1, r.2) := by
  rw [split]
  dsimp only
  split <;> simp [*]

/-- A pair of links leads from a pending relation to a pending relation, without a fault. -/
theorem relations_pair (p : Pending) (op next : CompareOp) (c d : Comparand)
    (rest : List (CompareOp × Comparand)) :
    relations p.opened ((op, c) :: (next, d) :: rest) =
      (relations (second (first op next p c).2.2 (first op next p c).2.1 d).2.opened rest).map
        fun r => ((first op next p c).1 ++
          (second (first op next p c).2.2 (first op next p c).2.1 d).1 ++ r.1, r.2) := by
  cases c <;> cases d <;> rw [relations] <;> rfl

theorem relation_extended (p : Pending) (op : CompareOp) (t : Term) :
    (p.opened.extended op t).relation = .ok (extend p op t) := by
  obtain ⟨id, left, mid, rightOp, added⟩ := p
  cases added <;> rfl

/-- Splitting open relations is splitting pending ones, and an operand that dangles is its only
fault. -/
theorem relations_opened : ∀ (p : Pending) (links : List (CompareOp × Comparand)),
    relations p.opened links = (split p links).elim (.error .danglingOperand) .ok
  | p, [] => by
    obtain ⟨id, left, mid, rightOp, added⟩ := p
    cases added <;> rfl
  | p, [(op, .single t)] => by
    rw [relations, relation_extended]
    rfl
  | _, [(_, .joint _ _)] => rfl
  | p, (op, c) :: (next, d) :: rest => by
    rw [relations_pair, split_pair, relations_opened _ rest]
    cases split _ rest <;> rfl

/-- The relations of a chain that begins never lack an operand. -/
theorem relations_ne_missingOperand (id : Nat) (t : Term) (links : List (CompareOp × Comparand)) :
    relations (.begin id t) links ≠ .error .missingOperand := by
  rw [← opened_begin, relations_opened]
  cases split (.begin id t) links <;> simp

end LoopNest.Chain
