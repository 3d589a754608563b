import LoopNest.Proofs.HeaderReading

/-!
# Relations never lack an operand

A header is refused for many reasons, but never because a relation was added before it had an operator
to its left and a term to its right. No step of reading fails so: the only one that adds relations
splits them off a chain that has just begun.
-/

namespace LoopNest

namespace Lowering

/-- A reading that never fails because a relation lacks an operand. -/
def Supplied {α : Type} (x : Lowering α) : Prop :=
  ∀ d d' : Draft, x d ≠ .error (.malformed .missingOperand) d'

theorem Supplied.pure {α : Type} (a : α) : Supplied (Pure.pure a : Lowering α) := by
  intro d d' h
  cases h

theorem Supplied.throw {α : Type} {e : CompileError} (he : e ≠ .malformed .missingOperand) :
    Supplied (MonadExcept.throw e : Lowering α) := by
  intro d d' h
  cases h
  exact he rfl

theorem Supplied.bind {α β : Type} {x : Lowering α} {f : α → Lowering β} (hx : Supplied x)
    (hf : ∀ a, Supplied (f a)) : Supplied (x >>= f) := by
  intro d d' h
  change EStateM.bind x f d = _ at h
  unfold EStateM.bind at h
  split at h
  · next a d₁ _ => exact hf a d₁ d' h
  · next e d₁ hd =>
    cases h
    exact hx d d' hd

/-- The relations of a chain are split off without any of them lacking an operand. -/
theorem Supplied.addChain (left : Expr) (t : Term) (links : List (CompareOp × Chain.Comparand)) :
    Supplied (Lowering.addChain left t links) := by
  intro d d' h
  rw [Lowering.addChain, get_bind] at h
  have hne := Chain.relations_ne_missingOperand d.nextId t links
  cases hr : Chain.relations (.begin d.nextId t) links with
  | ok r =>
    rw [hr] at h
    cases h
  | error fault =>
    rw [hr] at h hne
    cases fault with
    | missingOperand => exact hne rfl
    | danglingOperand => cases h

theorem stepClosed_supplied : StepClosed @Supplied where
  pure := .pure
  throw := .throw
  bind := .bind
  declare _ d d' h := by cases h
  symbol _ d d' h := by cases h
  addChain := .addChain

theorem Supplied.modifyGet (f : Draft → Unit × Draft) :
    Supplied (MonadStateOf.modifyGet f : Lowering Unit) :=
  fun d d' h => by cases h

theorem Supplied.visit (s : Stmt) : Supplied (Lowering.visit s) := by
  have hread (e : Expr) : Supplied (Lowering.read e) := stepClosed_supplied.read e
  fun_cases Lowering.visit s with
  | case1 span nameSpan name value =>
    refine .bind (.modifyGet _) fun _ => ?_
    cases value with
    | dict => exact (hread _).bind fun _ => .pure _
    | _ => exact .throw (by simp)
  | case2 => exact .throw (by simp)
  | case3 => exact .throw (by simp)
  | case4 span value => exact (hread value).bind fun _ => .pure _

theorem Supplied.named : Supplied Lowering.named := by
  refine .bind (fun d d' h => by cases h) fun d => ?_
  split
  · exact .throw (by simp)
  · exact .pure _

theorem Supplied.header (s : Stmt) : Supplied (Lowering.header s) :=
  .bind (.modifyGet _) fun _ => .bind (.visit s) fun _ => .named

end Lowering

theorem Space.ofStmt_ne_missingOperand (s : Stmt) :
    Space.ofStmt s ≠ .error (.malformed .missingOperand) := by
  intro h
  unfold ofStmt EStateM.run at h
  split at h
  · cases h
  · next d' hd =>
    cases h
    exact Lowering.Supplied.header s _ d' hd

end LoopNest
