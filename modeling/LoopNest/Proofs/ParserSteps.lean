import LoopNest.Proofs.CursorReading

/-!
# The steps of a parser

A parser sees the current token, the place of the last one and how many items are left, and all that
it does to its cursor is to go on by one item. Every function that reads programs is put together from
these steps, so what holds of each of them, and of one behind the other, holds of reading a program.
-/

namespace LoopNest.Parser

/-- A parser that is put together from steps over a cursor. -/
inductive Stepwise : {α : Type} → Parser α → Prop where
  | pure {α : Type} (a : α) : Stepwise (Pure.pure a : Parser α)
  | refuse {α : Type} (e : ParseError) : Stepwise (throw (.parse e) : Parser α)
  | advance : Stepwise advance
  | last : Stepwise last
  | remaining : Stepwise remaining
  | look {α : Type} {f : Cursor → Parser α} (hf : ∀ c, Stepwise (f c))
      (hcurrent : ∀ c d : Cursor, c.current = d.current → f c = f d) : Stepwise (get >>= f)
  | bind {α β : Type} {p : Parser α} {f : α → Parser β} (hp : Stepwise p)
      (hf : ∀ a, Stepwise (f a)) : Stepwise (p >>= f)

namespace Stepwise

theorem kind : Stepwise kind :=
  .look (fun _ => .pure _) fun c d h => by rw [h]

theorem here : Stepwise here :=
  .look (fun _ => .pure _) fun c d h => by rw [h]

theorem fail {α : Type} (cause : ParseError.Cause) : Stepwise (fail cause : Parser α) :=
  .look (fun _ => .refuse _) fun c d h => by rw [h]

theorem ite {α : Type} {φ : Prop} [Decidable φ] {p q : Parser α} (hp : Stepwise p)
    (hq : Stepwise q) : Stepwise (if φ then p else q) := by
  split
  · exact hp
  · exact hq

theorem accept (expected : Token.Kind) : Stepwise (accept expected) :=
  .bind .kind fun _ => .ite (.bind .advance fun _ => .pure true) (.pure false)

theorem expect (delimiter : Delimiter) : Stepwise (expect delimiter) :=
  .bind .kind fun _ => .ite .advance (.fail _)

end Stepwise

/-! ### Expressions -/

section Lists

variable {expr : Parser Expr} (h : Stepwise expr)
include h

theorem listTail_stepwise (n : Nat) : Stepwise (listTail expr n) := by
  induction n with
  | zero => exact .pure _
  | succ n ih =>
    apply Stepwise.bind (.accept _)
    intro comma
    apply Stepwise.ite
    · apply Stepwise.bind .kind
      intro k
      exact .ite (.pure _) (.bind h fun e => .bind ih fun es => .pure _)
    · exact .pure _

theorem exprList_stepwise : Stepwise (exprList expr) := by
  apply Stepwise.bind .here
  intro start
  apply Stepwise.bind h
  intro first
  apply Stepwise.bind .kind
  intro k
  apply Stepwise.ite
  · apply Stepwise.bind .remaining
    intro n
    exact .bind (listTail_stepwise h n) fun others => .bind .last fun span => .pure _
  · exact .pure _

theorem sequence_stepwise (close : Token.Kind) (n : Nat) : Stepwise (sequence expr close n) := by
  induction n with
  | zero => exact .pure _
  | succ n ih =>
    apply Stepwise.bind .kind
    intro k
    apply Stepwise.ite (.pure _)
    apply Stepwise.bind h
    intro e
    apply Stepwise.bind (.accept _)
    intro comma
    exact .ite (.bind ih fun es => .pure _) (.pure _)

theorem entries_stepwise (n : Nat) : Stepwise (entries expr n) := by
  induction n with
  | zero => exact .pure _
  | succ n ih =>
    apply Stepwise.bind .kind
    intro k
    apply Stepwise.ite (.pure _)
    apply Stepwise.bind h
    intro key
    apply Stepwise.bind (.expect _)
    intro _
    apply Stepwise.bind h
    intro value
    apply Stepwise.bind (.accept _)
    intro comma
    exact .ite (.bind ih fun es => .pure _) (.pure _)

theorem atom_stepwise : Stepwise (atom expr) := by
  apply Stepwise.look _ fun c d hcd => by rw [hcd]
  intro c
  dsimp only
  split
  · exact .bind .advance fun _ => .pure _
  · exact .bind .advance fun _ => .pure _
  · exact .bind .advance fun _ => .pure _
  · apply Stepwise.bind .advance
    intro _
    apply Stepwise.bind (.accept _)
    intro close
    apply Stepwise.ite
    · exact .bind .last fun span => .pure _
    · exact .bind (exprList_stepwise h) fun inner => .bind (.expect _) fun _ => .pure _
  · apply Stepwise.bind .advance
    intro _
    apply Stepwise.bind .remaining
    intro n
    apply Stepwise.bind (sequence_stepwise h _ _)
    intro items
    exact .bind (.expect _) fun _ => .bind .last fun span => .pure _
  · apply Stepwise.bind .advance
    intro _
    apply Stepwise.bind .remaining
    intro n
    apply Stepwise.bind (entries_stepwise h _)
    intro items
    exact .bind (.expect _) fun _ => .bind .last fun span => .pure _
  · exact .fail _

theorem trailers_stepwise (n : Nat) (e : Expr) : Stepwise (trailers expr n e) := by
  induction n generalizing e with
  | zero => exact .pure _
  | succ n ih =>
    apply Stepwise.bind .kind
    intro k
    split
    · split
      · apply Stepwise.bind .advance
        intro _
        apply Stepwise.bind .remaining
        intro n
        apply Stepwise.bind (sequence_stepwise h _ _)
        intro args
        exact .bind (.expect _) fun _ => .bind .last fun span => ih _
      · exact .fail _
    · apply Stepwise.bind .advance
      intro _
      apply Stepwise.bind (exprList_stepwise h)
      intro index
      exact .bind (.expect _) fun _ => .bind .last fun span => ih _
    · exact .pure _

theorem primary_stepwise : Stepwise (primary expr) :=
  .bind (atom_stepwise h) fun e => .bind .remaining fun _ => trailers_stepwise h _ e

theorem factor_stepwise (n : Nat) : Stepwise (factor expr n) := by
  induction n with
  | zero => exact .fail _
  | succ n ih =>
    apply Stepwise.bind .here
    intro start
    apply Stepwise.bind .kind
    intro k
    split
    · exact .bind .advance fun _ => .bind ih fun operand => .pure _
    · apply Stepwise.bind (primary_stepwise h)
      intro base
      apply Stepwise.bind (.accept _)
      intro power
      exact .ite (.bind ih fun exponent => .pure _) (.pure _)

end Lists

section Operators

variable {operand : Parser Expr} (h : Stepwise operand)
include h

theorem operations_stepwise (level : Level) (n : Nat) (left : Expr) :
    Stepwise (operations level operand n left) := by
  induction n generalizing left with
  | zero => exact .pure _
  | succ n ih =>
    apply Stepwise.bind .kind
    intro k
    split
    · exact .bind .advance fun _ => .bind h fun right => ih _
    · exact .pure _

theorem leftAssociative_stepwise (level : Level) : Stepwise (leftAssociative level operand) :=
  .bind h fun left => .bind .remaining fun n => operations_stepwise h level n left

theorem foldl_leftAssociative_stepwise (levels : List Level) :
    Stepwise (levels.foldl (fun operand level => leftAssociative level operand) operand) := by
  induction levels generalizing operand with
  | nil => exact h
  | cons level levels ih => exact ih (leftAssociative_stepwise h level)

theorem chain_stepwise (n : Nat) : Stepwise (chain operand n) := by
  induction n with
  | zero => exact .pure _
  | succ n ih =>
    apply Stepwise.bind .kind
    intro k
    split
    · exact .bind .advance fun _ => .bind h fun e => .bind ih fun links => .pure _
    · exact .pure _

theorem operands_stepwise (op : Connective) (n : Nat) : Stepwise (operands op operand n) := by
  induction n with
  | zero => exact .pure _
  | succ n ih =>
    apply Stepwise.bind .kind
    intro k
    apply Stepwise.ite
    · exact .bind .advance fun _ => .bind h fun e => .bind ih fun es => .pure _
    · exact .pure _

theorem connected_stepwise (op : Connective) : Stepwise (connected op operand) := by
  apply Stepwise.bind h
  intro first
  apply Stepwise.bind .remaining
  intro n
  apply Stepwise.bind (operands_stepwise h op n)
  intro others
  split
  · exact .pure _
  · exact .pure _

end Operators

section Layers

variable {expr : Parser Expr} (h : Stepwise expr)
include h

theorem arithmetic_stepwise : Stepwise (arithmetic expr) :=
  foldl_leftAssociative_stepwise (.bind .remaining fun _ => factor_stepwise h _) _

theorem comparison_stepwise : Stepwise (comparison expr) := by
  apply Stepwise.bind (arithmetic_stepwise h)
  intro left
  apply Stepwise.bind .remaining
  intro n
  apply Stepwise.bind (chain_stepwise (arithmetic_stepwise h) n)
  intro links
  split
  · exact .pure _
  · exact .bind .last fun span => .pure _

theorem negation_stepwise (n : Nat) : Stepwise (negation expr n) := by
  induction n with
  | zero => exact .fail _
  | succ n ih =>
    apply Stepwise.bind .here
    intro start
    apply Stepwise.bind .kind
    intro k
    apply Stepwise.ite
    · exact .bind .advance fun _ => .bind ih fun operand => .pure _
    · exact comparison_stepwise h

theorem layer_stepwise : Stepwise (layer expr) :=
  connected_stepwise (connected_stepwise (.bind .remaining fun _ => negation_stepwise h _) .and) .or

end Layers

theorem expression_stepwise (n : Nat) : Stepwise (expression n) := by
  induction n with
  | zero => exact .fail _
  | succ n ih => exact layer_stepwise ih

/-! ### Statements -/

theorem checkTargets_stepwise (targets : List Expr) : Stepwise (checkTargets targets) := by
  unfold checkTargets
  split
  · exact .pure _
  · exact .refuse _

section Statements

variable {expr : Parser Expr} (h : Stepwise expr)
include h

theorem values_stepwise (n : Nat) : Stepwise (values expr n) := by
  induction n with
  | zero => exact .pure _
  | succ n ih =>
    apply Stepwise.bind (.accept _)
    intro equal
    apply Stepwise.ite
    · exact .bind (exprList_stepwise h) fun e => .bind ih fun es => .pure _
    · exact .pure _

theorem statement_stepwise : Stepwise (statement expr) := by
  apply Stepwise.bind .here
  intro start
  apply Stepwise.bind (exprList_stepwise h)
  intro first
  apply Stepwise.bind .kind
  intro k
  split
  · apply Stepwise.bind (checkTargets_stepwise _)
    intro _
    apply Stepwise.bind .advance
    intro _
    exact .bind h fun value => .bind .last fun span => .pure _
  · apply Stepwise.bind .remaining
    intro n
    apply Stepwise.bind (values_stepwise h n)
    intro values
    split
    · exact .bind .last fun span => .pure _
    · exact .bind (checkTargets_stepwise _) fun _ => .bind .last fun span => .pure _

end Statements

theorem skipTerminators_stepwise (n : Nat) : Stepwise (skipTerminators n) := by
  induction n with
  | zero => exact .pure _
  | succ n ih =>
    apply Stepwise.bind .kind
    intro k
    exact .ite (.bind .advance fun _ => ih) (.pure _)

theorem statements_stepwise {expr : Parser Expr} (h : Stepwise expr) (n : Nat) :
    Stepwise (statements expr n) := by
  induction n with
  | zero => exact .pure _
  | succ n ih =>
    apply Stepwise.bind .remaining
    intro m
    apply Stepwise.bind (skipTerminators_stepwise m)
    intro _
    apply Stepwise.bind .kind
    intro k
    apply Stepwise.ite (.pure _)
    apply Stepwise.bind (statement_stepwise h)
    intro s
    apply Stepwise.bind .kind
    intro k
    exact .ite (.bind ih fun ss => .pure _) (.fail _)

theorem program_stepwise : Stepwise program := by
  apply Stepwise.bind .here
  intro start
  apply Stepwise.bind .remaining
  intro n
  apply Stepwise.bind (statements_stepwise (expression_stepwise _) _)
  intro body
  exact .bind .last fun span => .pure _

end LoopNest.Parser
