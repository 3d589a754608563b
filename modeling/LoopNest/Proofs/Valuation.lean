import LoopNest.Proofs.Alignment
import LoopNest.Proofs.HeaderReading
import Mathlib.Algebra.Ring.Basic
import Mathlib.Order.Lattice

/-!
# What headers and spaces say

A valuation gives values in an ordered ring to names, literals and functions. Under a valuation
every comparison is true or false, so a header and a space each say something: that all their
comparisons are true. The comparisons of a header are the ones that are written in it, cut at every
conjunction; those of a space are read off its relations. Terms and the expressions they are read
from have the same value.
-/

namespace LoopNest

/-- Values of names, literals and functions. Literals are valued without their sign. Division,
remainder and power are open, the other operations are those of the ring. -/
structure Valuation (α : Type) [Ring α] where
  name : String → α
  literal : String → α
  function : String → List α → α
  quotient : α → α → α
  remainder : α → α → α
  power : α → α → α
  literal_one : literal "1" = 1

/-- What a comparison of two values says. -/
def CompareOp.Holds {α : Type} [LinearOrder α] : CompareOp → α → α → Prop
  | eq, a, b => a = b
  | ne, a, b => a ≠ b
  | lt, a, b => a < b
  | le, a, b => a ≤ b
  | gt, a, b => b < a
  | ge, a, b => b ≤ a

instance {α : Type} [LinearOrder α] (op : CompareOp) (a b : α) : Decidable (op.Holds a b) :=
  match op with
  | .eq => inferInstanceAs (Decidable (a = b))
  | .ne => inferInstanceAs (Decidable (a ≠ b))
  | .lt => inferInstanceAs (Decidable (a < b))
  | .le => inferInstanceAs (Decidable (a ≤ b))
  | .gt => inferInstanceAs (Decidable (b < a))
  | .ge => inferInstanceAs (Decidable (b ≤ a))

namespace Valuation

variable {α : Type} [Ring α]

/-- The value of a literal, where each sign in front negates. -/
def signed (V : Valuation α) : List Char → α
  | '-' :: text => -V.signed text
  | text => V.literal (String.ofList text)

def arith (V : Valuation α) : ArithOp → α → α → α
  | .add, a, b => a + b
  | .sub, a, b => a - b
  | .mul, a, b => a * b
  | .div, a, b => V.quotient a b
  | .mod, a, b => V.remainder a b
  | .pow, a, b => V.power a b

/-- Both divisions are the same. The operations on bits and matrices have no meaning in domains. -/
def binary (V : Valuation α) : BinaryOp → α → α → α
  | .add, a, b => a + b
  | .sub, a, b => a - b
  | .mult, a, b => a * b
  | .div, a, b | .floorDiv, a, b => V.quotient a b
  | .mod, a, b => V.remainder a b
  | .pow, a, b => V.power a b
  | _, _, _ => 0

mutual

def term (V : Valuation α) : Term → α
  | .iterator name | .constant name => V.name name
  | .literal text => V.signed text.toList
  | .apply function args => V.function function (V.terms args)
  | .arith left op right => V.arith op (V.term left) (V.term right)

def terms (V : Valuation α) : List Term → List α
  | [] => []
  | t :: ts => V.term t :: V.terms ts

end

mutual

/-- The value of an expression. Only expressions that may stand for terms have a meaning. -/
def expr (V : Valuation α) : Expr → α
  | .name _ text => V.name text
  | .number _ text => V.signed text.toList
  | .binary _ left op right => V.binary op (V.expr left) (V.expr right)
  | .unary _ .neg operand => -V.expr operand
  | .unary _ .pos operand => V.expr operand
  | .call _ callee args => V.function callee (V.exprs args)
  | _ => 0

def exprs (V : Valuation α) : List Expr → List α
  | [] => []
  | e :: es => V.expr e :: V.exprs es

end

theorem binary_of_ofBinary? (V : Valuation α) {op : BinaryOp} {o : ArithOp}
    (h : ArithOp.ofBinary? op = some o) (a b : α) : V.binary op a b = V.arith o a b := by
  cases op <;> simp only [ArithOp.ofBinary?, Option.some.injEq, reduceCtorEq] at h <;>
    subst h <;> rfl

@[simp] theorem signed_neg (V : Valuation α) (text : String) :
    V.signed ("-" ++ text).toList = -V.signed text.toList := by
  have h : ("-" ++ text).toList = '-' :: text.toList := by simp
  rw [h, signed]

@[simp] theorem term_negate (V : Valuation α) (t : Term) : V.term t.negate = -V.term t := by
  have hone : V.term (.literal "-1") = -1 := by
    rw [term, show "-1".toList = ['-', '1'] from rfl, signed, signed, ← V.literal_one]
    simp
  rw [Term.negate, term, hone, arith, neg_one_mul]

mutual

/-- A term has the value of the expression it is read from. -/
theorem term_of_term? (V : Valuation α) {iterators : List String} :
    ∀ (e : Expr) {t : Term}, e.term? iterators = some t → V.term t = V.expr e
  | .name _ text, t, h => by
    rw [Expr.term?, Option.some.injEq] at h
    subst h
    split <;> rw [term, expr]
  | .number _ text, t, h => by
    rw [Expr.term?, Option.some.injEq] at h
    rw [← h, term, expr]
  | .binary _ left op right, t, h => by
    simp only [Expr.term?, Option.bind_eq_bind, Option.bind_eq_some_iff, Option.pure_def,
      Option.some.injEq] at h
    obtain ⟨l, hl, o, ho, r, hr, rfl⟩ := h
    rw [term, expr, V.term_of_term? left hl, V.term_of_term? right hr, V.binary_of_ofBinary? ho]
  | .unary _ .neg operand, t, h => by
    by_cases hn : operand.form = .number
    · cases operand with
      | number _ text =>
        rw [Expr.term?, Option.some.injEq] at h
        rw [← h, term, expr, expr, signed_neg]
      | _ => simp [Expr.form] at hn
    · rw [Expr.term?_neg _ _ hn] at h
      obtain ⟨u, hu, rfl⟩ := Option.map_eq_some_iff.mp h
      rw [term_negate, expr, V.term_of_term? operand hu]
  | .unary _ .pos operand, t, h => by
    rw [Expr.term?] at h
    rw [expr, V.term_of_term? operand h]
  | .call _ callee args, t, h => by
    rw [Expr.term?] at h
    obtain ⟨ts, hts, rfl⟩ := Option.map_eq_some_iff.mp h
    rw [term, expr, V.terms_of_termsOf? args hts]
  | .unary _ .not _, _, h | .unary _ .invert _, _, h | .connect .., _, h | .compare .., _, h
  | .subscript .., _, h | .tuple .., _, h | .list .., _, h | .dict .., _, h => by
    simp [Expr.term?] at h

theorem terms_of_termsOf? (V : Valuation α) {iterators : List String} :
    ∀ (es : List Expr) {ts : List Term}, termsOf? iterators es = some ts → V.terms ts = V.exprs es
  | [], ts, h => by
    rw [termsOf?, Option.some.injEq] at h
    rw [← h, terms, exprs]
  | e :: es, ts, h => by
    simp only [termsOf?, Option.bind_eq_bind, Option.bind_eq_some_iff, Option.pure_def,
      Option.some.injEq] at h
    obtain ⟨t, ht, us, hus, rfl⟩ := h
    rw [terms, exprs, V.term_of_term? e ht, V.terms_of_termsOf? es hus]

end

end Valuation

end LoopNest
