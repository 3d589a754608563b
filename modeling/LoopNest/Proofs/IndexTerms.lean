import LoopNest.Proofs.HeaderReading
import LoopNest.Proofs.Occurrences
import Mathlib.Data.List.Forall2

/-!
# Terms in headers and in indices

An expression stands for a term in two places: as an operand in a header and as a component of an index
in a body. The two are read by different rules. A header takes the sign of a number into the literal
and stops at the first expression that is no term; an index takes the sign of any literal into it and
finds out only at the end that there is no term. Where nothing is subscripted, both rules give a term
for the same expressions, and the two terms have the same value.
-/

namespace LoopNest

/-! ### Values of terms -/

/-- Values of names, functions and literals without a sign. Of the operators only multiplication is
fixed, since a change of sign is a product with minus one. -/
structure Interpretation where
  name : String → Int
  function : String → List Int → Int
  operator : ArithOp → Int → Int → Int
  literal : String → Int
  operator_mul : ∀ a b : Int, operator .mul a b = a * b
  literal_one : literal "1" = 1

namespace Interpretation

/-- The value of a literal, where each sign in front negates. -/
def signed (V : Interpretation) : List Char → Int
  | '-' :: text => -V.signed text
  | text => V.literal (String.ofList text)

mutual

def term (V : Interpretation) : Term → Int
  | .iterator name | .constant name => V.name name
  | .literal text => V.signed text.toList
  | .apply function args => V.function function (V.terms args)
  | .arith left op right => V.operator op (V.term left) (V.term right)

def terms (V : Interpretation) : List Term → List Int
  | [] => []
  | t :: ts => V.term t :: V.terms ts

end

theorem term_literal_neg (V : Interpretation) (text : String) :
    V.term (.literal ("-" ++ text)) = -V.term (.literal text) := by
  rw [term, String.toList_append]
  rfl

theorem term_negate (V : Interpretation) (t : Term) : V.term t.negate = -V.term t := by
  have hone : V.term (.literal "1") = 1 := V.literal_one
  have hminus : V.term (.literal "-1") = -1 := by
    rw [← hone]
    exact V.term_literal_neg "1"
  rw [Term.negate, term, V.operator_mul, hminus, Int.neg_one_mul]

end Interpretation

namespace Term

/-- Two terms have the same value, whatever their names, functions, operators and literals mean. -/
def SameValue (t u : Term) : Prop :=
  ∀ V : Interpretation, V.term t = V.term u

theorem SameValue.refl (t : Term) : t.SameValue t := fun _ => rfl

theorem SameValue.arith {l l' r r' : Term} (hl : l.SameValue l') (op : ArithOp)
    (hr : r.SameValue r') : (Term.arith l op r).SameValue (.arith l' op r') := by
  intro V
  rw [Interpretation.term, Interpretation.term, hl V, hr V]

theorem SameValue.terms_eq {ts us : List Term} (h : List.Forall₂ SameValue ts us)
    (V : Interpretation) : V.terms ts = V.terms us := by
  induction h with
  | nil => rfl
  | cons ht _ ih => rw [Interpretation.terms, Interpretation.terms, ht V, ih]

theorem SameValue.apply {ts us : List Term} (h : List.Forall₂ SameValue ts us) (callee : String) :
    (Term.apply callee ts).SameValue (.apply callee us) := by
  intro V
  rw [Interpretation.term, Interpretation.term, SameValue.terms_eq h V]

/-- A sign may be taken into a literal. -/
theorem SameValue.negate_literal (text : String) :
    (Term.literal text).negate.SameValue (.literal ("-" ++ text)) := by
  intro V
  rw [V.term_negate, V.term_literal_neg]

theorem SameValue.negate {t u : Term} (h : t.SameValue u) : t.negate.SameValue u.negate := by
  intro V
  rw [V.term_negate, V.term_negate, h V]

/-- A term in an index gets its sign as a factor or within the literal that it is. -/
theorem SameValue.signed {t u : Term} (h : t.SameValue u.negate) :
    Option.Rel SameValue (some t) (Collecting.signed .neg (some u)) := by
  cases u with
  | literal text =>
    rw [Collecting.signed]
    split
    · exact .some h
    · exact .some fun V => (h V).trans (negate_literal text V)
  | _ => exact .some h

end Term

/-! ### Components of indices -/

/-- The term that an expression stands for as a component of an index. -/
def Expr.component? (iterators : List String) (e : Expr) : Option Term :=
  if e.readable true then e.value? iterators else none

/-- The terms of the components of an index. -/
def componentsOf? (iterators : List String) (es : List Expr) : Option (List Term) :=
  if readableAll true es && es.all Expr.isTerm then some (valuesOf iterators es) else none

namespace Expr

theorem component?_binary (iterators : List String) (span : Span) (left : Expr) (op : BinaryOp)
    (right : Expr) :
    (Expr.binary span left op right).component? iterators = do
      let l ← left.component? iterators
      let r ← right.component? iterators
      let o ← ArithOp.ofBinary? op
      return .arith l o r := by
  by_cases hl : left.readable true <;> by_cases hr : right.readable true <;>
    cases ho : ArithOp.ofBinary? op <;> simp [component?, readable, value?, hl, hr, ho]

theorem component?_unary (iterators : List String) (span : Span) (op : UnaryOp) (operand : Expr) :
    (Expr.unary span op operand).component? iterators =
      Collecting.signed op (operand.component? iterators) := by
  by_cases h : operand.readable true
  · simp [component?, readable, value?, h]
  · cases op <;> simp [component?, readable, Collecting.signed, h]

theorem component?_call (iterators : List String) (span : Span) (callee : String)
    (args : List Expr) :
    (Expr.call span callee args).component? iterators =
      (componentsOf? iterators args).map (.apply callee) := by
  simp only [component?, componentsOf?, readable, value?, Bool.not_true, Bool.false_or]
  split <;> rfl

end Expr

theorem componentsOf?_cons (iterators : List String) (e : Expr) (es : List Expr) :
    componentsOf? iterators (e :: es) = do
      let t ← e.component? iterators
      let ts ← componentsOf? iterators es
      return t :: ts := by
  have hcheck : (readableAll true (e :: es) && (e :: es).all Expr.isTerm) =
      ((e.readable true && (e.value? iterators).isSome) &&
        (readableAll true es && es.all Expr.isTerm)) := by
    rw [readableAll, List.all_cons, e.isSome_value?]
    ac_rfl
  rw [componentsOf?, hcheck, componentsOf?, Expr.component?, valuesOf]
  by_cases hes : (readableAll true es && es.all Expr.isTerm) = true
  · by_cases he : e.readable true <;> cases e.value? iterators <;> simp [he, hes]
  · simp [hes]

/-- An operand in a header is read and has to be a term. -/
theorem Lowering.operand_eq_ok {e : Expr} {t : Term} {d d' : Draft} :
    (read e >>= demand e) d = .ok t d' ↔ e.term? d.space.iterators = some t ∧ d = d' := by
  rw [bind_eq_ok]
  constructor
  · rintro ⟨o, d₁, hread, hdemand⟩
    obtain ⟨rfl, rfl⟩ := demand_eq_ok.mp hdemand
    exact (readsTerm e t d d₁).mp hread
  · intro h
    exact ⟨some t, d', (readsTerm e t d d').mpr h, demand_eq_ok.mpr ⟨rfl, rfl⟩⟩

/-- A component of an index is read and has to be a term. -/
theorem Collecting.indexComponent_eq_ok {scope : Scope} {e : Expr} {t : Term} {fs fs' : Fields} :
    (read scope true false e >>= component e) fs = .ok (t, fs') ↔
      e.component? scope.iterators = some t ∧ fs' = fs.after (e.mentions scope false) := by
  simp only [bind_eq_ok, read_eq_ok e _ _ _ _, component_eq_ok, Expr.component?, Prod.mk.injEq]
  constructor
  · rintro ⟨o, fs₁, ⟨hreadable, rfl, rfl⟩, u, hu, rfl, rfl⟩
    exact ⟨by rw [if_pos hreadable, hu], rfl⟩
  · rintro ⟨hvalue, rfl⟩
    obtain ⟨hreadable, hvalue⟩ := Option.ite_none_right_eq_some.mp hvalue
    exact ⟨_, _, ⟨hreadable, rfl, rfl⟩, t, hvalue, rfl, rfl⟩

/-! ### Both readings of an expression -/

namespace Expr

/-- No part of an expression is a subscript. -/
def Unsubscripted (e : Expr) : Prop :=
  ∀ part ∈ e.topDown, part.form ≠ .subscript

instance (e : Expr) : Decidable e.Unsubscripted :=
  inferInstanceAs (Decidable (∀ part ∈ e.topDown, part.form ≠ .subscript))

theorem Unsubscripted.form_ne {e : Expr} (h : e.Unsubscripted) : e.form ≠ .subscript := by
  apply h
  rw [topDown_eq]
  exact List.mem_cons_self

theorem Unsubscripted.part {e part : Expr} (h : e.Unsubscripted) (hpart : part ∈ e.parts) :
    part.Unsubscripted := by
  intro inner hinner
  apply h
  rw [topDown_eq]
  exact List.mem_cons_of_mem _ (List.mem_flatMap.mpr ⟨part, hpart, hinner⟩)

/-- An operation has a term in both places if its operands have, although the operator is looked at
before the right operand in one place and behind it in the other. -/
theorem rel_arith {l l' r r' : Option Term} (hl : Option.Rel Term.SameValue l l')
    (hr : Option.Rel Term.SameValue r r') (o : Option ArithOp) :
    Option.Rel Term.SameValue
      (do
        let l ← l
        let o ← o
        let r ← r
        return .arith l o r)
      (do
        let l ← l'
        let r ← r'
        let o ← o
        return .arith l o r) := by
  cases hl with
  | none => exact .none
  | some hl =>
    cases hr with
    | none => cases o <;> exact .none
    | some hr =>
      cases o with
      | none => exact .none
      | some o => exact .some (hl.arith o hr)

theorem rel_signed {t t' : Option Term} (h : Option.Rel Term.SameValue t t') :
    Option.Rel Term.SameValue (t.map Term.negate) (Collecting.signed .neg t') := by
  cases h with
  | none => exact .none
  | some h => exact h.negate.signed

theorem rel_apply {ts ts' : Option (List Term)}
    (h : Option.Rel (List.Forall₂ Term.SameValue) ts ts') (callee : String) :
    Option.Rel Term.SameValue (ts.map (.apply callee)) (ts'.map (.apply callee)) := by
  cases h with
  | none => exact .none
  | some h => exact .some (.apply h callee)

theorem rel_cons {t t' : Option Term} {ts ts' : Option (List Term)}
    (ht : Option.Rel Term.SameValue t t')
    (hts : Option.Rel (List.Forall₂ Term.SameValue) ts ts') :
    Option.Rel (List.Forall₂ Term.SameValue)
      (do
        let t ← t
        let ts ← ts
        return t :: ts)
      (do
        let t ← t'
        let ts ← ts'
        return t :: ts) := by
  cases ht with
  | none => exact .none
  | some ht =>
    cases hts with
    | none => exact .none
    | some hts => exact .some (.cons ht hts)

theorem rel_arguments {iterators : List String} {es : List Expr}
    (h : ∀ e ∈ es, Option.Rel Term.SameValue (e.term? iterators) (e.component? iterators)) :
    Option.Rel (List.Forall₂ Term.SameValue) (termsOf? iterators es)
      (componentsOf? iterators es) := by
  induction es with
  | nil => exact .some .nil
  | cons e es ih =>
    obtain ⟨he, hes⟩ := List.forall_mem_cons.mp h
    rw [termsOf?, componentsOf?_cons]
    exact rel_cons he (ih hes)

/-- An expression without subscripts has a term in a header exactly if it has one in an index, and the
two terms have the same value. -/
theorem rel_term?_component? (iterators : List String) (e : Expr) (h : e.Unsubscripted) :
    Option.Rel Term.SameValue (e.term? iterators) (e.component? iterators) := by
  induction e using induction_on_parts with
  | h e ih =>
    replace ih : ∀ part ∈ e.parts,
        Option.Rel Term.SameValue (part.term? iterators) (part.component? iterators) :=
      fun part hpart => ih part hpart (h.part hpart)
    cases e with
    | name span text => exact .some (.refl _)
    | number span text => exact .some (.refl _)
    | binary span left op right =>
      rw [term?, component?_binary]
      exact rel_arith (ih left (by simp [parts])) (ih right (by simp [parts])) _
    | unary span op operand =>
      have hoperand := ih operand List.mem_cons_self
      rw [component?_unary]
      cases op with
      | neg =>
        by_cases hnumber : operand.form = .number
        · cases operand with
          | number _ text =>
            exact Term.SameValue.signed fun V => (Term.SameValue.negate_literal text V).symm
          | _ => cases hnumber
        · rw [term?_neg iterators span hnumber]
          exact rel_signed hoperand
      | pos => exact hoperand
      | not => exact .none
      | invert => exact .none
    | call span callee args =>
      rw [term?, component?_call]
      exact rel_apply (rel_arguments ih) callee
    | subscript => exact absurd rfl h.form_ne
    | connect | compare | tuple | list | dict => simp [term?, component?, value?]

end Expr

/-- The interpretation in whole numbers: a literal is what its digits spell, and a division leaves a
remainder that is not negative. -/
def Interpretation.integers (name : String → Int) (function : String → List Int → Int) :
    Interpretation where
  name := name
  function := function
  operator
    | .add, a, b => a + b
    | .sub, a, b => a - b
    | .mul, a, b => a * b
    | .div, a, b => a / b
    | .mod, a, b => a % b
    | .pow, a, b => a.pow b.toNat
  literal text := text.toList.foldl (fun n c => 10 * n + (c.toNat - '0'.toNat : Nat)) 0
  operator_mul _ _ := rfl
  literal_one := by decide

namespace Expr

/-- An expression without subscripts is an operand in a header exactly if it is a component of an index
over a space with the same iterators, and the terms of both have the same value. -/
theorem operand_iff_indexComponent {e : Expr} (h : e.Unsubscripted) {space : Space} {d : Draft}
    (hd : d.space.iterators = space.iterators) (fs : Fields) :
    ((∃ t d', (Lowering.read e >>= Lowering.demand e) d = .ok t d') ↔
      ∃ u fs', (Collecting.read space.scope true false e >>= Collecting.component e) fs =
        .ok (u, fs')) ∧
    ∀ t d' u fs', (Lowering.read e >>= Lowering.demand e) d = .ok t d' →
      (Collecting.read space.scope true false e >>= Collecting.component e) fs = .ok (u, fs') →
        ∀ V : Interpretation, V.term t = V.term u := by
  have hrel := rel_term?_component? space.iterators e h
  simp only [Lowering.operand_eq_ok, Collecting.indexComponent_eq_ok, hd, Space.scope]
  generalize e.term? space.iterators = header, e.component? space.iterators = index at hrel ⊢
  cases hrel with
  | none => simp
  | @some t u hvalue =>
    constructor
    · exact ⟨fun _ => ⟨u, _, rfl, rfl⟩, fun _ => ⟨t, d, rfl, rfl⟩⟩
    · rintro _ _ _ _ ⟨⟨⟩, -⟩ ⟨⟨⟩, -⟩ V
      exact hvalue V

/-- In `-(+5) % f(i)` the sign is a factor as an operand, and part of the literal in an index. For an
`f(i)` of three both are one. -/
theorem operand_iff_indexComponent_signs :
    ∃ (e : Expr) (space : Space) (d : Draft) (t u : Term),
      e = .binary default (.unary default .neg (.unary default .pos (.number default "5"))) .mod
        (.call default "f" [.name default "i"]) ∧
      t = .arith (.arith (.literal "-1") .mul (.literal "5")) .mod (.apply "f" [.iterator "i"]) ∧
      u = .arith (.literal "-5") .mod (.apply "f" [.iterator "i"]) ∧
      e.Unsubscripted ∧ d.space.iterators = space.iterators ∧
      (Lowering.read e >>= Lowering.demand e) d = .ok t d ∧
      (Collecting.read space.scope true false e >>= Collecting.component e) [] = .ok (u, []) ∧
      (Interpretation.integers (fun _ => 2) fun _ args => args.foldl (· + ·) 1).term u = 1 ∧
      ∀ V : Interpretation, V.term t = V.term u := by
  refine ⟨_, ⟨"s", ["i"], []⟩, ⟨⟨"s", ["i"], []⟩, 0, []⟩, _, _, rfl, rfl, rfl, by decide, rfl,
    ?operand, ?component, by decide,
    (operand_iff_indexComponent (by decide) rfl []).2 _ _ _ _ ?operand ?component⟩
  case operand => exact Lowering.operand_eq_ok.mpr ⟨rfl, rfl⟩
  case component => exact Collecting.indexComponent_eq_ok.mpr ⟨rfl, rfl⟩

end Expr

end LoopNest
