import LoopNest.Domain.Header
import LoopNest.Proofs.ChainSplitting

/-!
# The steps of reading a header

Reading an expression is a sequence of few kinds of steps: an iterator is declared, a name is looked
up, the relations of a chain are added, or the reading stops. So a property that each of these steps
has and that sequencing keeps is a property of every reading. The induction over expressions is done
here once for all such properties. One of them is that the name of the space stays the same.
-/

namespace LoopNest

namespace Lowering

/-- A sequence of two steps ends well when both do. -/
theorem bind_eq_ok {α β : Type} {x : Lowering α} {f : α → Lowering β} {d d' : Draft} {b : β} :
    (x >>= f) d = .ok b d' ↔ ∃ a d₁, x d = .ok a d₁ ∧ f a d₁ = .ok b d' := by
  change EStateM.bind x f d = _ ↔ _
  unfold EStateM.bind
  cases h : x d with
  | ok a d₁ =>
    constructor
    · intro hf
      exact ⟨a, d₁, rfl, hf⟩
    · rintro ⟨a', d₂, ha, hf⟩
      cases ha
      exact hf
  | error e d₁ => simp

@[simp] theorem pure_eq_ok {α : Type} {a b : α} {d d' : Draft} :
    (pure a : Lowering α) d = .ok b d' ↔ a = b ∧ d = d' := by
  simp [pure, EStateM.pure]

@[simp] theorem throw_ne_ok {α : Type} {e : CompileError} {b : α} {d d' : Draft} :
    (throw e : Lowering α) d ≠ .ok b d' := by
  intro h
  change EStateM.Result.error e d = .ok b d' at h
  cases h

theorem get_bind {α : Type} (f : Draft → Lowering α) (d : Draft) : (get >>= f) d = f d d :=
  rfl

theorem set_eq_ok {s d d' : Draft} {u : Unit} :
    (set s : Lowering Unit) d = .ok u d' ↔ s = d' := by
  change EStateM.Result.ok () s = .ok u d' ↔ _
  simp

/-- A sign before anything but a number is a product with minus one. -/
theorem read_neg (span : Span) {operand : Expr} (h : operand.form ≠ .number) :
    read (.unary span .neg operand) =
      read operand >>= fun o => demand operand o >>= fun t => pure (some t.negate) := by
  cases operand with
  | number => exact absurd rfl h
  | _ => rw [read.eq_def (.unary ..)]

/-- The values of a header are constrained like any others. -/
theorem constrainValues_eq (entries : List (Expr × Expr)) :
    constrainValues entries = constrainAll (entries.map Prod.snd) := by
  induction entries with
  | nil => rfl
  | cons entry entries ih =>
    rw [constrainValues.eq_def, List.map_cons, constrainAll.eq_def]
    simp only [ih]

/-- A property of readings that sequencing keeps and that the steps of reading a header have. -/
structure StepClosed (P : ∀ {α : Type}, Lowering α → Prop) : Prop where
  pure : ∀ {α : Type} (a : α), P (pure a)
  throw : ∀ {α : Type} {e : CompileError}, e ≠ .malformed .missingOperand →
    P (throw e : Lowering α)
  bind : ∀ {α β : Type} {x : Lowering α} {f : α → Lowering β},
    P x → (∀ a, P (f a)) → P (x >>= f)
  declare : ∀ iterator, P (declare iterator)
  symbol : ∀ name, P (symbol name)
  addChain : ∀ left t links, P (addChain left t links)

namespace StepClosed

variable {P : ∀ {α : Type}, Lowering α → Prop}

theorem demand (h : StepClosed P) (e : Expr) (o : Option Term) : P (Lowering.demand e o) := by
  cases o with
  | none => exact h.throw (by simp)
  | some t => exact h.pure t

theorem operand (h : StepClosed P) {e : Expr} (he : P (Lowering.read e)) {β : Type}
    {f : Term → Lowering β} (hf : ∀ t, P (f t)) :
    P (Lowering.read e >>= fun o => Lowering.demand e o >>= f) :=
  h.bind he fun o => h.bind (h.demand e o) hf

theorem ofBinary (h : StepClosed P) (op : BinaryOp) : P (liftExcept (ArithOp.ofBinary op)) := by
  unfold ArithOp.ofBinary
  cases ArithOp.ofBinary? op with
  | none => exact h.throw (by simp)
  | some o => exact h.pure o

theorem declareAll (h : StepClosed P) (items : List Expr) : P (Lowering.declareAll items) := by
  induction items with
  | nil => exact h.pure ()
  | cons e es ih =>
    rw [Lowering.declareAll.eq_def]
    cases e with
    | name span text => exact h.bind (h.declare text) fun _ => ih
    | _ => exact h.bind (h.throw (by simp)) fun _ => ih

theorem declareKeys (h : StepClosed P) (entries : List (Expr × Expr)) :
    P (Lowering.declareKeys entries) := by
  induction entries with
  | nil => exact h.pure ()
  | cons entry entries ih =>
    obtain ⟨key, value⟩ := entry
    rw [Lowering.declareKeys.eq_def]
    cases key with
    | list span items => exact h.bind (h.declareAll items) fun _ => ih
    | tuple span items => exact h.bind (h.declareAll items) fun _ => ih
    | _ => exact h.bind (h.throw (by simp)) fun _ => ih

theorem readLinks_cons (h : StepClosed P) {odd : Bool} {op : CompareOp} {e : Expr}
    {links : List (CompareOp × Expr)} (he : P (Lowering.read e))
    (hsides : ∀ span left right, e = .binary span left .bitXor right →
      P (Lowering.read left) ∧ P (Lowering.read right))
    (hlinks : P (Lowering.readLinks odd links)) :
    P (Lowering.readLinks odd ((op, e) :: links)) := by
  by_cases hjoint : ∃ span left right, e = .binary span left .bitXor right
  · obtain ⟨span, left, right, rfl⟩ := hjoint
    obtain ⟨hl, hr⟩ := hsides span left right rfl
    rw [Lowering.readLinks]
    refine h.operand hl fun _ => ?_
    split
    · exact h.throw (by simp)
    · exact h.operand hr fun _ => h.bind hlinks fun _ => h.pure _
  · rw [Lowering.readLinks.eq_3 _ _ _ _ fun span left right he => hjoint ⟨span, left, right, he⟩]
    exact h.operand he fun _ => h.bind hlinks fun _ => h.pure _

mutual

/-- Every expression is read by steps. -/
theorem read (h : StepClosed P) : ∀ e : Expr, P (Lowering.read e)
  | .name _ text => by
    rw [Lowering.read]
    exact h.bind (h.symbol text) fun _ => h.pure _
  | .number _ _ => by
    rw [Lowering.read]
    exact h.pure _
  | .binary _ left op right => by
    rw [Lowering.read]
    exact h.operand (h.read left) fun _ => h.bind (h.ofBinary op) fun _ =>
      h.operand (h.read right) fun _ => h.pure _
  | .unary span .neg operand => by
    by_cases hn : operand.form = .number
    · cases operand with
      | number =>
        rw [Lowering.read]
        exact h.pure _
      | _ => simp [Expr.form] at hn
    · rw [read_neg span hn]
      exact h.operand (h.read operand) fun _ => h.pure _
  | .unary _ .pos operand => by
    rw [Lowering.read]
    exact h.operand (h.read operand) fun _ => h.pure _
  | .unary _ .not _ | .unary _ .invert _ | .connect _ .or _ => by
    rw [Lowering.read]
    exact h.throw (by simp)
  | .call _ _ args => by
    rw [Lowering.read]
    exact h.bind (h.readArgs args) fun _ => h.pure _
  | .compare _ left links => by
    rw [Lowering.read]
    exact h.operand (h.read left) fun t => h.bind (h.readLinks _ links) fun cs =>
      h.bind (h.addChain left t cs) fun _ => h.pure _
  | .connect _ .and values => by
    rw [Lowering.read]
    exact h.bind (h.constrainAll values) fun _ => h.pure _
  | .subscript _ base index => by
    rw [Lowering.read]
    exact h.bind (h.read base) fun _ => h.bind (h.read index) fun _ => h.pure _
  | .tuple _ items | .list _ items => by
    rw [Lowering.read]
    exact h.bind (h.readAll items) fun _ => h.pure _
  | .dict _ entries => by
    rw [Lowering.read]
    exact h.bind (h.declareKeys entries) fun _ =>
      h.bind (h.constrainValues entries) fun _ => h.pure _

theorem readArgs (h : StepClosed P) : ∀ es : List Expr, P (Lowering.readArgs es)
  | [] => by
    rw [Lowering.readArgs]
    exact h.pure _
  | e :: es => by
    rw [Lowering.readArgs]
    exact h.operand (h.read e) fun _ => h.bind (h.readArgs es) fun _ => h.pure _

theorem readAll (h : StepClosed P) : ∀ es : List Expr, P (Lowering.readAll es)
  | [] => by
    rw [Lowering.readAll]
    exact h.pure _
  | e :: es => by
    rw [Lowering.readAll]
    exact h.bind (h.read e) fun _ => h.readAll es

theorem readLinks (h : StepClosed P) : ∀ (odd : Bool) (links : List (CompareOp × Expr)),
    P (Lowering.readLinks odd links)
  | _, [] => by
    rw [Lowering.readLinks]
    exact h.pure _
  | odd, (_, e) :: links =>
    h.readLinks_cons (h.read e) (h.read_sides e) (h.readLinks odd links)

theorem read_sides (h : StepClosed P) : ∀ (e : Expr) (span : Span) (left right : Expr),
    e = .binary span left .bitXor right → P (Lowering.read left) ∧ P (Lowering.read right)
  | .binary _ l _ r, _, _, _, he => by
    -- read both before `cases`, which hides that they are parts of the expression
    have hl := h.read l
    have hr := h.read r
    cases he
    exact ⟨hl, hr⟩
  | .name .., _, _, _, he | .number .., _, _, _, he | .unary .., _, _, _, he
  | .connect .., _, _, _, he | .compare .., _, _, _, he | .call .., _, _, _, he
  | .subscript .., _, _, _, he | .tuple .., _, _, _, he | .list .., _, _, _, he
  | .dict .., _, _, _, he => by cases he

theorem constrainAll (h : StepClosed P) : ∀ es : List Expr, P (Lowering.constrainAll es)
  | [] => by
    rw [Lowering.constrainAll]
    exact h.pure _
  | e :: es => by
    have he := h.read e
    have hes := h.constrainAll es
    rw [Lowering.constrainAll.eq_def]
    cases e with
    | compare | connect => exact h.bind he fun _ => hes
    | _ => exact h.bind (h.throw (by simp)) fun _ => hes

theorem constrainValues (h : StepClosed P) :
    ∀ entries : List (Expr × Expr), P (Lowering.constrainValues entries)
  | [] => by
    rw [Lowering.constrainValues]
    exact h.pure _
  | (_, e) :: entries => by
    have he := h.read e
    have hentries := h.constrainValues entries
    rw [Lowering.constrainValues.eq_def]
    cases e with
    | compare | connect => exact h.bind he fun _ => hentries
    | _ => exact h.bind (h.throw (by simp)) fun _ => hentries

end

end StepClosed

/-! ### The name of the space -/

/-- A reading that leaves the name of the space as it is. -/
def KeepsName {α : Type} (x : Lowering α) : Prop :=
  ∀ d a d', x d = .ok a d' → d'.space.name = d.space.name

theorem foldl_addRelation_name (rs : List Relation) (s : Space) :
    (rs.foldl Space.addRelation s).name = s.name := by
  induction rs generalizing s with
  | nil => rfl
  | cons r rs ih =>
    rw [List.foldl_cons, ih]
    rfl

theorem keepsName_addChain (left : Expr) (t : Term) (links : List (CompareOp × Chain.Comparand)) :
    KeepsName (addChain left t links) := by
  intro d a d' h
  rw [addChain, get_bind] at h
  cases hr : Chain.relations (.begin d.nextId t) links with
  | ok r =>
    rw [hr] at h
    rw [← set_eq_ok.mp h]
    exact foldl_addRelation_name r.1 d.space
  | error fault =>
    rw [hr] at h
    cases fault <;> exact absurd h throw_ne_ok

theorem stepClosed_keepsName : StepClosed @KeepsName where
  pure a d b d' h := by
    obtain ⟨-, rfl⟩ := pure_eq_ok.mp h
    rfl
  throw _ d b d' h := absurd h throw_ne_ok
  bind hx hf d b d' h := by
    obtain ⟨a, d₁, ha, hb⟩ := bind_eq_ok.mp h
    rw [hf a d₁ b d' hb, hx d a d₁ ha]
  declare _ d _ d' h := by
    cases h
    rfl
  symbol _ d _ d' h := by
    cases h
    rfl
  addChain := keepsName_addChain

end Lowering

end LoopNest
