import LoopNest.Proofs.FieldMentions
import LoopNest.Proofs.Subexpressions

/-!
# Where fields occur in a body

An expression is made of parts, and a walk through it meets each of them twice, on the way down and on
the way up again. The occurrences of fields are met on such a walk: subscripts of a name, and bare
names that are neither iterators nor constants. The name that a subscript is taken of is no part of the
subscript, since it does not occur there on its own.
-/

namespace LoopNest

namespace Expr

/-- What an expression is made of, in the order in which it is read. -/
def parts : Expr → List Expr
  | .name .. | .number .. => []
  | .binary _ left _ right => [left, right]
  | .unary _ _ operand => [operand]
  | .connect _ _ values => values
  | .compare _ left links => left :: links.map Prod.snd
  | .call _ _ args => args
  | .subscript _ _ index => [index]
  | .tuple _ items => items
  | .list _ items => items
  | .dict _ entries => entries.map Prod.fst ++ entries.map Prod.snd

theorem parts_subset_children (e : Expr) : e.parts ⊆ e.children := by
  cases e <;> simp [parts, children]

/-- What holds of an expression whenever it holds of its parts holds of every expression. -/
theorem induction_on_parts {P : Expr → Prop} (h : ∀ e, (∀ part ∈ e.parts, P part) → P e)
    (e : Expr) : P e :=
  induction_on_children (fun e ih => h e fun part hpart => ih part (e.parts_subset_children hpart)) e

end Expr

mutual

/-- What is noted on a walk through an expression: `down e` before the parts of `e` are visited, and
`up e` behind them. -/
def Expr.walk {α : Type} (down up : Expr → List α) : Expr → List α
  | e@(.name ..) | e@(.number ..) => down e ++ up e
  | e@(.binary _ left _ right) => down e ++ (left.walk down up ++ right.walk down up) ++ up e
  | e@(.unary _ _ operand) => down e ++ operand.walk down up ++ up e
  | e@(.connect _ _ values) => down e ++ walkAll down up values ++ up e
  | e@(.compare _ left links) =>
    down e ++ (left.walk down up ++ walkLinks down up links) ++ up e
  | e@(.call _ _ args) => down e ++ walkAll down up args ++ up e
  | e@(.subscript _ _ index) => down e ++ index.walk down up ++ up e
  | e@(.tuple _ items) | e@(.list _ items) => down e ++ walkAll down up items ++ up e
  | e@(.dict _ entries) =>
    down e ++ (walkKeys down up entries ++ walkValues down up entries) ++ up e

def walkAll {α : Type} (down up : Expr → List α) : List Expr → List α
  | [] => []
  | e :: es => e.walk down up ++ walkAll down up es

def walkLinks {α : Type} (down up : Expr → List α) : List (CompareOp × Expr) → List α
  | [] => []
  | (_, e) :: links => e.walk down up ++ walkLinks down up links

def walkKeys {α : Type} (down up : Expr → List α) : List (Expr × Expr) → List α
  | [] => []
  | (key, _) :: entries => key.walk down up ++ walkKeys down up entries

def walkValues {α : Type} (down up : Expr → List α) : List (Expr × Expr) → List α
  | [] => []
  | (_, value) :: entries => value.walk down up ++ walkValues down up entries

end

/-- A function that goes through a list and puts together what it finds at each place. -/
theorem eq_flatMap_map {α β γ : Type} {f : List γ → List β} {g : α → List β} (p : γ → α)
    (hnil : f [] = []) (hcons : ∀ c cs, f (c :: cs) = g (p c) ++ f cs) (cs : List γ) :
    f cs = (cs.map p).flatMap g := by
  induction cs with
  | nil => exact hnil
  | cons c cs ih => rw [hcons, ih, List.map_cons, List.flatMap_cons]

/-- A walk goes through the parts of an expression one after the other. -/
theorem Expr.walk_eq {α : Type} (down up : Expr → List α) (e : Expr) :
    e.walk down up = down e ++ e.parts.flatMap (Expr.walk down up) ++ up e := by
  have hall := eq_flatMap_map (f := walkAll down up) id rfl fun _ _ => rfl
  have hlinks := eq_flatMap_map (f := walkLinks down up) Prod.snd rfl fun _ _ => rfl
  have hkeys := eq_flatMap_map (f := walkKeys down up) Prod.fst rfl fun _ _ => rfl
  have hvalues := eq_flatMap_map (f := walkValues down up) Prod.snd rfl fun _ _ => rfl
  cases e <;> simp [walk, parts, hall, hlinks, hkeys, hvalues]

namespace Expr

/-- The expressions met on a walk, each before its parts. -/
def topDown (e : Expr) : List Expr :=
  e.walk ([·]) fun _ => []

/-- The expressions met on a walk, each behind its parts. -/
def bottomUp (e : Expr) : List Expr :=
  e.walk (fun _ => []) ([·])

theorem topDown_eq (e : Expr) : e.topDown = e :: e.parts.flatMap topDown := by
  rw [topDown, walk_eq, List.append_nil, List.singleton_append]
  rfl

theorem bottomUp_eq (e : Expr) : e.bottomUp = e.parts.flatMap bottomUp ++ [e] := by
  rw [bottomUp, walk_eq, List.nil_append]
  rfl

/-- On the way down and on the way up the same expressions are met. -/
theorem mem_bottomUp {e part : Expr} : part ∈ e.bottomUp ↔ part ∈ e.topDown := by
  induction e using induction_on_parts with
  | h e ih =>
    rw [e.bottomUp_eq, e.topDown_eq, List.mem_append, List.mem_singleton, or_comm, List.mem_cons,
      List.mem_flatMap, List.mem_flatMap]
    apply or_congr_right
    exact exists_congr fun inner => and_congr_right fun hinner => ih inner hinner

/-- The name that a subscript is taken of. -/
def subscripted? : Expr → Option String
  | .subscript _ base _ => base.name?
  | _ => none

/-- The components of the index of a subscript. -/
def index : Expr → List Expr
  | .subscript _ _ index => index.components
  | _ => []

end Expr

/-- The field that an expression names: a subscript that of its base, and a bare name its own unless it
is an iterator or a constant. -/
def Scope.field? (scope : Scope) : Expr → Option String
  | .name _ text => if text ∈ scope.iterators ∨ text ∈ scope.constants then none else some text
  | e => e.subscripted?

theorem Scope.field?_eq_some_iff {scope : Scope} {e : Expr} {name : String} :
    scope.field? e = some name ↔ e.subscripted? = some name ∨
      e.name? = some name ∧ name ∉ scope.iterators ∧ name ∉ scope.constants := by
  cases e with
  | name span text =>
    by_cases hscope : text ∈ scope.iterators ∨ text ∈ scope.constants
    · simp only [field?, if_pos hscope, Expr.subscripted?, Expr.name?]
      grind
    · simp only [field?, if_neg hscope, Expr.subscripted?, Expr.name?]
      grind
  | _ => simp [field?, Expr.subscripted?, Expr.name?]

/-- An expression where it occurs in a statement, and whether the statement assigns to it. -/
structure Occurrence where
  expr : Expr
  isTarget : Bool

/-- The occurrences in an expression, each behind its parts. Only the expression itself may be what is
assigned to. -/
def Expr.occurrences (isTarget : Bool) (e : Expr) : List Occurrence :=
  (e.parts.flatMap Expr.bottomUp).map (⟨·, false⟩) ++ [⟨e, isTarget⟩]

theorem Expr.occurrences_eq (isTarget : Bool) (e : Expr) :
    e.occurrences isTarget = e.parts.flatMap (occurrences false) ++ [⟨e, isTarget⟩] := by
  have hparts : ∀ part : Expr, part.bottomUp.map (⟨·, false⟩) = part.occurrences false := by
    intro part
    rw [bottomUp_eq, List.map_append, List.map_singleton]
    rfl
  rw [occurrences, List.map_flatMap]
  simp only [hparts]

theorem Expr.map_expr_occurrences (isTarget : Bool) (e : Expr) :
    (e.occurrences isTarget).map Occurrence.expr = e.bottomUp := by
  rw [occurrences, bottomUp_eq, List.map_append, List.map_map]
  exact congrArg (· ++ [e]) (List.map_id _)

namespace Stmt

/-- The expressions that a statement is made of: what it assigns to, and its value. -/
def roots : Stmt → List Occurrence
  | .assign _ targets value => targets.map (⟨·, true⟩) ++ [⟨value, false⟩]
  | .augment _ target _ value => [⟨target, true⟩, ⟨value, false⟩]
  | .eval _ value => [⟨value, false⟩]

/-- The expressions in a statement, each before its parts. -/
def topDown (s : Stmt) : List Expr :=
  s.roots.flatMap fun root => root.expr.topDown

/-- The occurrences in a statement, each behind its parts. -/
def occurrences (s : Stmt) : List Occurrence :=
  s.roots.flatMap fun root => root.expr.occurrences root.isTarget

theorem exists_occurrence {s : Stmt} {e : Expr} :
    (∃ o ∈ s.occurrences, o.expr = e) ↔ e ∈ s.topDown := by
  have hroot : ∀ root : Occurrence,
      e ∈ root.expr.topDown ↔ ∃ o ∈ root.expr.occurrences root.isTarget, o.expr = e := by
    intro root
    rw [← Expr.mem_bottomUp, ← Expr.map_expr_occurrences root.isTarget, List.mem_map]
  simp only [occurrences, topDown, List.mem_flatMap, hroot]
  constructor
  · rintro ⟨o, ⟨root, hmem, ho⟩, rfl⟩
    exact ⟨root, hmem, o, ho, rfl⟩
  · rintro ⟨root, hmem, o, ho, rfl⟩
    exact ⟨o, ⟨root, hmem, ho⟩, rfl⟩

end Stmt

end LoopNest
