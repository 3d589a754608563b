import LoopNest.Program.Basic

/-!
# The expressions inside an expression

Every expression is made of others, its children, and a statement is made of its targets and its
value. Whatever is reached from child to child occurs in the expression. The children come in the
order of a walk: operands from left to right, and the keys of a dict display before its values.
-/

namespace LoopNest

namespace Expr

/-- The expressions that an expression is made of. -/
def children : Expr → List Expr
  | .name .. | .number .. => []
  | .binary _ left _ right => [left, right]
  | .unary _ _ operand => [operand]
  | .connect _ _ values => values
  | .compare _ left links => left :: links.map Prod.snd
  | .call _ _ args => args
  | .subscript _ base index => [base, index]
  | .tuple _ items => items
  | .list _ items => items
  | .dict _ entries => entries.map Prod.fst ++ entries.map Prod.snd

/-- An expression occurs in itself and wherever it occurs in a child. -/
inductive Occurs (e : Expr) : Expr → Prop where
  | here : Occurs e e
  | inside {root child : Expr} (hchild : child ∈ root.children) (h : Occurs e child) : Occurs e root

mutual

/-- What holds of an expression whenever it holds of its children holds of every expression. -/
theorem induction_on_children {P : Expr → Prop}
    (h : ∀ e, (∀ child ∈ e.children, P child) → P e) : ∀ e : Expr, P e
  | .name .. | .number .. => h _ (by simp [children])
  | .binary _ left _ right => by
    apply h
    have hl := induction_on_children h left
    have hr := induction_on_children h right
    simp [children, hl, hr]
  | .unary _ _ operand => h _ (List.forall_mem_singleton.mpr (induction_on_children h operand))
  | .connect _ _ values => h _ (forall_of_children h values)
  | .compare _ left links =>
    h _ (List.forall_mem_cons.mpr ⟨induction_on_children h left, forall_links_of_children h links⟩)
  | .call _ _ args => h _ (forall_of_children h args)
  | .subscript _ base index => by
    apply h
    have hb := induction_on_children h base
    have hi := induction_on_children h index
    simp [children, hb, hi]
  | .tuple _ items | .list _ items => h _ (forall_of_children h items)
  | .dict _ entries => by
    have hentries := forall_entries_of_children h entries
    refine h _ (List.forall_mem_append.mpr ⟨?_, ?_⟩)
    · exact List.forall_mem_map.mpr fun entry he => (hentries entry he).1
    · exact List.forall_mem_map.mpr fun entry he => (hentries entry he).2

theorem forall_of_children {P : Expr → Prop} (h : ∀ e, (∀ child ∈ e.children, P child) → P e) :
    ∀ es : List Expr, ∀ e ∈ es, P e
  | [] => by simp
  | e :: es => List.forall_mem_cons.mpr ⟨induction_on_children h e, forall_of_children h es⟩

theorem forall_links_of_children {P : Expr → Prop}
    (h : ∀ e, (∀ child ∈ e.children, P child) → P e) :
    ∀ links : List (CompareOp × Expr), ∀ e ∈ links.map Prod.snd, P e
  | [] => by simp
  | (_, e) :: links =>
    List.forall_mem_cons.mpr ⟨induction_on_children h e, forall_links_of_children h links⟩

theorem forall_entries_of_children {P : Expr → Prop}
    (h : ∀ e, (∀ child ∈ e.children, P child) → P e) :
    ∀ entries : List (Expr × Expr), ∀ entry ∈ entries, P entry.1 ∧ P entry.2
  | [] => by simp
  | (key, value) :: entries =>
    List.forall_mem_cons.mpr ⟨⟨induction_on_children h key, induction_on_children h value⟩,
      forall_entries_of_children h entries⟩

end

theorem occurs_iff {e root : Expr} :
    e.Occurs root ↔ e = root ∨ ∃ child ∈ root.children, e.Occurs child := by
  constructor
  · intro h
    cases h with
    | here => exact .inl rfl
    | inside hchild h => exact .inr ⟨_, hchild, h⟩
  · rintro (rfl | ⟨child, hchild, h⟩)
    · exact .here
    · exact .inside hchild h

/-- What holds in an expression is what holds of it and in its children. -/
theorem forall_occurs_iff {P : Expr → Prop} {root : Expr} :
    (∀ e, e.Occurs root → P e) ↔ P root ∧ ∀ child ∈ root.children, ∀ e, e.Occurs child → P e := by
  constructor
  · exact fun h => ⟨h root .here, fun child hchild e he => h e (.inside hchild he)⟩
  · rintro ⟨hroot, hchildren⟩ e he
    rcases occurs_iff.mp he with rfl | ⟨child, hchild, he⟩
    · exact hroot
    · exact hchildren child hchild e he

end Expr

namespace Stmt

/-- What a statement assigns to. -/
def targets : Stmt → List Expr
  | .assign _ targets _ => targets
  | .augment _ target _ _ => [target]
  | .eval .. => []

def value : Stmt → Expr
  | .assign _ _ value | .augment _ _ _ value | .eval _ value => value

/-- The expressions that a statement is made of. -/
def children (s : Stmt) : List Expr :=
  s.targets ++ [s.value]

/-- An expression anywhere in a statement. -/
def Contains (s : Stmt) (e : Expr) : Prop :=
  ∃ root ∈ s.children, e.Occurs root

theorem forall_children_iff {P : Expr → Prop} {s : Stmt} :
    (∀ e ∈ s.children, P e) ↔ (∀ e ∈ s.targets, P e) ∧ P s.value := by
  rw [children, List.forall_mem_append, List.forall_mem_singleton]

end Stmt

end LoopNest
