import LoopNest.Proofs.Alignment
import LoopNest.Proofs.HeaderReading

/-!
# Expressions of terms

Every term has an expression that stands for it: a literal with a sign is a negated number, and
every operation is the binary operation that reads as it. Links and chains of terms have
expressions likewise. The expressions have no place in a source.
-/

namespace LoopNest

/-- The binary operation that reads as an operation of terms. -/
def ArithOp.binary : ArithOp → BinaryOp
  | add => .add
  | sub => .sub
  | mul => .mult
  | div => .div
  | mod => .mod
  | pow => .pow

@[simp] theorem ArithOp.ofBinary?_binary (op : ArithOp) : ofBinary? op.binary = some op := by
  cases op <;> rfl

/-- The expression of a literal, which is a negation when the literal has a sign. -/
def Expr.ofLiteral (text : String) : Expr :=
  match text.toList with
  | '-' :: digits => .unary .nowhere .neg (.number .nowhere (String.ofList digits))
  | _ => .number .nowhere text

theorem Expr.term?_ofLiteral (iterators : List String) (text : String) :
    (ofLiteral text).term? iterators = some (.literal text) := by
  unfold ofLiteral
  split
  · next digits h =>
    have htext : "-" ++ String.ofList digits = text := by
      simp [← String.toList_inj, h]
    rw [term?, htext]
  · rw [term?]

namespace Term

mutual

/-- An expression that stands for a term. -/
def expr : Term → Expr
  | iterator name => .name .nowhere name
  | constant name => .name .nowhere name
  | literal text => .ofLiteral text
  | apply function args => .call .nowhere function (exprs args)
  | arith left op right => .binary .nowhere left.expr op.binary right.expr

def exprs : List Term → List Expr
  | [] => []
  | t :: ts => t.expr :: exprs ts

end

mutual

/-- Whether a term is read among the given iterators: it calls these and no other names
iterators. -/
def Resolved (iterators : List String) : Term → Prop
  | iterator name => name ∈ iterators
  | constant name => name ∉ iterators
  | literal _ => True
  | apply _ args => AllResolved iterators args
  | arith left _ right => left.Resolved iterators ∧ right.Resolved iterators

def AllResolved (iterators : List String) : List Term → Prop
  | [] => True
  | t :: ts => t.Resolved iterators ∧ AllResolved iterators ts

end

mutual

/-- The expression of a term stands for it among iterators that resolve it. -/
theorem term?_expr {iterators : List String} :
    ∀ t : Term, t.Resolved iterators → t.expr.term? iterators = some t
  | iterator name, h => by
    rw [expr, Expr.term?, if_pos (show name ∈ iterators from h)]
  | constant name, h => by
    rw [expr, Expr.term?, if_neg (show name ∉ iterators from h)]
  | literal text, _ => by rw [expr, Expr.term?_ofLiteral]
  | apply function args, h => by
    rw [expr, Expr.term?, termsOf?_exprs args (by simpa [Resolved] using h)]
    rfl
  | arith left op right, h => by
    have hb : left.Resolved iterators ∧ right.Resolved iterators := by simpa [Resolved] using h
    rw [expr, Expr.term?, term?_expr left hb.1, term?_expr right hb.2, ArithOp.ofBinary?_binary]
    rfl

theorem termsOf?_exprs {iterators : List String} :
    ∀ ts : List Term, AllResolved iterators ts → termsOf? iterators (exprs ts) = some ts
  | [], _ => by rw [exprs, termsOf?]
  | t :: ts, h => by
    have hb : t.Resolved iterators ∧ AllResolved iterators ts := by simpa [AllResolved] using h
    rw [exprs, termsOf?, term?_expr t hb.1, termsOf?_exprs ts hb.2]
    rfl

end

/-- A term is no conjunction. -/
theorem isConjunction_expr (t : Term) : t.expr.isConjunction = false := by
  cases t with
  | literal text =>
    rw [expr, Expr.ofLiteral]
    split <;> rfl
  | arith left op right => cases op <;> simp [expr, ArithOp.binary, Expr.isConjunction]
  | _ => simp [expr, Expr.isConjunction]

end Term

mutual

/-- A term that is read calls the iterators it is read among, and no other names, iterators. -/
theorem Expr.resolved_of_term? {iterators : List String} :
    ∀ (e : Expr) {t : Term}, e.term? iterators = some t → t.Resolved iterators
  | .name _ text, t, ht => by
    rw [Expr.term?, Option.some.injEq] at ht
    subst ht
    split
    · next hmem => exact hmem
    · next hmem => exact hmem
  | .number _ text, t, ht => by
    rw [Expr.term?, Option.some.injEq] at ht
    subst ht
    trivial
  | .binary _ left op right, t, ht => by
    simp only [Expr.term?, Option.bind_eq_bind, Option.bind_eq_some_iff, Option.pure_def,
      Option.some.injEq] at ht
    obtain ⟨l, htl, o, -, r, htr, rfl⟩ := ht
    exact ⟨left.resolved_of_term? htl, right.resolved_of_term? htr⟩
  | .unary _ .neg operand, t, ht => by
    by_cases hn : operand.form = .number
    · cases operand with
      | number =>
        rw [Expr.term?, Option.some.injEq] at ht
        subst ht
        trivial
      | _ => simp [Expr.form] at hn
    · rw [Expr.term?_neg _ _ hn] at ht
      obtain ⟨u, hu, rfl⟩ := Option.map_eq_some_iff.mp ht
      exact ⟨trivial, operand.resolved_of_term? hu⟩
  | .unary _ .pos operand, t, ht => by
    rw [Expr.term?] at ht
    exact operand.resolved_of_term? ht
  | .call _ callee args, t, ht => by
    rw [Expr.term?] at ht
    obtain ⟨ts, hts, rfl⟩ := Option.map_eq_some_iff.mp ht
    exact allResolved_of_termsOf? args hts
  | .unary _ .not _, _, ht | .unary _ .invert _, _, ht | .connect .., _, ht | .compare .., _, ht
  | .subscript .., _, ht | .tuple .., _, ht | .list .., _, ht | .dict .., _, ht => by
    simp [Expr.term?] at ht

theorem allResolved_of_termsOf? {iterators : List String} :
    ∀ (es : List Expr) {ts : List Term}, termsOf? iterators es = some ts →
      Term.AllResolved iterators ts
  | [], ts, hts => by
    rw [termsOf?, Option.some.injEq] at hts
    subst hts
    trivial
  | e :: es, ts, hts => by
    simp only [termsOf?, Option.bind_eq_bind, Option.bind_eq_some_iff, Option.pure_def,
      Option.some.injEq] at hts
    obtain ⟨t, ht, us, hus, rfl⟩ := hts
    exact ⟨e.resolved_of_term? ht, allResolved_of_termsOf? es hus⟩

end

namespace Chain

/-- The expression a link compares with. -/
def Comparand.expr : Comparand → Expr
  | single t => t.expr
  | joint close reopen => .binary .nowhere close.expr .bitXor reopen.expr

/-- The links of a chain as expressions. -/
def exprs (links : List (CompareOp × Comparand)) : List (CompareOp × Expr) :=
  links.map fun l => (l.1, l.2.expr)

/-- The comparison that a chain of terms stands for. -/
def comparison (chain : Links) : Expr :=
  .compare .nowhere chain.1.expr (exprs chain.2)

theorem comparands?_exprs {iterators : List String} {links : List (CompareOp × Comparand)}
    (h : ∀ l ∈ links, ∀ t ∈ l.2.terms, t.Resolved iterators) :
    comparands? iterators (exprs links) = some links := by
  induction links with
  | nil => rfl
  | cons link links ih =>
    have hrest := ih fun l hl => h l (List.mem_cons_of_mem _ hl)
    have hlink := h link List.mem_cons_self
    obtain ⟨op, c⟩ := link
    cases c with
    | single t =>
      have ht : t.Resolved iterators := hlink t (by simp [Comparand.terms])
      refine (comparands?_single_eq_some_iff ?_).mpr ⟨t, links, t.term?_expr ht, hrest, rfl⟩
      intro span left right he
      have hc := t.isConjunction_expr
      rw [show t.expr = .binary span left .bitXor right from he] at hc
      simp [Expr.isConjunction] at hc
    | joint close reopen =>
      have hclose : close.Resolved iterators := hlink close (by simp [Comparand.terms])
      have hreopen : reopen.Resolved iterators := hlink reopen (by simp [Comparand.terms])
      exact comparands?_joint_eq_some_iff.mpr
        ⟨close, reopen, links, close.term?_expr hclose, reopen.term?_expr hreopen, hrest, rfl⟩

/-- Comparisons of chains are read as these chains. -/
theorem chainsOf?_comparison {iterators : List String} {chains : List Links}
    (h : ∀ chain ∈ chains, chain.1.Resolved iterators ∧
      ∀ l ∈ chain.2, ∀ t ∈ l.2.terms, t.Resolved iterators) :
    chainsOf? iterators (chains.map comparison) = some chains := by
  induction chains with
  | nil => simp [chainsOf?]
  | cons chain chains ih =>
    obtain ⟨ht, hl⟩ := h chain List.mem_cons_self
    have hrest := ih fun c hc => h c (List.mem_cons_of_mem _ hc)
    simp [comparison, chainsOf?, Expr.chains?, hrest, chain.1.term?_expr ht, comparands?_exprs hl]

end Chain

end LoopNest
