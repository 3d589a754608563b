import LoopNest.Proofs.HeaderSteps
import LoopNest.Proofs.ProperTrees
import LoopNest.Proofs.TreeParsing

/-!
# Splitting chains by positions

Headers are read here from trees whose chains have their operators and their comparators in two lists.
Splitting a chain looks both up at the same positions, two at a time, and a position outside of its
list ends the reading. In the trees of programs the lists are as long as each other, so no position is
outside, and the reading is that of the expressions.
-/

namespace LoopNest

/-! ### Reading that looks up positions -/

namespace Lowering

/-- What ends a reading by positions early: a position outside of a list, or an error. -/
inductive Interruption where
  | outOfRange
  | refused (e : CompileError)

/-- Reading that looks up positions in lists. -/
abbrev Positional := EStateM Interruption Draft

namespace Positional

variable {α β : Type}

/-- Reading without any position. -/
def lift (x : Lowering α) : Positional α := fun d =>
  match x d with
  | .ok a d' => .ok a d'
  | .error e d' => .error (.refused e) d'

/-- The element of a list at a position. -/
def lookup (xs : List α) (n : Nat) : Positional α :=
  match xs[n]? with
  | some x => pure x
  | none => throw .outOfRange

theorem lift_pure (a : α) : lift (pure a) = pure a := rfl

theorem lift_throw (e : CompileError) : lift (throw e : Lowering α) = throw (.refused e) := rfl

theorem lift_bind (x : Lowering α) (f : α → Lowering β) :
    lift (x >>= f) = lift x >>= fun a => lift (f a) := by
  funext d
  simp only [lift, bind, EStateM.bind]
  cases x d <;> rfl

/-- Without any position none is out of range. -/
theorem lift_ne_outOfRange (x : Lowering α) (d d' : Draft) : lift x d ≠ .error .outOfRange d' := by
  rw [lift]
  cases x d <;> simp

end Positional

open Positional

/-- How a comparator is read, told whether it stands behind all pairs. -/
abbrev Reader := Bool → Positional Chain.Comparand

/-- The links of a chain, of which `pairs` more are looked up from position `n` on. A last odd one is
taken from the ends of both lists. -/
def linksFrom (ops : List CompareOp) (comparators : List Reader) :
    (pairs n : Nat) → Positional (List (CompareOp × Chain.Comparand))
  | 0, _ =>
    match comparators.length % 2, ops.getLast?, comparators.getLast? with
    | 1, some op, some comparator => do return [(op, ← comparator true)]
    | _, _, _ => return []
  | pairs + 1, n => do
    let comparator ← lookup comparators n
    let next ← lookup comparators (n + 1)
    let op ← lookup ops n
    let c ← comparator false
    let nextOp ← lookup ops (n + 1)
    let d ← next false
    return (op, c) :: (nextOp, d) :: (← linksFrom ops comparators pairs (n + 2))

/-- What one comparator is read as. A conjunction is taken apart, except behind all pairs. -/
def comparand (behindPairs : Bool) : Expr → Lowering Chain.Comparand
  | .binary _ left .bitXor right => do
    let close ← demand left (← read left)
    if behindPairs then throw (.unsupportedOperator BinaryOp.bitXor.symbol)
    else return .joint close (← demand right (← read right))
  | e => do return .single (← demand e (← read e))

/-- The links of a chain are read one by one. -/
theorem readLinks_cons (odd : Bool) (op : CompareOp) (e : Expr) (links : List (CompareOp × Expr)) :
    readLinks odd ((op, e) :: links) = do
      let c ← comparand (odd && links.isEmpty) e
      return (op, c) :: (← readLinks odd links) := by
  by_cases he : ∃ span left right, e = .binary span left .bitXor right
  · obtain ⟨span, left, right, rfl⟩ := he
    simp only [readLinks, comparand, bind_assoc]
    cases odd && links.isEmpty with
    | true => rfl
    | false => simp only [Bool.false_eq_true, if_false, bind_assoc, pure_bind]
  · have he : ∀ span left right, e = .binary span left .bitXor right → False :=
      fun span left right h => he ⟨span, left, right, h⟩
    rw [readLinks.eq_3 _ _ _ _ he, comparand.eq_2 _ _ he]
    simp only [bind_assoc, pure_bind]

theorem linksFrom_eq {links rest : List (CompareOp × Expr)} {pairs n : Nat}
    (hrest : links.drop n = rest) (hpairs : rest.length / 2 = pairs)
    (hodd : rest.length % 2 = links.length % 2) :
    linksFrom (links.map Prod.fst) (links.map fun link behind => lift (comparand behind link.2))
      pairs n = lift (readLinks (links.length % 2 = 1) rest) := by
  induction pairs generalizing rest n with
  | zero =>
    rcases rest with _ | ⟨⟨op, e⟩, _ | ⟨link, rest⟩⟩
    · rw [linksFrom, List.length_map, ← hodd]
      rfl
    · have hlast : links.getLast? = some (op, e) := by
        rw [← List.take_append_drop n links, hrest, List.getLast?_append]
        rfl
      rw [linksFrom, List.length_map, List.getLast?_map, List.getLast?_map, hlast, ← hodd,
        readLinks_cons]
      simp only [readLinks, lift_bind, lift_pure, pure_bind]
      rfl
    · simp only [List.length_cons] at hpairs
      omega
  | succ pairs ih =>
    rcases rest with _ | ⟨⟨op, e⟩, _ | ⟨⟨nextOp, next⟩, rest⟩⟩
    · simp only [List.length_nil] at hpairs
      omega
    · simp only [List.length_cons, List.length_nil] at hpairs
      omega
    · -- the pair stands at `n` and `n + 1`, and no odd link follows a pair directly
      have hpair : ∀ i, (links.drop n)[i]? = links[n + i]? := fun i => List.getElem?_drop
      have hfirst : links[n]? = some (op, e) := by
        rw [← Nat.add_zero n, ← hpair, hrest]
        rfl
      have hsecond : links[n + 1]? = some (nextOp, next) := by
        rw [← hpair, hrest]
        rfl
      have hbehind : links.drop (n + 2) = rest := by
        rw [← List.drop_drop, hrest]
        rfl
      simp only [List.length_cons] at hpairs hodd
      have hlast : (decide (links.length % 2 = 1) && rest.isEmpty) = false := by
        cases rest with
        | nil =>
          rw [← hodd]
          rfl
        | cons => simp
      rw [linksFrom, ih hbehind (by omega) (by omega), readLinks_cons, readLinks_cons, hlast]
      simp only [lookup, List.getElem?_map, hfirst, hsecond, Option.map_some, pure_bind, lift_bind,
        lift_pure, bind_assoc, List.isEmpty_cons, Bool.and_false]

end Lowering

/-! ### Headers over nodes -/

namespace Node

open Lowering Positional

/-- The keys of a header are lists or tuples of iterators. -/
def declareKeys : List Node → Positional Unit
  | [] => return ()
  | key :: keys => do
    match key with
    | .list _ items | .tuple _ items => lift (declareAll (items.map expr))
    | _ => throw (.refused (.malformed (.iteratorList key.form)))
    declareKeys keys

mutual

/-- The term a node stands for, if it is one. -/
def read : Node → Positional (Option Term)
  | .name _ text => do return some (← lift (symbol text))
  | .number _ text => return some (.literal text)
  | .binary _ left op right => do
    let l ← lift (demand left.expr (← left.read))
    let op ← lift (Lowering.liftExcept (ArithOp.ofBinary op))
    let r ← lift (demand right.expr (← right.read))
    return some (.arith l op r)
  | .unary _ .neg (.number _ text) => return some (.literal ("-" ++ text))
  | .unary _ .neg operand => do
    let t ← lift (demand operand.expr (← operand.read))
    return some t.negate
  | .unary _ .pos operand => do
    let t ← lift (demand operand.expr (← operand.read))
    return some t
  | .unary _ .not _ => throw (.refused (.unsupportedOperator "not"))
  | .unary _ .invert _ => throw (.refused (.unsupportedOperator "~"))
  | .call _ callee args => do return some (.apply callee (← readArgs args))
  | .compare _ left ops comparators => do
    let l ← lift (demand left.expr (← left.read))
    let links ← linksFrom ops (readers comparators) (comparators.length / 2) 0
    lift (addChain left.expr l links)
    return none
  | .connect span .or _ => throw (.refused (.unsupported (.disjunction span)))
  | .connect _ .and values => do
    constrainAll values
    return none
  | .subscript _ base index => do
    let _ ← base.read
    let _ ← index.read
    return none
  | .tuple _ items | .list _ items => do
    readAll items
    return none
  | .dict _ keys values => do
    declareKeys keys
    constrainAll values
    return none

/-- The arguments of a call, all of them terms. -/
def readArgs : List Node → Positional (List Term)
  | [] => return []
  | t :: ts => do
    let term ← lift (demand t.expr (← t.read))
    return term :: (← readArgs ts)

def readAll : List Node → Positional Unit
  | [] => return ()
  | t :: ts => do
    let _ ← t.read
    readAll ts

/-- How each comparator of a chain is read. -/
def readers : List Node → List Reader
  | [] => []
  | .binary _ left .bitXor right :: ts =>
    (fun behindPairs => do
      let close ← lift (demand left.expr (← left.read))
      if behindPairs then throw (.refused (.unsupportedOperator BinaryOp.bitXor.symbol))
      else return .joint close (← lift (demand right.expr (← right.read)))) :: readers ts
  | t :: ts => (fun _ => do return .single (← lift (demand t.expr (← t.read)))) :: readers ts

/-- Each of some constraints, which are comparisons and connected constraints. -/
def constrainAll : List Node → Positional Unit
  | [] => return ()
  | t :: ts => do
    match t with
    | .compare .. | .connect .. => let _ ← t.read
    | _ => throw (.refused (.unsupported (.constraint t.form t.span)))
    constrainAll ts

end

namespace Stmt

/-- An assignment names the space and says what is in it. -/
def visit : Stmt → Positional Unit
  | .assign _ [.name _ text] value => do
    lift (modify fun d => { d with space := { d.space with name := text } })
    match value with
    | .dict .. => let _ ← value.read
    | _ => throw (.refused (.malformed (.headerValue text value.form)))
  | .assign .. => throw (.refused (.malformed .headerTarget))
  | .augment .. => throw (.refused (.malformed .headerAugmented))
  | .eval _ value => do let _ ← value.read

/-- The space that a statement over nodes describes. -/
def header (s : Stmt) : Positional Space := do
  lift (modify fun d => { d with space := Space.named "" })
  s.visit
  lift named

end Stmt

/-- An operator too few is met as a position outside of the operators. -/
example : (Node.compare .nowhere (.number .nowhere "0") [.lt]
    [.number .nowhere "1", .number .nowhere "2"]).read Draft.empty =
      .error .outOfRange Draft.empty := rfl

/-! ### Reading in shape -/

/-- A node is read by positions as its expression is without any. -/
def ReadsAlike (t : Node) : Prop :=
  t.read = lift (Lowering.read t.expr)

theorem declareKeys_eq {keys values : List Node} (h : keys.length = values.length) :
    declareKeys keys =
      lift (Lowering.declareKeys ((keys.map expr).zip (values.map expr))) := by
  induction keys generalizing values with
  | nil => rfl
  | cons key keys ih =>
    cases values with
    | nil => cases h
    | cons value values =>
      have hrest := ih (Nat.succ.inj h)
      rw [declareKeys.eq_def, List.map_cons, List.map_cons, List.zip_cons_cons,
        Lowering.declareKeys.eq_def]
      cases key with
      | list | tuple => simp only [hrest, expr, exprs_eq_map, lift_bind]
      | _ =>
        simp only [hrest, expr, lift_bind, lift_throw]
        rfl

/-- Only a conjunction of nodes has a conjunction as its expression. -/
theorem exists_conjunction_of_expr {t : Node} {span : Span} {left right : Expr}
    (h : t.expr = .binary span left .bitXor right) : ∃ l r, t = .binary span l .bitXor r := by
  cases t with
  | binary _ l _ r =>
    cases h
    exact ⟨l, r, rfl⟩
  | _ => cases h

section Lists

variable {ts : List Node} (h : ∀ t ∈ ts, t.ReadsAlike)
include h

theorem readArgs_eq : readArgs ts = lift (Lowering.readArgs (ts.map expr)) := by
  induction ts with
  | nil => rfl
  | cons t ts ih =>
    obtain ⟨ht, hts⟩ := List.forall_mem_cons.mp h
    rw [ReadsAlike] at ht
    rw [readArgs, List.map_cons, Lowering.readArgs, ih hts, ht]
    simp only [lift_bind, lift_pure]

theorem readAll_eq : readAll ts = lift (Lowering.readAll (ts.map expr)) := by
  induction ts with
  | nil => rfl
  | cons t ts ih =>
    obtain ⟨ht, hts⟩ := List.forall_mem_cons.mp h
    rw [ReadsAlike] at ht
    rw [readAll, List.map_cons, Lowering.readAll, ih hts, ht]
    simp only [lift_bind]

theorem constrainAll_eq : constrainAll ts = lift (Lowering.constrainAll (ts.map expr)) := by
  induction ts with
  | nil => rfl
  | cons t ts ih =>
    obtain ⟨ht, hts⟩ := List.forall_mem_cons.mp h
    rw [ReadsAlike] at ht
    rw [constrainAll.eq_def, List.map_cons, Lowering.constrainAll.eq_def]
    cases t with
    | compare | connect =>
      simp only [expr, lift_bind, ih hts] at ht ⊢
      rw [ht]
    | _ =>
      simp only [expr, lift_bind, lift_throw, ih hts]
      rfl

/-- Comparators are read as their expressions are, the sides of a conjunction each for itself. -/
theorem readers_eq (hsides : ∀ t ∈ ts, ∀ side ∈ t.children, side.ReadsAlike) :
    readers ts = ts.map fun t behindPairs => lift (comparand behindPairs t.expr) := by
  induction ts with
  | nil => rfl
  | cons t ts ih =>
    obtain ⟨ht, hts⟩ := List.forall_mem_cons.mp h
    obtain ⟨hside, hrest⟩ := List.forall_mem_cons.mp hsides
    by_cases hjoint : ∃ span left right, t = .binary span left .bitXor right
    · obtain ⟨span, left, right, rfl⟩ := hjoint
      have hl : left.read = lift (Lowering.read left.expr) := hside left (by simp [children])
      have hr : right.read = lift (Lowering.read right.expr) := hside right (by simp [children])
      rw [readers, ih hts hrest, List.map_cons]
      refine congrArg (· :: _) (funext fun behindPairs => ?_)
      simp only [expr, comparand, lift_bind, hl, hr]
      cases behindPairs with
      | true => rfl
      | false => simp only [Bool.false_eq_true, if_false, lift_bind, lift_pure]
    · have hne : ∀ span left right, t = .binary span left .bitXor right → False :=
        fun span left right ht => hjoint ⟨span, left, right, ht⟩
      have hexpr : ∀ span left right, t.expr = .binary span left .bitXor right → False := by
        intro span left right he
        obtain ⟨l, r, rfl⟩ := exists_conjunction_of_expr he
        exact hne span l r rfl
      rw [ReadsAlike] at ht
      rw [readers.eq_3 _ _ hne, ih hts hrest, List.map_cons]
      refine congrArg (· :: _) (funext fun behindPairs => ?_)
      rw [comparand.eq_2 _ _ hexpr, ht]
      simp only [lift_bind, lift_pure]

end Lists

/-- A sign before anything but a number is a product with minus one. -/
theorem read_neg (span : Span) {operand : Node} (h : operand.form ≠ .number) :
    (unary span .neg operand).read = (do
      let t ← lift (demand operand.expr (← operand.read))
      return some t.negate) := by
  cases operand with
  | number => exact absurd rfl h
  | _ => rw [read.eq_def (.unary ..)]

/-- With an operator for each comparator no position is out of range, and the links of a chain are
those that are read one by one. -/
theorem linksFrom_readers {ops : List CompareOp} {comparators : List Node}
    (hlength : ops.length = comparators.length) (h : ∀ t ∈ comparators, t.ReadsAlike)
    (hsides : ∀ t ∈ comparators, ∀ side ∈ t.children, side.ReadsAlike) :
    linksFrom ops (readers comparators) (comparators.length / 2) 0 =
      lift (readLinks (comparators.length % 2 = 1) (ops.zip (comparators.map expr))) := by
  have hlinks := @linksFrom_eq (ops.zip (comparators.map expr)) _ _ 0 rfl rfl rfl
  have hmap : ops.length = (comparators.map expr).length := by rwa [List.length_map]
  have hzip : (ops.zip (comparators.map expr)).length = comparators.length := by simp [hlength]
  have hops : (ops.zip (comparators.map expr)).map Prod.fst = ops :=
    List.map_fst_zip (Nat.le_of_eq hmap)
  have hreaders : ((ops.zip (comparators.map expr)).map fun link behindPairs =>
      lift (comparand behindPairs link.2)) = readers comparators := by
    have hsnd : (ops.zip (comparators.map expr)).map Prod.snd = comparators.map expr :=
      List.map_snd_zip (Nat.le_of_eq hmap.symm)
    have hread := congrArg (List.map fun e behindPairs => lift (comparand behindPairs e)) hsnd
    rw [List.map_map, List.map_map] at hread
    exact hread.trans (readers_eq h hsides).symm
  rwa [List.drop_zero, hops, hreaders, hzip] at hlinks

/-- A node in shape is read as its expression is, if its children are and theirs. -/
theorem readsAlike_of_children {t : Node} (hs : t.WellShaped)
    (h : ∀ child ∈ t.children, child.ReadsAlike)
    (hsides : ∀ child ∈ t.children, ∀ side ∈ child.children, side.ReadsAlike) :
    t.ReadsAlike := by
  unfold ReadsAlike
  cases t with
  | name span text =>
    rw [read, expr, Lowering.read, lift_bind]
    rfl
  | number span text => rfl
  | binary span left op right =>
    have hl : left.read = lift (Lowering.read left.expr) := h left (by simp [children])
    have hr : right.read = lift (Lowering.read right.expr) := h right (by simp [children])
    rw [read, expr, Lowering.read, hl, hr]
    simp only [lift_bind, lift_pure]
  | unary span op operand =>
    have ho : operand.read = lift (Lowering.read operand.expr) := h operand List.mem_cons_self
    cases op with
    | neg =>
      by_cases hn : operand.form = .number
      · cases operand with
        | number => rfl
        | _ => cases hn
      · rw [read_neg span hn, expr, Lowering.read_neg span (by rwa [form_expr]), ho]
        simp only [lift_bind, lift_pure]
    | pos =>
      rw [read, expr, Lowering.read, ho]
      simp only [lift_bind, lift_pure]
    | not | invert => rfl
  | connect span op values =>
    cases op with
    | or => rfl
    | and =>
      have hvalues : ∀ value ∈ values, value.ReadsAlike := h
      rw [read, expr, Lowering.read, constrainAll_eq hvalues, exprs_eq_map]
      simp only [lift_bind, lift_pure]
  | compare span left ops comparators =>
    obtain ⟨hleft, hcomparators⟩ := List.forall_mem_cons.mp h
    have hlinks := linksFrom_readers hs.1 hcomparators (List.forall_mem_cons.mp hsides).2
    have hl : left.read = lift (Lowering.read left.expr) := hleft
    have hzip : (ops.zip (comparators.map expr)).length = comparators.length := by simp [hs.1]
    rw [read, expr, exprs_eq_map, Lowering.read, hl, hlinks, hzip]
    simp only [lift_bind, lift_pure]
  | call span callee args =>
    have hargs : ∀ arg ∈ args, arg.ReadsAlike := h
    rw [read, expr, Lowering.read, readArgs_eq hargs, exprs_eq_map]
    simp only [lift_bind, lift_pure]
  | subscript span base index =>
    have hb : base.read = lift (Lowering.read base.expr) := h base (by simp [children])
    have hi : index.read = lift (Lowering.read index.expr) := h index (by simp [children])
    rw [read, expr, Lowering.read, hb, hi]
    simp only [lift_bind, lift_pure]
  | tuple span items | list span items =>
    have hitems : ∀ item ∈ items, item.ReadsAlike := h
    rw [read, expr, Lowering.read, readAll_eq hitems, exprs_eq_map]
    simp only [lift_bind, lift_pure]
  | dict span keys values =>
    have hvalues : ∀ value ∈ values, value.ReadsAlike := (List.forall_mem_append.mp h).2
    have hmap : (values.map expr).length = (keys.map expr).length := by simpa using Eq.symm hs
    rw [read, expr, exprs_eq_map, exprs_eq_map, Lowering.read, declareKeys_eq hs,
      constrainAll_eq hvalues, constrainValues_eq, List.map_snd_zip (Nat.le_of_eq hmap)]
    simp only [lift_bind, lift_pure]

theorem readsAlike_of_shaped : ∀ t : Node, t.Shaped → t.ReadsAlike := by
  -- the sides of a conjunction in a chain stand two levels down
  suffices h : ∀ t : Node, t.Shaped → t.ReadsAlike ∧ ∀ child ∈ t.children, child.ReadsAlike from
    fun t ht => (h t ht).1
  refine induction_on_children fun t ih ht => ?_
  have hchildren : ∀ child ∈ t.children, child.ReadsAlike :=
    fun child hchild => (ih child hchild (ht.child hchild)).1
  have hsides : ∀ child ∈ t.children, ∀ side ∈ child.children, side.ReadsAlike :=
    fun child hchild => (ih child hchild (ht.child hchild)).2
  exact ⟨readsAlike_of_children (ht t .here) hchildren hsides, hchildren⟩

namespace Stmt

theorem visit_eq {s : Stmt} (h : ∀ t ∈ s.children, t.Shaped) :
    s.visit = lift (Lowering.visit s.stmt) := by
  have hread : ∀ t ∈ s.children, t.read = lift (Lowering.read t.expr) :=
    fun t ht => readsAlike_of_shaped t (h t ht)
  cases s with
  | assign span targets value =>
    rcases targets with _ | ⟨target, _ | ⟨other, rest⟩⟩
    · rfl
    · cases target with
      | name place text =>
        have hvalue := hread value (by simp [children])
        cases value with
        | dict =>
          rw [visit, hvalue, stmt, List.map_singleton, expr, expr, Lowering.visit]
          simp only [lift_bind, lift_pure]
        | _ => rfl
      | _ => rfl
    · cases target <;> rfl
  | augment => rfl
  | eval span value =>
    rw [visit, stmt, Lowering.visit, hread value List.mem_cons_self]
    simp only [lift_bind, lift_pure]

/-- A statement in shape describes the space that its statement over expressions does. -/
theorem header_eq {s : Stmt} (h : ∀ t ∈ s.children, t.Shaped) :
    s.header = lift (Lowering.header s.stmt) := by
  rw [header, Lowering.header, visit_eq h]
  simp only [lift_bind]

end Stmt

/-- The operators of a chain. -/
def operators : Node → List CompareOp
  | compare _ _ ops _ => ops
  | _ => []

end Node

open Lowering.Positional in
/-- A source that is parsed is parsed to a tree in which the two lists of every chain and of every
dict display have the same length, a chain has a comparison and a connective two values, and only what
can be assigned to is assigned to. Reading any of its statements as a header looks up no position
outside of a list, and reads what the header of the paired tree does. -/
theorem Program.wellShaped_of_parse {source : String} {p : Program} (h : parse source = .ok p) :
    ∃ m : Node.Program, Node.Program.parse source = .ok m ∧ m.program = p ∧
      ∀ s ∈ m.body, s.WellShaped ∧ (∀ t, s.Contains t → t.WellShaped) ∧
        s.header = lift (Lowering.header s.stmt) ∧ ∀ d d', s.header d ≠ .error .outOfRange d' := by
  obtain ⟨m, hm, hp, hshaped⟩ := Node.Program.exists_shaped_of_parse h
  refine ⟨m, hm, hp, fun s hs => ?_⟩
  have hheader := Node.Stmt.header_eq (hshaped s hs).nodes
  refine ⟨(hshaped s hs).stmt, fun t => (hshaped s hs).wellShaped_of_contains, hheader, ?_⟩
  intro d d'
  rw [hheader]
  exact lift_ne_outOfRange _ d d'

/-- A header with five comparisons in one chain, over a body with connectives. -/
def chainedSource : String :=
  "s = \x7b[i, j]: 0 <= i < n ^ 0 <= j < m ^ i < m\x7d\ny[i], z = not a or b and (c < d)"

open Lowering.Positional in
theorem Program.wellShaped_of_parse_chained :
    ∃ p m s t, parse chainedSource = .ok p ∧ Node.Program.parse chainedSource = .ok m ∧
      m.program = p ∧ s ∈ m.body ∧ s.Contains t ∧ t.operators.length = 5 ∧ t.WellShaped ∧
      s.WellShaped ∧ s.header = lift (Lowering.header s.stmt) ∧
      ∀ d d', s.header d ≠ .error .outOfRange d' := by
  have hread : (Node.Program.parse chainedSource).toOption.any fun m => m.body.any fun s =>
      s.children.any fun value => value.children.any fun t => t.operators.length = 5 := by
    decide +kernel
  obtain ⟨m, hm, hbody⟩ := exists_ok_of_any hread
  obtain ⟨s, hs, hvalues⟩ := List.any_eq_true.mp hbody
  obtain ⟨value, hvalue, hchildren⟩ := List.any_eq_true.mp hvalues
  obtain ⟨t, ht, hlength⟩ := List.any_eq_true.mp hchildren
  have hp : parse chainedSource = .ok m.program := by
    rw [← Node.Program.map_program_parse, hm]
    rfl
  obtain ⟨m', hm', hprogram, hshaped⟩ := wellShaped_of_parse hp
  obtain rfl : m = m' := Except.ok.inj (hm.symm.trans hm')
  have hcontains : s.Contains t := ⟨value, hvalue, .inside ht .here⟩
  obtain ⟨hstmt, hnodes, hheader⟩ := hshaped s hs
  exact ⟨m.program, m, s, t, hp, hm, hprogram, hs, hcontains, of_decide_eq_true hlength,
    hnodes t hcontains, hstmt, hheader⟩

end LoopNest
