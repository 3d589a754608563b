import LoopNest.Program.Parser
import LoopNest.Proofs.TreeNodes
import Mathlib.Data.List.Forall2

/-!
# Parsing into lists of their own

The grammar is read here into trees whose chains and dict displays have two lists each. A loop puts
every operator behind the operators and, when it has been read, every comparator behind the
comparators; the loop of a dict display does so with keys and values. Each turn keeps the two lists as
long as each other, and the reading goes in step with the one into expressions: both fail alike, or
both give results at the same place, and the trees are in shape and have the expressions.
-/

namespace LoopNest

namespace Node.Parser

open LoopNest.Parser

/-! ### Lists and displays -/

/-- Expressions with commas between them; a comma makes them a tuple. -/
def exprList (node : Parser Node) : Parser Node := do
  let start ← here
  let first ← node
  if (← kind) = .comma then
    let others ← listTail node (← remaining)
    return .tuple (start.merge (← last)) (first :: others)
  else
    return first

/-- The keys and the values of a dict display, behind those that were read before. -/
def entries (node : Parser Node) : Nat → List Node → List Node → Parser (List Node × List Node)
  | 0, keys, values => return (keys, values)
  | n + 1, keys, values => do
    if (← kind) = .right .curly then return (keys, values)
    else
      let key ← node
      let keys := keys ++ [key]
      expect .entry
      let value ← node
      let values := values ++ [value]
      if ← accept .comma then entries node n keys values
      else return (keys, values)

/-! ### The ladder of precedences -/

/-- Names, numbers, groups and displays. A group is the node inside it. -/
def atom (node : Parser Node) : Parser Node := do
  let token := (← get).current
  let start := token.span
  match token.kind with
  | .identifier =>
    advance
    return .name start token.lexeme
  | .integer | .float =>
    advance
    return .number start token.lexeme
  | .left .round =>
    advance
    if ← accept (.right .round) then
      return .tuple (start.merge (← last)) []
    else
      let inner ← exprList node
      expect .group
      return inner
  | .left .square =>
    advance
    let items ← sequence node (.right .square) ((← remaining) + 1)
    expect .list
    return .list (start.merge (← last)) items
  | .left .curly =>
    advance
    let (keys, values) ← entries node ((← remaining) + 1) [] []
    expect .dict
    return .dict (start.merge (← last)) keys values
  | _ => fail .expectedExpression

/-- The calls and subscripts behind an atom. Only a name can be called. -/
def trailers (node : Parser Node) : Nat → Node → Parser Node
  | 0, t => return t
  | n + 1, t => do
    match ← kind with
    | .left .round =>
      match t with
      | .name span callee =>
        advance
        let args ← sequence node (.right .round) ((← remaining) + 1)
        expect .arguments
        trailers node n (.call (span.merge (← last)) callee args)
      | _ => fail (.notCallable t.form)
    | .left .square =>
      advance
      let index ← exprList node
      expect .subscript
      trailers node n (.subscript (t.span.merge (← last)) t index)
    | _ => return t

def primary (node : Parser Node) : Parser Node := do
  let t ← atom node
  trailers node ((← remaining) + 1) t

/-- Signs before a power; the exponent of a power may have signs of its own. -/
def factor (node : Parser Node) : Nat → Parser Node
  | 0 => fail .expectedExpression
  | n + 1 => do
    let start ← here
    match signOf? (← kind) with
    | some op =>
      advance
      let operand ← factor node n
      return .unary (start.merge operand.span) op operand
    | none =>
      let base ← primary node
      if ← accept (.binary .pow) then
        return base.join .pow (← factor node n)
      else
        return base

/-- The operators of one level and their right operands, applied to what stands to their left. -/
def operations (level : Level) (operand : Parser Node) : Nat → Node → Parser Node
  | 0, left => return left
  | n + 1, left => do
    match level.op? (← kind) with
    | some op =>
      advance
      let right ← operand
      operations level operand n (left.join op right)
    | none => return left

def leftAssociative (level : Level) (operand : Parser Node) : Parser Node := do
  let left ← operand
  operations level operand (← remaining) left

/-- Everything that binds tighter than a comparison. -/
def arithmetic (node : Parser Node) : Parser Node :=
  let signed : Parser Node := do factor node ((← remaining) + 1)
  [Level.product, .sum, .shift, .bitAnd, .bitXor, .bitOr].foldl
    (fun operand level => leftAssociative level operand) signed

/-- The operators and the comparators of a chain, behind those that were read before. -/
def chain (operand : Parser Node) :
    Nat → List CompareOp → List Node → Parser (List CompareOp × List Node)
  | 0, ops, comparators => return (ops, comparators)
  | n + 1, ops, comparators => do
    match comparisonOf? (← kind) with
    | some op =>
      advance
      let ops := ops ++ [op]
      let comparator ← operand
      chain operand n ops (comparators ++ [comparator])
    | none => return (ops, comparators)

/-- A chain of comparisons is one node, however long it is. -/
def comparison (node : Parser Node) : Parser Node := do
  let left ← arithmetic node
  let (ops, comparators) ← chain (arithmetic node) (← remaining) [] []
  if ops.isEmpty then return left
  else return .compare (left.span.merge (← last)) left ops comparators

def negation (node : Parser Node) : Nat → Parser Node
  | 0 => fail .expectedExpression
  | n + 1 => do
    let start ← here
    if isNot (← kind) then
      advance
      let operand ← negation node n
      return .unary (start.merge operand.span) .not operand
    else
      comparison node

/-- Operands joined by one connective make one node. -/
def connected (op : Connective) (operand : Parser Node) : Parser Node := do
  let first ← operand
  match ← operands op operand (← remaining) with
  | [] => return first
  | others =>
    let span := first.span.merge (others.getLast?.getD first).span
    return .connect span op (first :: others)

/-- A node in which nodes inside brackets are read by `node`. -/
def layer (node : Parser Node) : Parser Node :=
  connected .or (connected .and (do negation node ((← remaining) + 1)))

/-- A node with brackets nested less than `n` deep. -/
def expression : Nat → Parser Node
  | 0 => fail .expectedExpression
  | n + 1 => layer (expression n)

/-! ### Statements -/

mutual

/-- The first part of a target that cannot be assigned to. -/
def unassignable? : Node → Option Node
  | .name .. | .subscript .. => none
  | .tuple _ items => firstUnassignable? items
  | t => some t

def firstUnassignable? : List Node → Option Node
  | [] => none
  | t :: ts =>
    match unassignable? t with
    | some bad => some bad
    | none => firstUnassignable? ts

end

def checkTargets (targets : List Node) : Parser Unit :=
  match firstUnassignable? targets with
  | none => return ()
  | some t => throw (.parse ⟨.notAssignable t.form, t.span, none⟩)

/-- The expression lists behind a first one, each after an equals sign. -/
def values (node : Parser Node) : Nat → Parser (List Node)
  | 0 => return []
  | n + 1 => do
    if ← accept .equal then
      let t ← exprList node
      return t :: (← values node n)
    else
      return []

/-- In `a = b = c` every node but the last is a target. -/
def assignment (node : Parser Node) (start : Span) (first : Node) : Parser Stmt := do
  match ← values node (← remaining) with
  | [] => return .eval (start.merge (← last)) first
  | v :: vs =>
    let targets := (first :: v :: vs).dropLast
    let value := vs.getLastD v
    checkTargets targets
    return .assign (start.merge (← last)) targets value

def statement (node : Parser Node) : Parser Stmt := do
  let start ← here
  let first ← exprList node
  match ← kind with
  | .augmented op =>
    checkTargets [first]
    advance
    let value ← node
    return .augment (start.merge (← last)) first op value
  | _ => assignment node start first

def statements (node : Parser Node) : Nat → Parser (List Stmt)
  | 0 => return []
  | n + 1 => do
    skipTerminators (← remaining)
    if (← kind) = .endOfInput then return []
    else
      let s ← statement node
      if (← kind).isTerminator then
        return s :: (← statements node n)
      else
        fail .unterminated

def program : Parser Program := do
  let start ← here
  let n ← remaining
  let body ← statements (expression (n + 1)) (n + 1)
  return ⟨body, start.merge (← last)⟩

end Node.Parser

namespace Node.Program

/-- The program over nodes that the items of a text form. -/
def ofItems : List Scan.Item → Except CompileError Program
  | [] => .ok ⟨[], Span.nowhere⟩
  | .fault e :: _ => .error (.scan e)
  | .token t :: rest => (Parser.program.run ⟨t, t.span, rest⟩).map (·.1)

/-- The program over nodes that a text describes. -/
def parse (source : String) : Except CompileError Program :=
  ofItems (Scan.items source)

end Node.Program

/-! ### Readings in step -/

namespace Parser

/-- Two readings go in step: from every cursor both fail alike, or both give results that are related,
at the same cursor. -/
def InStep {α β : Type} (R : α → β → Prop) (p : Parser α) (q : Parser β) : Prop :=
  ∀ c, (∃ e, p c = .error e ∧ q c = .error e) ∨
    ∃ a b d, p c = .ok (a, d) ∧ q c = .ok (b, d) ∧ R a b

namespace InStep

variable {α β γ δ : Type} {R : α → β → Prop} {S : γ → δ → Prop}

theorem pure {a : α} {b : β} (h : R a b) : InStep R (Pure.pure a) (Pure.pure b) :=
  fun c => .inr ⟨a, b, c, rfl, rfl, h⟩

theorem throw (e : CompileError) : InStep R (MonadExcept.throw e) (MonadExcept.throw e) :=
  fun _ => .inl ⟨e, rfl, rfl⟩

theorem fail (cause : ParseError.Cause) : InStep R (Parser.fail cause) (Parser.fail cause) :=
  fun _ => .inl ⟨_, rfl, rfl⟩

theorem bind {p : Parser γ} {q : Parser δ} {f : γ → Parser α} {g : δ → Parser β}
    (h : InStep S p q) (hf : ∀ a b, S a b → InStep R (f a) (g b)) :
    InStep R (p >>= f) (q >>= g) := by
  intro c
  have hp : (p >>= f) c = (p c).bind fun r => f r.1 r.2 := rfl
  have hq : (q >>= g) c = (q c).bind fun r => g r.1 r.2 := rfl
  rw [hp, hq]
  rcases h c with ⟨e, hp, hq⟩ | ⟨a, b, d, hp, hq, hab⟩
  · rw [hp, hq]
    exact .inl ⟨e, rfl, rfl⟩
  · rw [hp, hq]
    exact hf a b hab d

/-- Every reading goes in step with itself. -/
theorem refl (p : Parser α) : InStep Eq p p := by
  intro c
  cases h : p c with
  | error e => exact .inl ⟨e, rfl, rfl⟩
  | ok r => exact .inr ⟨r.1, r.1, r.2, rfl, rfl, rfl⟩

theorem same (p : Parser γ) {f : γ → Parser α} {g : γ → Parser β}
    (h : ∀ a, InStep R (f a) (g a)) : InStep R (p >>= f) (p >>= g) :=
  (refl p).bind fun a _ hab => hab ▸ h a

theorem ite {φ : Prop} [Decidable φ] {p p' : Parser α} {q q' : Parser β} (h : InStep R p q)
    (h' : InStep R p' q') : InStep R (if φ then p else p') (if φ then q else q') := by
  split
  · exact h
  · exact h'

/-- The second reading may put its result together from what it has read. -/
theorem extend {p : Parser α} {q : Parser δ} {S : α → δ → Prop} {g : δ → β} (h : InStep S p q)
    (hg : ∀ a b, S a b → R a (g b)) : InStep R p (q >>= fun b => Pure.pure (g b)) := by
  rw [← bind_pure p]
  exact h.bind fun a b hab => .pure (hg a b hab)

theorem listTail {p : Parser α} {q : Parser β} (h : InStep R p q) (n : Nat) :
    InStep (List.Forall₂ R) (Parser.listTail p n) (Parser.listTail q n) := by
  induction n with
  | zero => exact .pure .nil
  | succ n ih =>
    refine .same _ fun comma => .ite (.same _ fun k => .ite (.pure .nil) ?_) (.pure .nil)
    exact h.bind fun a b hab => ih.bind fun as bs hrest => .pure (.cons hab hrest)

theorem sequence {p : Parser α} {q : Parser β} (h : InStep R p q) (close : Token.Kind) (n : Nat) :
    InStep (List.Forall₂ R) (Parser.sequence p close n) (Parser.sequence q close n) := by
  induction n with
  | zero => exact .pure .nil
  | succ n ih =>
    refine .same _ fun k => .ite (.pure .nil) (h.bind fun a b hab => .same _ fun comma => .ite ?_ ?_)
    · exact ih.bind fun as bs hrest => .pure (.cons hab hrest)
    · exact .pure (.cons hab .nil)

theorem operands {p : Parser α} {q : Parser β} (h : InStep R p q) (op : Connective) (n : Nat) :
    InStep (List.Forall₂ R) (Parser.operands op p n) (Parser.operands op q n) := by
  induction n with
  | zero => exact .pure .nil
  | succ n ih =>
    refine .same _ fun k => .ite (.same _ fun _ => ?_) (.pure .nil)
    exact h.bind fun a b hab => ih.bind fun as bs hrest => .pure (.cons hab hrest)

end InStep

end Parser

/-! ### Trees and their expressions -/

/-- Where `R` relates what has a property to its image, it relates the elements of two lists if all
of the first have the property and the second is the image of the first. -/
theorem forall₂_iff_map_eq {α β : Type} {R : α → β → Prop} {f : α → β} {P : α → Prop}
    (hR : ∀ a b, R a b ↔ f a = b ∧ P a) {as : List α} {bs : List β} :
    List.Forall₂ R as bs ↔ as.map f = bs ∧ ∀ a ∈ as, P a := by
  constructor
  · intro h
    induction h with
    | nil => simp
    | @cons a b as bs hab _ ih =>
      obtain ⟨ha, hp⟩ := (hR a b).mp hab
      rw [List.map_cons, ha, ih.1]
      exact ⟨rfl, List.forall_mem_cons.mpr ⟨hp, ih.2⟩⟩
  · rintro ⟨rfl, h⟩
    induction as with
    | nil => exact .nil
    | cons a as ih =>
      obtain ⟨ha, has⟩ := List.forall_mem_cons.mp h
      exact .cons ((hR a _).mpr ⟨rfl, ha⟩) (ih has)

namespace Node

/-- A tree that is in shape, and its expression. -/
structure Matches (t : Node) (e : Expr) : Prop where
  expr_eq : t.expr = e
  shaped : t.Shaped

theorem forall₂_matches_iff {ts : List Node} {es : List Expr} :
    List.Forall₂ Matches ts es ↔ ts.map expr = es ∧ ∀ t ∈ ts, t.Shaped :=
  forall₂_iff_map_eq fun _ _ => ⟨fun h => ⟨h.expr_eq, h.shaped⟩, fun h => ⟨h.1, h.2⟩⟩

/-- Operators and comparators of the same number, and the links of the chain that they make. -/
structure Linked (r : List CompareOp × List Node) (links : List (CompareOp × Expr)) : Prop where
  length_eq : r.1.length = r.2.length
  zip_eq : r.1.zip (r.2.map expr) = links
  shaped : ∀ t ∈ r.2, t.Shaped

theorem Linked.nil : Linked ([], []) [] :=
  ⟨rfl, rfl, by simp⟩

/-- One operator and one comparator more keep the lists as long as each other. -/
theorem Linked.push {ops : List CompareOp} {comparators : List Node}
    {links : List (CompareOp × Expr)} (h : Linked (ops, comparators) links) (op : CompareOp)
    {t : Node} {e : Expr} (ht : t.Matches e) :
    Linked (ops ++ [op], comparators ++ [t]) (links ++ [(op, e)]) := by
  obtain ⟨hlength, hzip, hshaped⟩ := h
  refine ⟨by simpa using hlength, ?_, ?_⟩
  · have hmap : ops.length = (comparators.map expr).length := by simpa using hlength
    rw [List.map_append, List.zip_append hmap, hzip, List.map_singleton, ht.expr_eq]
    rfl
  · exact List.forall_mem_append.mpr ⟨hshaped, List.forall_mem_singleton.mpr ht.shaped⟩

/-- Keys and values of the same number, and the entries that they make. -/
structure Entered (r : List Node × List Node) (entries : List (Expr × Expr)) : Prop where
  length_eq : r.1.length = r.2.length
  zip_eq : (r.1.map expr).zip (r.2.map expr) = entries
  keys : ∀ t ∈ r.1, t.Shaped
  values : ∀ t ∈ r.2, t.Shaped

theorem Entered.nil : Entered ([], []) [] :=
  ⟨rfl, rfl, by simp, by simp⟩

/-- One key and one value more keep the lists as long as each other. -/
theorem Entered.push {keys values : List Node} {entries : List (Expr × Expr)}
    (h : Entered (keys, values) entries) {key value : Node} {k v : Expr} (hkey : key.Matches k)
    (hvalue : value.Matches v) :
    Entered (keys ++ [key], values ++ [value]) (entries ++ [(k, v)]) := by
  obtain ⟨hlength, hzip, hkeys, hvalues⟩ := h
  refine ⟨by simpa using hlength, ?_, ?_, ?_⟩
  · have hmap : (keys.map expr).length = (values.map expr).length := by simpa using hlength
    rw [List.map_append, List.map_append, List.zip_append hmap, hzip, List.map_singleton,
      List.map_singleton, hkey.expr_eq, hvalue.expr_eq]
    rfl
  · exact List.forall_mem_append.mpr ⟨hkeys, List.forall_mem_singleton.mpr hkey.shaped⟩
  · exact List.forall_mem_append.mpr ⟨hvalues, List.forall_mem_singleton.mpr hvalue.shaped⟩

namespace Matches

theorem name (span : Span) (text : String) : (Node.name span text).Matches (.name span text) :=
  ⟨rfl, shaped_iff.mpr ⟨trivial, by simp [children]⟩⟩

theorem number (span : Span) (text : String) :
    (Node.number span text).Matches (.number span text) :=
  ⟨rfl, shaped_iff.mpr ⟨trivial, by simp [children]⟩⟩

variable {t u : Node} {e f : Expr} {ts : List Node} {es : List Expr}

theorem tuple (h : List.Forall₂ Matches ts es) (span : Span) :
    (Node.tuple span ts).Matches (.tuple span es) := by
  obtain ⟨rfl, hts⟩ := forall₂_matches_iff.mp h
  exact ⟨by simp [expr], shaped_iff.mpr ⟨trivial, hts⟩⟩

theorem list (h : List.Forall₂ Matches ts es) (span : Span) :
    (Node.list span ts).Matches (.list span es) := by
  obtain ⟨rfl, hts⟩ := forall₂_matches_iff.mp h
  exact ⟨by simp [expr], shaped_iff.mpr ⟨trivial, hts⟩⟩

theorem call (h : List.Forall₂ Matches ts es) (span : Span) (callee : String) :
    (Node.call span callee ts).Matches (.call span callee es) := by
  obtain ⟨rfl, hts⟩ := forall₂_matches_iff.mp h
  exact ⟨by simp [expr], shaped_iff.mpr ⟨trivial, hts⟩⟩

theorem subscript (h : t.Matches e) (hi : u.Matches f) (span : Span) :
    (Node.subscript span t u).Matches (.subscript span e f) := by
  obtain ⟨rfl, ht⟩ := h
  obtain ⟨rfl, hu⟩ := hi
  refine ⟨rfl, shaped_iff.mpr ⟨trivial, ?_⟩⟩
  exact List.forall_mem_cons.mpr ⟨ht, List.forall_mem_singleton.mpr hu⟩

theorem unary (h : t.Matches e) (span : Span) (op : UnaryOp) :
    (Node.unary span op t).Matches (.unary span op e) := by
  obtain ⟨rfl, ht⟩ := h
  exact ⟨rfl, shaped_iff.mpr ⟨trivial, List.forall_mem_singleton.mpr ht⟩⟩

theorem join (h : t.Matches e) (op : BinaryOp) (hr : u.Matches f) :
    (t.join op u).Matches (e.join op f) := by
  obtain ⟨rfl, ht⟩ := h
  obtain ⟨rfl, hu⟩ := hr
  refine ⟨expr_join t op u, shaped_iff.mpr ⟨trivial, ?_⟩⟩
  exact List.forall_mem_cons.mpr ⟨ht, List.forall_mem_singleton.mpr hu⟩

/-- Two operands at least are connected. -/
theorem connect (h : t.Matches e) (hts : List.Forall₂ Matches (u :: ts) es) (span : Span)
    (op : Connective) :
    (Node.connect span op (t :: u :: ts)).Matches (.connect span op (e :: es)) := by
  obtain ⟨rfl, ht⟩ := h
  obtain ⟨rfl, hshaped⟩ := forall₂_matches_iff.mp hts
  refine ⟨by simp [expr], shaped_iff.mpr ⟨?_, List.forall_mem_cons.mpr ⟨ht, hshaped⟩⟩⟩
  simp [WellShaped]

/-- A chain has an operator for each comparator, and one at least. -/
theorem compare (h : t.Matches e) {ops : List CompareOp} {links : List (CompareOp × Expr)}
    (hr : Linked (ops, ts) links) (hne : ops ≠ []) (span : Span) :
    (Node.compare span t ops ts).Matches (.compare span e links) := by
  obtain ⟨rfl, ht⟩ := h
  obtain ⟨hlength, rfl, hts⟩ := hr
  refine ⟨by simp [expr], shaped_iff.mpr ⟨⟨hlength, ?_⟩, List.forall_mem_cons.mpr ⟨ht, hts⟩⟩⟩
  exact List.length_pos_iff.mpr hne

/-- A dict display has a value for each key. -/
theorem dict {keys values : List Node} {entries : List (Expr × Expr)}
    (h : Entered (keys, values) entries) (span : Span) :
    (Node.dict span keys values).Matches (.dict span entries) := by
  obtain ⟨hlength, rfl, hkeys, hvalues⟩ := h
  refine ⟨by simp [expr], shaped_iff.mpr ⟨hlength, ?_⟩⟩
  exact List.forall_mem_append.mpr ⟨hkeys, hvalues⟩

theorem span_eq (h : t.Matches e) : e.span = t.span := by
  rw [← h.expr_eq, span_expr]

end Matches

/-! ### The ladder of precedences in step -/

open LoopNest.Parser (InStep)

section Expressions

variable {node : Parser Node} {expr : Parser Expr} (h : InStep Matches node expr)
include h

theorem exprList_inStep :
    InStep Matches (Parser.exprList node) (LoopNest.Parser.exprList expr) := by
  refine .same _ fun start => h.bind fun first e hfirst => .same _ fun k => .ite ?_ (.pure hfirst)
  refine .same _ fun n => (h.listTail n).bind fun others es hothers => .same _ fun span => .pure ?_
  exact .tuple (.cons hfirst hothers) _

theorem entries_inStep (n : Nat) {keys values : List Node} {known : List (Expr × Expr)}
    (hknown : Entered (keys, values) known) :
    InStep (fun r more => Entered r (known ++ more)) (Parser.entries node n keys values)
      (LoopNest.Parser.entries expr n) := by
  have hstop : Entered (keys, values) (known ++ []) := by rwa [List.append_nil]
  induction n generalizing keys values known with
  | zero => exact .pure hstop
  | succ n ih =>
    refine .same _ fun k => .ite (.pure hstop) (h.bind fun key k hkey => .same _ fun _ => ?_)
    refine h.bind fun value v hvalue => .same _ fun comma => ?_
    have hpush := hknown.push hkey hvalue
    refine .ite ((ih hpush (by rwa [List.append_nil])).extend fun r more hr => ?_) (.pure hpush)
    simpa using hr

theorem atom_inStep : InStep Matches (Parser.atom node) (LoopNest.Parser.atom expr) := by
  refine .same _ fun c => ?_
  dsimp only
  cases c.current.kind with
  | identifier => exact .same _ fun _ => .pure (.name ..)
  | integer | float => exact .same _ fun _ => .pure (.number ..)
  | left bracket =>
    cases bracket with
    | round =>
      refine .same _ fun _ => .same _ fun close => .ite ?_ ?_
      · exact .same _ fun span => .pure (.tuple .nil _)
      · exact (exprList_inStep h).bind fun inner e hinner => .same _ fun _ => .pure hinner
    | square =>
      refine .same _ fun _ => .same _ fun n => (h.sequence _ _).bind fun items es hitems => ?_
      exact .same _ fun _ => .same _ fun span => .pure (.list hitems _)
    | curly =>
      refine .same _ fun _ => .same _ fun n => (entries_inStep h _ .nil).bind fun r es hr => ?_
      exact .same _ fun _ => .same _ fun span => .pure (.dict hr _)
  | _ => exact .fail _

theorem trailers_inStep (n : Nat) {t : Node} {e : Expr} (ht : t.Matches e) :
    InStep Matches (Parser.trailers node n t) (LoopNest.Parser.trailers expr n e) := by
  induction n generalizing t e with
  | zero => exact .pure ht
  | succ n ih =>
    refine .same _ fun k => ?_
    cases k with
    | left bracket =>
      cases bracket with
      | round =>
        obtain ⟨rfl, hshaped⟩ := ht
        cases t with
        | name span callee =>
          refine .same _ fun _ => .same _ fun m => (h.sequence _ _).bind fun args es hargs => ?_
          exact .same _ fun _ => .same _ fun stop => ih (.call hargs _ callee)
        | _ => exact .fail _
      | square =>
        refine .same _ fun _ => (exprList_inStep h).bind fun index e hindex => ?_
        refine .same _ fun _ => .same _ fun stop => ?_
        rw [ht.span_eq]
        exact ih (ht.subscript hindex _)
      | curly => exact .pure ht
    | _ => exact .pure ht

theorem primary_inStep : InStep Matches (Parser.primary node) (LoopNest.Parser.primary expr) :=
  (atom_inStep h).bind fun _ _ ht => .same _ fun _ => trailers_inStep h _ ht

theorem factor_inStep (n : Nat) :
    InStep Matches (Parser.factor node n) (LoopNest.Parser.factor expr n) := by
  induction n with
  | zero => exact .fail _
  | succ n ih =>
    refine .same _ fun start => .same _ fun k => ?_
    cases LoopNest.Parser.signOf? k with
    | some op =>
      refine .same _ fun _ => ih.bind fun operand e hoperand => ?_
      rw [hoperand.span_eq]
      exact .pure (hoperand.unary _ op)
    | none =>
      refine (primary_inStep h).bind fun base e hbase => .same _ fun power => .ite ?_ (.pure hbase)
      exact ih.bind fun exponent f hexponent => .pure (hbase.join .pow hexponent)

end Expressions

section Operators

variable {node : Parser Node} {expr : Parser Expr} (h : InStep Matches node expr)
include h

theorem operations_inStep (level : Parser.Level) (n : Nat) {t : Node} {e : Expr}
    (ht : t.Matches e) :
    InStep Matches (Parser.operations level node n t)
      (LoopNest.Parser.operations level expr n e) := by
  induction n generalizing t e with
  | zero => exact .pure ht
  | succ n ih =>
    refine .same _ fun k => ?_
    cases level.op? k with
    | some op => exact .same _ fun _ => h.bind fun right f hright => ih (ht.join op hright)
    | none => exact .pure ht

theorem leftAssociative_inStep (level : Parser.Level) :
    InStep Matches (Parser.leftAssociative level node)
      (LoopNest.Parser.leftAssociative level expr) :=
  h.bind fun _ _ hleft => .same _ fun n => operations_inStep h level n hleft

theorem foldl_leftAssociative_inStep (levels : List Parser.Level) :
    InStep Matches (levels.foldl (fun operand level => Parser.leftAssociative level operand) node)
      (levels.foldl (fun operand level => LoopNest.Parser.leftAssociative level operand) expr) := by
  induction levels generalizing node expr with
  | nil => exact h
  | cons level levels ih => exact ih (leftAssociative_inStep h level)

/-- Each turn of the loop adds an operator and a comparator. -/
theorem chain_inStep (n : Nat) {ops : List CompareOp} {comparators : List Node}
    {known : List (CompareOp × Expr)} (hknown : Linked (ops, comparators) known) :
    InStep (fun r more => Linked r (known ++ more)) (Parser.chain node n ops comparators)
      (LoopNest.Parser.chain expr n) := by
  have hstop : Linked (ops, comparators) (known ++ []) := by rwa [List.append_nil]
  induction n generalizing ops comparators known with
  | zero => exact .pure hstop
  | succ n ih =>
    refine .same _ fun k => ?_
    cases LoopNest.Parser.comparisonOf? k with
    | some op =>
      refine .same _ fun _ => h.bind fun t e ht => ?_
      have hpush := hknown.push op ht
      refine (ih hpush (by rwa [List.append_nil])).extend fun r more hr => ?_
      simpa using hr
    | none => exact .pure hstop

theorem connected_inStep (op : Connective) :
    InStep Matches (Parser.connected op node) (LoopNest.Parser.connected op expr) := by
  refine h.bind fun first e hfirst => .same _ fun n => (h.operands op n).bind fun others es hes => ?_
  cases hes with
  | nil => exact .pure hfirst
  | @cons t f ts fs ht hts =>
    have hothers : List.Forall₂ Matches (t :: ts) (f :: fs) := .cons ht hts
    have hspan : LoopNest.Parser.spanOf e (f :: fs) =
        first.span.merge ((t :: ts).getLast?.getD first).span := by
      rw [LoopNest.Parser.spanOf, ← (forall₂_matches_iff.mp hothers).1, ← hfirst.expr_eq,
        List.getLast?_map, Option.getD_map, span_expr, span_expr]
    dsimp only
    rw [hspan]
    exact .pure (hfirst.connect hothers _ op)

end Operators

section Layers

variable {node : Parser Node} {expr : Parser Expr} (h : InStep Matches node expr)
include h

theorem arithmetic_inStep :
    InStep Matches (Parser.arithmetic node) (LoopNest.Parser.arithmetic expr) :=
  foldl_leftAssociative_inStep (.same _ fun _ => factor_inStep h _) _

theorem comparison_inStep :
    InStep Matches (Parser.comparison node) (LoopNest.Parser.comparison expr) := by
  have hoperand := arithmetic_inStep h
  refine hoperand.bind fun left l hleft => .same _ fun n => ?_
  refine (chain_inStep hoperand n .nil).bind fun r links hr => ?_
  obtain ⟨ops, comparators⟩ := r
  rw [List.nil_append] at hr
  cases ops with
  | nil =>
    -- no operator was read, so there are no links
    obtain rfl : links = [] := hr.zip_eq.symm
    exact .pure hleft
  | cons op ops =>
    -- the first operator has a comparator, so there is a link
    obtain ⟨link, links, rfl⟩ : ∃ link more, links = link :: more := by
      apply List.exists_cons_of_ne_nil
      rw [← hr.zip_eq, ← List.length_pos_iff, List.length_zip, List.length_map, ← hr.length_eq]
      simp
    rw [hleft.span_eq]
    exact .same _ fun span => .pure (hleft.compare hr (List.cons_ne_nil op ops) _)

theorem negation_inStep (n : Nat) :
    InStep Matches (Parser.negation node n) (LoopNest.Parser.negation expr n) := by
  induction n with
  | zero => exact .fail _
  | succ n ih =>
    refine .same _ fun start => .same _ fun k => .ite (.same _ fun _ => ?_) (comparison_inStep h)
    refine ih.bind fun operand e hoperand => ?_
    rw [hoperand.span_eq]
    exact .pure (hoperand.unary _ .not)

theorem layer_inStep : InStep Matches (Parser.layer node) (LoopNest.Parser.layer expr) :=
  connected_inStep (connected_inStep (.same _ fun _ => negation_inStep h _) .and) .or

end Layers

theorem expression_inStep (n : Nat) :
    InStep Matches (Parser.expression n) (LoopNest.Parser.expression n) := by
  induction n with
  | zero => exact .fail _
  | succ n ih => exact layer_inStep ih

/-! ### Statements in step -/

theorem firstUnassignable?_map {ts : List Node}
    (h : ∀ t ∈ ts, LoopNest.Parser.unassignable? t.expr = (Parser.unassignable? t).map expr) :
    LoopNest.Parser.firstUnassignable? (ts.map expr) =
      (Parser.firstUnassignable? ts).map expr := by
  induction ts with
  | nil => rfl
  | cons t ts ih =>
    obtain ⟨ht, hts⟩ := List.forall_mem_cons.mp h
    rw [List.map_cons, LoopNest.Parser.firstUnassignable?, ht, Parser.firstUnassignable?]
    cases Parser.unassignable? t with
    | none => exact ih hts
    | some bad => rfl

theorem unassignable?_expr (t : Node) :
    LoopNest.Parser.unassignable? t.expr = (Parser.unassignable? t).map expr := by
  induction t using induction_on_children with
  | h t ih =>
    cases t with
    | tuple span items =>
      rw [expr, exprs_eq_map]
      exact firstUnassignable?_map ih
    | _ => rfl

theorem assignable_of_firstUnassignable? {ts : List Node}
    (h : ∀ t ∈ ts, Parser.unassignable? t = none → t.Assignable)
    (hts : Parser.firstUnassignable? ts = none) : ∀ t ∈ ts, t.Assignable := by
  induction ts with
  | nil => simp
  | cons t ts ih =>
    obtain ⟨ht, hrest⟩ := List.forall_mem_cons.mp h
    rw [Parser.firstUnassignable?] at hts
    cases hbad : Parser.unassignable? t with
    | none =>
      rw [hbad] at hts
      exact List.forall_mem_cons.mpr ⟨ht hbad, ih hrest hts⟩
    | some bad =>
      rw [hbad] at hts
      cases hts

theorem assignable_of_unassignable? (t : Node) (h : Parser.unassignable? t = none) :
    t.Assignable := by
  induction t using induction_on_children with
  | h t ih =>
    cases t with
    | name span text => exact .name span text
    | subscript span base index => exact .subscript span base index
    | tuple span items => exact .tuple span (assignable_of_firstUnassignable? ih h)
    | _ => cases h

/-- Targets that pass the check can be assigned to. -/
theorem checkTargets_inStep (targets : List Node) :
    InStep (fun _ _ => ∀ t ∈ targets, t.Assignable) (Parser.checkTargets targets)
      (LoopNest.Parser.checkTargets (targets.map expr)) := by
  rw [Parser.checkTargets, LoopNest.Parser.checkTargets,
    firstUnassignable?_map fun t _ => unassignable?_expr t]
  cases hbad : Parser.firstUnassignable? targets with
  | none =>
    exact .pure (assignable_of_firstUnassignable? (fun t _ => assignable_of_unassignable? t) hbad)
  | some bad =>
    simp only [Option.map_some, form_expr, span_expr]
    exact .throw _

/-- A statement over nodes that is in shape, and the statement that it makes. -/
structure Stmt.Matches (s : Stmt) (s' : LoopNest.Stmt) : Prop where
  stmt_eq : s.stmt = s'
  shaped : s.Shaped

section Statements

variable {node : Parser Node} {expr : Parser Expr} (h : InStep Matches node expr)
include h

theorem values_inStep (n : Nat) :
    InStep (List.Forall₂ Matches) (Parser.values node n) (LoopNest.Parser.values expr n) := by
  induction n with
  | zero => exact .pure .nil
  | succ n ih =>
    refine .same _ fun equal => .ite ?_ (.pure .nil)
    refine (exprList_inStep h).bind fun t e ht => ih.bind fun ts es hts => ?_
    exact .pure (.cons ht hts)

/-- All values but the last are targets, which have passed the check. -/
theorem assignment_inStep {first : Node} {e : Expr} (hfirst : first.Matches e) (start : Span) :
    InStep Stmt.Matches (Parser.assignment node start first)
      (do
        match ← LoopNest.Parser.values expr (← LoopNest.Parser.remaining) with
        | [] => return .eval (start.merge (← LoopNest.Parser.last)) e
        | v :: vs =>
          let targets := (e :: v :: vs).dropLast
          let value := vs.getLastD v
          LoopNest.Parser.checkTargets targets
          return .assign (start.merge (← LoopNest.Parser.last)) targets value) := by
  refine .same _ fun n => (values_inStep h n).bind fun vs es hvs => ?_
  obtain ⟨rfl, hshaped⟩ := hfirst
  cases hvs with
  | nil =>
    refine .same _ fun span => .pure ⟨rfl, trivial, ?_⟩
    exact List.forall_mem_singleton.mpr hshaped
  | @cons v f vs fs hv hvs =>
    obtain ⟨rfl, hrest⟩ := forall₂_matches_iff.mp hvs
    obtain ⟨rfl, hv⟩ := hv
    have htargets : (first.expr :: v.expr :: vs.map Node.expr).dropLast =
        (first :: v :: vs).dropLast.map Node.expr := by
      rw [List.map_dropLast, List.map_cons, List.map_cons]
    have hvalue : (vs.map Node.expr).getLastD v.expr = (vs.getLastD v).expr := by
      rw [List.getLastD_eq_getLast?, List.getLastD_eq_getLast?, List.getLast?_map, Option.getD_map]
    dsimp only
    rw [htargets, hvalue]
    refine (checkTargets_inStep _).bind fun _ _ hassignable => .same _ fun span => .pure ?_
    refine ⟨rfl, ⟨by simp, hassignable⟩, ?_⟩
    have hall : ∀ t ∈ first :: v :: vs, t.Shaped :=
      List.forall_mem_cons.mpr ⟨hshaped, List.forall_mem_cons.mpr ⟨hv, hrest⟩⟩
    refine List.forall_mem_append.mpr ⟨fun t ht => hall t ((List.dropLast_sublist _).subset ht), ?_⟩
    refine List.forall_mem_singleton.mpr (hall _ (List.mem_cons_of_mem _ ?_))
    rw [List.getLastD_eq_getLast?]
    cases hlast : vs.getLast? with
    | none => exact List.mem_cons_self
    | some t => exact List.mem_cons_of_mem _ (List.mem_of_getLast? hlast)

theorem statement_inStep :
    InStep Stmt.Matches (Parser.statement node) (LoopNest.Parser.statement expr) := by
  refine .same _ fun start => (exprList_inStep h).bind fun first e hfirst => .same _ fun k => ?_
  cases k with
  | augmented op =>
    obtain ⟨rfl, hshaped⟩ := hfirst
    refine (checkTargets_inStep [first]).bind fun _ _ hassignable => .same _ fun _ => ?_
    refine h.bind fun value v hvalue => .same _ fun span => .pure ?_
    obtain ⟨rfl, hvalue⟩ := hvalue
    refine ⟨rfl, hassignable first List.mem_cons_self, ?_⟩
    exact List.forall_mem_cons.mpr ⟨hshaped, List.forall_mem_singleton.mpr hvalue⟩
  | _ => exact assignment_inStep h hfirst start

theorem statements_inStep (n : Nat) :
    InStep (List.Forall₂ Stmt.Matches) (Parser.statements node n)
      (LoopNest.Parser.statements expr n) := by
  induction n with
  | zero => exact .pure .nil
  | succ n ih =>
    refine .same _ fun m => .same _ fun _ => .same _ fun k => .ite (.pure .nil) ?_
    refine (statement_inStep h).bind fun s s' hs => .same _ fun k => .ite ?_ (.fail _)
    exact ih.bind fun ss ss' hrest => .pure (.cons hs hrest)

end Statements

namespace Program

/-- A program over nodes that is in shape, and the program that it makes. -/
structure Matches (m : Program) (p : LoopNest.Program) : Prop where
  program_eq : m.program = p
  shaped : ∀ s ∈ m.body, s.Shaped

theorem matches_of_forall₂ {ss : List Stmt} {ss' : List LoopNest.Stmt}
    (h : List.Forall₂ Stmt.Matches ss ss') (span : Span) :
    Program.Matches ⟨ss, span⟩ ⟨ss', span⟩ := by
  have hall : ss.map Stmt.stmt = ss' ∧ ∀ s ∈ ss, s.Shaped :=
    (forall₂_iff_map_eq fun _ _ => ⟨fun h => ⟨h.stmt_eq, h.shaped⟩, fun h => ⟨h.1, h.2⟩⟩).mp h
  obtain ⟨rfl, hshaped⟩ := hall
  exact ⟨rfl, hshaped⟩

theorem program_inStep : InStep Program.Matches Parser.program LoopNest.Parser.program := by
  refine .same _ fun start => .same _ fun n => ?_
  refine (statements_inStep (expression_inStep _) _).bind fun ss ss' hss => ?_
  exact .same _ fun span => .pure (matches_of_forall₂ hss _)

/-- A text is refused with the same error, or it has a program over nodes that is in shape and makes
the program of the text. -/
theorem parse_inStep (source : String) :
    (∃ e, parse source = .error e ∧ LoopNest.Program.parse source = .error e) ∨
      ∃ m, parse source = .ok m ∧ LoopNest.Program.parse source = .ok m.program ∧
        ∀ s ∈ m.body, s.Shaped := by
  unfold parse LoopNest.Program.parse
  cases Scan.items source with
  | nil => exact .inr ⟨_, rfl, rfl, by simp⟩
  | cons item rest =>
    cases item with
    | fault e => exact .inl ⟨_, rfl, rfl⟩
    | token t =>
      simp only [ofItems, LoopNest.Program.ofItems, StateT.run]
      rcases program_inStep ⟨t, t.span, rest⟩ with ⟨e, hm, hp⟩ | ⟨m, p, d, hm, hp, hmatch⟩
      · rw [hm, hp]
        exact .inl ⟨e, rfl, rfl⟩
      · rw [hm, hp]
        obtain ⟨rfl, hshaped⟩ := hmatch
        exact .inr ⟨m, rfl, rfl, hshaped⟩

/-- A source that has a program has a tree in shape with the expressions of the program. -/
theorem exists_shaped_of_parse {source : String} {p : LoopNest.Program}
    (h : LoopNest.Program.parse source = .ok p) :
    ∃ m, parse source = .ok m ∧ m.program = p ∧ ∀ s ∈ m.body, s.Shaped := by
  rcases parse_inStep source with ⟨e, -, he⟩ | ⟨m, hm, hp, hshaped⟩
  · rw [h] at he
    cases he
  · rw [h] at hp
    exact ⟨m, hm, (Except.ok.inj hp).symm, hshaped⟩

/-- Parsing into nodes and pairing their lists is parsing. -/
theorem map_program_parse (source : String) :
    (parse source).map program = LoopNest.Program.parse source := by
  rcases parse_inStep source with ⟨e, hm, hp⟩ | ⟨m, hm, hp, -⟩
  · rw [hm, hp]
    rfl
  · rw [hm, hp]
    rfl

end Program

end Node

end LoopNest
