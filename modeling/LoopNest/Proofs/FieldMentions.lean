import LoopNest.Field.Collect
import Mathlib.Tactic.Simproc.ExistsAndEq

/-!
# What a body says about its fields

Reading a body for its fields leaves a list of mentions, in the order of the text. A subscript
mentions its name twice: its field comes into being before the index is read, and is accessed behind
the index. Reading succeeds on the expressions that are `readable`, and then the fields are those
after all the mentions.
-/

namespace LoopNest

/-- A field comes into being, or is accessed. -/
inductive Mention where
  | touch (name : String)
  | access (name : String) (a : Access)

namespace Mention

def name : Mention → String
  | touch name => name
  | access name _ => name

end Mention

namespace Fields

def mention (fs : Fields) : Mention → Fields
  | .touch name => fs.touch name
  | .access name a => fs.record name a

/-- The fields after some mentions. -/
def after (fs : Fields) (ms : List Mention) : Fields :=
  ms.foldl mention fs

@[simp] theorem after_nil (fs : Fields) : fs.after [] = fs := rfl

@[simp] theorem after_cons (fs : Fields) (m : Mention) (ms : List Mention) :
    fs.after (m :: ms) = Fields.after (fs.mention m) ms := rfl

@[simp] theorem after_append (fs : Fields) (ms ns : List Mention) :
    fs.after (ms ++ ns) = Fields.after (fs.after ms) ns :=
  List.foldl_append

end Fields

mutual

/-- The term that an expression stands for among the given iterators. Arguments that are no terms are
left out. -/
def Expr.value? (iterators : List String) : Expr → Option Term
  | .name _ text => some (if text ∈ iterators then .iterator text else .constant text)
  | .number _ text => some (.literal text)
  | .binary _ left op right => do
    let l ← left.value? iterators
    let r ← right.value? iterators
    let o ← ArithOp.ofBinary? op
    return .arith l o r
  | .unary _ op operand => Collecting.signed op (operand.value? iterators)
  | .call _ callee args => some (.apply callee (valuesOf iterators args))
  | .subscript _ base (.tuple _ items) => do
    let name ← base.name?
    return .apply name (valuesOf iterators items)
  | .subscript _ base index => do
    let name ← base.name?
    return .apply name (index.value? iterators).toList
  | _ => none

def valuesOf (iterators : List String) : List Expr → List Term
  | [] => []
  | e :: es => (e.value? iterators).toList ++ valuesOf iterators es

end

/-- Whether an expression stands for a term, among whatever iterators. -/
def Expr.isTerm : Expr → Bool
  | .name .. | .number .. | .call .. => true
  | .binary _ left op right => left.isTerm && right.isTerm && (ArithOp.ofBinary? op).isSome
  | .unary _ .neg operand | .unary _ .pos operand => operand.isTerm
  | .subscript _ base _ => base.name?.isSome
  | _ => false

mutual

/-- Whether the fields of an expression can be read. In an index everything has to be a term. -/
def Expr.readable (inIndex : Bool) : Expr → Bool
  | .name .. | .number .. => true
  | .binary _ left op right =>
    left.readable inIndex && right.readable inIndex &&
      (!inIndex || (ArithOp.ofBinary? op).isSome)
  | .unary _ _ operand => operand.readable inIndex
  | .connect _ _ values => readableAll inIndex values
  | .compare _ left links => left.readable inIndex && readableLinks inIndex links
  | .call _ _ args => readableAll inIndex args && (!inIndex || args.all Expr.isTerm)
  | .subscript _ base (.tuple _ items) =>
    base.name?.isSome && readableAll true items && items.all Expr.isTerm
  | .subscript _ base index => base.name?.isSome && index.readable true && index.isTerm
  | .tuple _ items => readableAll inIndex items
  | .list _ items => readableAll inIndex items
  | .dict _ entries => readableKeys inIndex entries && readableValues inIndex entries

def readableAll (inIndex : Bool) : List Expr → Bool
  | [] => true
  | e :: es => e.readable inIndex && readableAll inIndex es

def readableLinks (inIndex : Bool) : List (CompareOp × Expr) → Bool
  | [] => true
  | (_, e) :: links => e.readable inIndex && readableLinks inIndex links

def readableKeys (inIndex : Bool) : List (Expr × Expr) → Bool
  | [] => true
  | (key, _) :: entries => key.readable inIndex && readableKeys inIndex entries

def readableValues (inIndex : Bool) : List (Expr × Expr) → Bool
  | [] => true
  | (_, value) :: entries => value.readable inIndex && readableValues inIndex entries

end

mutual

/-- The mentions of an expression. `isWrite` speaks of the expression itself, never of its parts. -/
def Expr.mentions (scope : Scope) (isWrite : Bool) : Expr → List Mention
  | .name _ text =>
    if text ∈ scope.iterators ∨ text ∈ scope.constants then []
    else [.access text ⟨[], isWrite⟩]
  | .number .. => []
  | .binary _ left _ right => left.mentions scope false ++ right.mentions scope false
  | .unary _ _ operand => operand.mentions scope false
  | .connect _ _ values => mentionsOf scope values
  | .compare _ left links => left.mentions scope false ++ mentionsOfLinks scope links
  | .call _ _ args => mentionsOf scope args
  | .subscript _ base (.tuple _ items) =>
    match base.name? with
    | some name =>
      .touch name :: mentionsOf scope items ++
        [.access name ⟨valuesOf scope.iterators items, isWrite⟩]
    | none => []
  | .subscript _ base index =>
    match base.name? with
    | some name =>
      .touch name :: index.mentions scope false ++
        [.access name ⟨(index.value? scope.iterators).toList, isWrite⟩]
    | none => []
  | .tuple _ items => mentionsOf scope items
  | .list _ items => mentionsOf scope items
  | .dict _ entries => mentionsOfKeys scope entries ++ mentionsOfValues scope entries

def mentionsOf (scope : Scope) : List Expr → List Mention
  | [] => []
  | e :: es => e.mentions scope false ++ mentionsOf scope es

def mentionsOfLinks (scope : Scope) : List (CompareOp × Expr) → List Mention
  | [] => []
  | (_, e) :: links => e.mentions scope false ++ mentionsOfLinks scope links

def mentionsOfKeys (scope : Scope) : List (Expr × Expr) → List Mention
  | [] => []
  | (key, _) :: entries => key.mentions scope false ++ mentionsOfKeys scope entries

def mentionsOfValues (scope : Scope) : List (Expr × Expr) → List Mention
  | [] => []
  | (_, value) :: entries => value.mentions scope false ++ mentionsOfValues scope entries

end

/-! ### Terms -/

theorem Expr.value?_subscript (iterators : List String) (span : Span) (base index : Expr) :
    (Expr.subscript span base index).value? iterators =
      base.name?.map fun name => .apply name (valuesOf iterators index.components) := by
  cases index <;> cases base <;> simp [value?, name?, components, valuesOf]

theorem Expr.readable_subscript (inIndex : Bool) (span : Span) (base index : Expr) :
    (Expr.subscript span base index).readable inIndex =
      (base.name?.isSome && (readableAll true index.components &&
        index.components.all Expr.isTerm)) := by
  cases index <;> simp [readable, components, readableAll, Bool.and_assoc]

theorem Expr.mentions_subscript {scope : Scope} {isWrite : Bool} {span : Span} {base : Expr}
    {name : String} (h : base.name? = some name) (index : Expr) :
    (Expr.subscript span base index).mentions scope isWrite =
      .touch name :: mentionsOf scope index.components ++
        [.access name ⟨valuesOf scope.iterators index.components, isWrite⟩] := by
  cases index <;> simp [mentions, h, components, mentionsOf, valuesOf]

theorem Collecting.isSome_signed_neg (t : Option Term) : (signed .neg t).isSome = t.isSome := by
  cases t with
  | none => rfl
  | some t =>
    cases t with
    | literal text =>
      rw [signed]
      split <;> rfl
    | _ => rfl

theorem Expr.isSome_value? (iterators : List String) :
    ∀ e : Expr, (e.value? iterators).isSome = e.isTerm
  | .name .. | .number .. | .call .. | .connect .. | .compare .. | .tuple .. | .list ..
  | .dict .. => by simp [value?, isTerm]
  | .binary _ left op right => by
    rw [value?, isTerm, ← left.isSome_value? iterators, ← right.isSome_value? iterators]
    cases left.value? iterators <;> cases right.value? iterators <;>
      cases ArithOp.ofBinary? op <;> rfl
  | .unary _ .neg operand => by
    rw [value?, isTerm, Collecting.isSome_signed_neg, operand.isSome_value?]
  | .unary _ .pos operand => by rw [value?, isTerm, ← operand.isSome_value?, Collecting.signed]
  | .unary _ .not operand | .unary _ .invert operand => by
    simp [value?, isTerm, Collecting.signed]
  | .subscript _ base index => by rw [value?_subscript, isTerm, Option.isSome_map]

/-! ### Reading -/

namespace Collecting

variable {α β : Type} {fs fs' : Fields} {scope : Scope} {inIndex isWrite : Bool}

theorem bind_eq_ok {x : Collecting α} {f : α → Collecting β} {r : β × Fields} :
    (x >>= f) fs = .ok r ↔ ∃ a fs₁, x fs = .ok (a, fs₁) ∧ f a fs₁ = .ok r := by
  change Except.bind (x fs) (fun a => f a.1 a.2) = _ ↔ _
  cases x fs with
  | error e => simp [Except.bind]
  | ok a =>
    constructor
    · exact fun h => ⟨a.1, a.2, rfl, h⟩
    · rintro ⟨a, fs₁, h, hf⟩
      cases h
      exact hf

theorem pure_eq_ok {a : α} {r : α × Fields} : (pure a : Collecting α) fs = .ok r ↔ r = (a, fs) := by
  change Except.ok (a, fs) = .ok r ↔ _
  rw [Except.ok.injEq, eq_comm]

theorem modify_eq_ok {f : Fields → Fields} {r : Unit × Fields} :
    (modify f : Collecting Unit) fs = .ok r ↔ r = ((), f fs) := by
  change Except.ok ((), f fs) = .ok r ↔ _
  rw [Except.ok.injEq, eq_comm]

theorem throw_eq_ok {e : CompileError} {r : α × Fields} :
    (throw e : Collecting α) fs = .ok r ↔ False := by
  change Except.error e = .ok r ↔ _
  simp

theorem symbol_eq_ok {name : String} {r : Term × Fields} :
    symbol scope isWrite name fs = .ok r ↔
      r = (if name ∈ scope.iterators then .iterator name else .constant name,
        fs.after (if name ∈ scope.iterators ∨ name ∈ scope.constants then []
          else [.access name ⟨[], isWrite⟩])) := by
  unfold symbol
  split
  · next h => simp [pure_eq_ok, h]
  · split
    · next h h' => simp [pure_eq_ok, h, h']
    · next h h' =>
      simp only [bind_eq_ok, modify_eq_ok, pure_eq_ok, Prod.mk.injEq]
      simp [h, h', Fields.mention]

theorem operation_eq_ok {left right : Option Term} {op : BinaryOp} {r : Option Term × Fields} :
    operation inIndex left op right fs = .ok r ↔
      (!inIndex || (ArithOp.ofBinary? op).isSome) ∧ r = (do
        let l ← left
        let r ← right
        let o ← ArithOp.ofBinary? op
        return .arith l o r, fs) := by
  unfold operation
  cases ArithOp.ofBinary? op with
  | none => cases inIndex <;> cases left <;> cases right <;> simp [throw_eq_ok, pure_eq_ok]
  | some op => cases left <;> cases right <;> simp [pure_eq_ok]

theorem component_eq_ok {e : Expr} {o : Option Term} {r : Term × Fields} :
    component e o fs = .ok r ↔ ∃ t, o = some t ∧ r = (t, fs) := by
  cases o <;> simp [component, throw_eq_ok, pure_eq_ok]

theorem argument_eq_ok {e : Expr} {o : Option Term} {r : List Term × Fields} :
    argument inIndex e o fs = .ok r ↔ (!inIndex || o.isSome) ∧ r = (o.toList, fs) := by
  cases o <;> cases inIndex <;> simp [argument, throw_eq_ok, pure_eq_ok]

theorem baseName_eq_ok {span : Span} {base : Expr} {r : String × Fields} :
    baseName span base fs = .ok r ↔ ∃ name, base.name? = some name ∧ r = (name, fs) := by
  cases base <;> simp [baseName, Expr.name?, throw_eq_ok, pure_eq_ok]

theorem access_eq_ok {name : String} {index : List Term} {r : Term × Fields} :
    access name index isWrite fs = .ok r ↔
      r = (.apply name index, fs.after [.access name ⟨index, isWrite⟩]) := by
  simp only [access, bind_eq_ok, modify_eq_ok, pure_eq_ok, Prod.mk.injEq]
  simp [Fields.mention]

/-- What is to be shown of an expression: reading it gives its term, and its mentions are made. -/
def ReadAs (scope : Scope) (e : Expr) : Prop :=
  ∀ (inIndex isWrite : Bool) (fs : Fields) (r : Option Term × Fields),
    read scope inIndex isWrite e fs = .ok r ↔
      e.readable inIndex ∧ r = (e.value? scope.iterators, fs.after (e.mentions scope isWrite))

/-- What is to be shown of the components of an index, all of which have to be terms. -/
def IndexReadAs (scope : Scope) (es : List Expr) : Prop :=
  ∀ (fs : Fields) (r : List Term × Fields),
    readComponents scope es fs = .ok r ↔ (readableAll true es && es.all Expr.isTerm) ∧
      r = (valuesOf scope.iterators es, fs.after (mentionsOf scope es))

theorem IndexReadAs.nil : IndexReadAs scope [] := by
  intro fs r
  simp [readComponents, pure_eq_ok, readableAll, mentionsOf, valuesOf]

theorem IndexReadAs.cons {e : Expr} {es : List Expr} (h : ReadAs scope e)
    (hes : IndexReadAs scope es) : IndexReadAs scope (e :: es) := by
  intro fs r
  unfold ReadAs at h
  unfold IndexReadAs at hes
  simp only [readComponents, bind_eq_ok, h, component_eq_ok, hes, pure_eq_ok, Prod.mk.injEq]
  have hterm := e.isSome_value? scope.iterators
  cases ht : e.value? scope.iterators with
  | none => simp_all
  | some t => simp_all [readableAll, valuesOf, mentionsOf, and_assoc]

theorem IndexReadAs.subscript {span : Span} {base index : Expr}
    (h : IndexReadAs scope index.components) : ReadAs scope (.subscript span base index) := by
  intro inIndex isWrite fs r
  have hread : read scope inIndex isWrite (.subscript span base index) = do
      let name ← baseName span base
      modify (Fields.touch · name)
      return some (← access name (← readComponents scope index.components) isWrite) := by
    cases index <;> simp [read, Expr.components, readComponents]
  unfold IndexReadAs at h
  rw [hread]
  simp only [bind_eq_ok, baseName_eq_ok, modify_eq_ok, h, access_eq_ok, pure_eq_ok, Prod.mk.injEq]
  rw [Expr.readable_subscript, Expr.value?_subscript]
  cases hname : base.name? with
  | none => simp
  | some name =>
    rw [Expr.mentions_subscript hname]
    simp [and_assoc, Fields.mention]

mutual

/-- Reading an expression gives its term, and its mentions are made. -/
theorem read_eq_ok {scope : Scope} : ∀ e : Expr, ReadAs scope e
  | .name _ text => by
    intro inIndex isWrite fs r
    simp only [read, bind_eq_ok, symbol_eq_ok, pure_eq_ok, Prod.mk.injEq]
    simp [Expr.readable, Expr.value?, Expr.mentions]
  | .number .. => by
    intro inIndex isWrite fs r
    simp [read, pure_eq_ok, Expr.readable, Expr.value?, Expr.mentions]
  | .binary _ left op right => by
    intro inIndex isWrite fs r
    simp only [read, bind_eq_ok, read_eq_ok left _ _ _ _, read_eq_ok right _ _ _ _,
      operation_eq_ok, Prod.mk.injEq]
    simp [Expr.readable, Expr.value?, Expr.mentions, and_assoc]
  | .unary _ op operand => by
    intro inIndex isWrite fs r
    simp only [read, bind_eq_ok, read_eq_ok operand _ _ _ _, pure_eq_ok, Prod.mk.injEq]
    simp [Expr.readable, Expr.value?, Expr.mentions]
  | .connect _ _ values => by
    intro inIndex isWrite fs r
    simp only [read, bind_eq_ok, readAll_eq_ok values, pure_eq_ok, Prod.mk.injEq]
    simp [Expr.readable, Expr.value?, Expr.mentions]
  | .compare _ left links => by
    intro inIndex isWrite fs r
    simp only [read, bind_eq_ok, read_eq_ok left _ _ _ _, readLinks_eq_ok links, pure_eq_ok,
      Prod.mk.injEq]
    simp [Expr.readable, Expr.value?, Expr.mentions, and_assoc]
  | .call _ callee args => by
    intro inIndex isWrite fs r
    simp only [read, bind_eq_ok, readArgs_eq_ok args, pure_eq_ok, Prod.mk.injEq]
    simp [Expr.readable, Expr.value?, Expr.mentions, and_assoc]
  | .subscript _ base index => by
    have hread : ReadAs scope index := read_eq_ok index
    apply IndexReadAs.subscript
    cases index with
    | tuple _ items => exact readComponents_eq_ok items
    | _ => exact .cons hread .nil
  | .tuple _ items => by
    intro inIndex isWrite fs r
    simp only [read, bind_eq_ok, readAll_eq_ok items, pure_eq_ok, Prod.mk.injEq]
    simp [Expr.readable, Expr.value?, Expr.mentions]
  | .list _ items => by
    intro inIndex isWrite fs r
    simp only [read, bind_eq_ok, readAll_eq_ok items, pure_eq_ok, Prod.mk.injEq]
    simp [Expr.readable, Expr.value?, Expr.mentions]
  | .dict _ entries => by
    intro inIndex isWrite fs r
    simp only [read, bind_eq_ok, readKeys_eq_ok entries, readValues_eq_ok entries, pure_eq_ok,
      Prod.mk.injEq]
    simp [Expr.readable, Expr.value?, Expr.mentions, and_assoc]

theorem readAll_eq_ok {scope : Scope} :
    ∀ (es : List Expr) {inIndex : Bool} {fs : Fields} {r : Unit × Fields},
      readAll scope inIndex es fs = .ok r ↔
        readableAll inIndex es ∧ r = ((), fs.after (mentionsOf scope es))
  | [], _, _, _ => by simp [readAll, pure_eq_ok, readableAll, mentionsOf]
  | e :: es, _, _, _ => by
    simp only [readAll, bind_eq_ok, read_eq_ok e _ _ _ _, readAll_eq_ok es, Prod.mk.injEq]
    simp [readableAll, mentionsOf, and_assoc]

theorem readLinks_eq_ok {scope : Scope} :
    ∀ (links : List (CompareOp × Expr)) {inIndex : Bool} {fs : Fields} {r : Unit × Fields},
      readLinks scope inIndex links fs = .ok r ↔
        readableLinks inIndex links ∧ r = ((), fs.after (mentionsOfLinks scope links))
  | [], _, _, _ => by simp [readLinks, pure_eq_ok, readableLinks, mentionsOfLinks]
  | (_, e) :: links, _, _, _ => by
    simp only [readLinks, bind_eq_ok, read_eq_ok e _ _ _ _, readLinks_eq_ok links, Prod.mk.injEq]
    simp [readableLinks, mentionsOfLinks, and_assoc]

theorem readKeys_eq_ok {scope : Scope} :
    ∀ (entries : List (Expr × Expr)) {inIndex : Bool} {fs : Fields} {r : Unit × Fields},
      readKeys scope inIndex entries fs = .ok r ↔
        readableKeys inIndex entries ∧ r = ((), fs.after (mentionsOfKeys scope entries))
  | [], _, _, _ => by simp [readKeys, pure_eq_ok, readableKeys, mentionsOfKeys]
  | (key, _) :: entries, _, _, _ => by
    simp only [readKeys, bind_eq_ok, read_eq_ok key _ _ _ _, readKeys_eq_ok entries, Prod.mk.injEq]
    simp [readableKeys, mentionsOfKeys, and_assoc]

theorem readValues_eq_ok {scope : Scope} :
    ∀ (entries : List (Expr × Expr)) {inIndex : Bool} {fs : Fields} {r : Unit × Fields},
      readValues scope inIndex entries fs = .ok r ↔
        readableValues inIndex entries ∧ r = ((), fs.after (mentionsOfValues scope entries))
  | [], _, _, _ => by simp [readValues, pure_eq_ok, readableValues, mentionsOfValues]
  | (_, value) :: entries, _, _, _ => by
    simp only [readValues, bind_eq_ok, read_eq_ok value _ _ _ _, readValues_eq_ok entries, Prod.mk.injEq]
    simp [readableValues, mentionsOfValues, and_assoc]

theorem readArgs_eq_ok {scope : Scope} :
    ∀ (es : List Expr) {inIndex : Bool} {fs : Fields} {r : List Term × Fields},
      readArgs scope inIndex es fs = .ok r ↔
        (readableAll inIndex es && (!inIndex || es.all Expr.isTerm)) ∧
          r = (valuesOf scope.iterators es, fs.after (mentionsOf scope es))
  | [], _, _, _ => by simp [readArgs, pure_eq_ok, readableAll, mentionsOf, valuesOf]
  | e :: es, inIndex, _, _ => by
    simp only [readArgs, bind_eq_ok, read_eq_ok e _ _ _ _, argument_eq_ok, readArgs_eq_ok es, pure_eq_ok,
      Prod.mk.injEq]
    cases inIndex with
    | false => simp [readableAll, valuesOf, mentionsOf, and_assoc]
    | true =>
      have hterm := e.isSome_value? scope.iterators
      cases ht : e.value? scope.iterators with
      | none => simp_all
      | some t => simp_all [readableAll, valuesOf, mentionsOf, and_assoc]

theorem readComponents_eq_ok {scope : Scope} : ∀ es : List Expr, IndexReadAs scope es
  | [] => .nil
  | e :: es => .cons (read_eq_ok e) (readComponents_eq_ok es)

end

end Collecting

/-! ### Bodies -/

namespace Stmt

/-- What a statement assigns to. -/
def target? : Stmt → Option Expr
  | .assign _ [e] _ => some e
  | .augment _ e _ _ => some e
  | _ => none

/-- Whether the fields of a statement can be read. -/
def readable : Stmt → Bool
  | .assign _ [e] value => e.form ≠ .tuple && e.readable false && value.readable false
  | .assign .. => false
  | .augment _ e _ value => e.form ≠ .tuple && e.readable false && value.readable false
  | .eval _ value => value.readable false

/-- The mentions of a statement. Its target is written. -/
def mentions (scope : Scope) : Stmt → List Mention
  | .assign _ [e] value => e.mentions scope true ++ value.mentions scope false
  | .assign .. => []
  | .augment _ e _ value => e.mentions scope true ++ value.mentions scope false
  | .eval _ value => value.mentions scope false

end Stmt

namespace Collecting

theorem target_eq_ok {scope : Scope} {e : Expr} {fs : Fields} {r : Unit × Fields} :
    target scope e fs = .ok r ↔
      (e.form ≠ .tuple && e.readable false) ∧ r = ((), fs.after (e.mentions scope true)) := by
  by_cases h : e.form = .tuple
  · cases e with
    | tuple => simp [target, throw_eq_ok, Expr.form]
    | _ => cases h
  · have htarget : target scope e = (read scope false true e >>= fun _ => pure ()) := by
      cases e with
      | tuple => exact absurd rfl h
      | _ => rfl
    rw [htarget]
    simp only [bind_eq_ok, read_eq_ok e _ _ _ _, pure_eq_ok]
    simp [h, and_assoc]

theorem statement_eq_ok {scope : Scope} {s : Stmt} {fs : Fields} {r : Unit × Fields} :
    statement scope s fs = .ok r ↔ s.readable ∧ r = ((), fs.after (s.mentions scope)) := by
  fun_cases Stmt.readable s with
  | case1 span e value =>
    simp only [statement, bind_eq_ok, target_eq_ok, read_eq_ok value _ _ _ _, pure_eq_ok,
      Prod.mk.injEq]
    simp [Stmt.mentions, and_assoc]
  | case2 span targets value h =>
    rcases targets with _ | ⟨e, _ | ⟨e', es⟩⟩
    · simp [statement, throw_eq_ok]
    · exact (h e rfl).elim
    · simp [statement, throw_eq_ok]
  | case3 span e op value =>
    simp only [statement, bind_eq_ok, target_eq_ok, read_eq_ok value _ _ _ _, pure_eq_ok,
      Prod.mk.injEq]
    simp [Stmt.mentions, and_assoc]
  | case4 span value =>
    simp only [statement, bind_eq_ok, read_eq_ok value _ _ _ _, pure_eq_ok, Prod.mk.injEq]
    simp [Stmt.mentions]

theorem statements_eq_ok {scope : Scope} {ss : List Stmt} {fs : Fields} {r : Unit × Fields} :
    statements scope ss fs = .ok r ↔
      ss.all Stmt.readable ∧ r = ((), fs.after (ss.flatMap (Stmt.mentions scope))) := by
  induction ss generalizing fs with
  | nil => simp [statements, pure_eq_ok]
  | cons s ss ih =>
    simp only [statements, bind_eq_ok, statement_eq_ok, ih, Prod.mk.injEq]
    simp [and_assoc]

end Collecting

/-- The fields of a body are those after all its mentions. -/
theorem Fields.ofBody_eq_ok_iff {space : Space} {body : List Stmt} {fs : Fields} :
    Fields.ofBody space body = .ok fs ↔
      body.all Stmt.readable ∧
        fs = Fields.after [] (body.flatMap (Stmt.mentions space.scope)) := by
  have hrun : Fields.ofBody space body = .ok fs ↔
      Collecting.statements space.scope body [] = .ok ((), fs) := by
    change Except.map Prod.snd (Collecting.statements space.scope body []) = .ok fs ↔ _
    cases Collecting.statements space.scope body [] <;> simp [Except.map, Prod.ext_iff]
  rw [hrun, Collecting.statements_eq_ok]
  simp

/-! ### Fields after mentions -/

/-- The access that a mention makes to the field of a name. -/
def Mention.accessTo? (name : String) : Mention → Option Access
  | touch _ => none
  | access other a => if other = name then some a else none

namespace Fields

/-- The fields that some mentions name, each in the place of its first mention and with its accesses
in order. -/
def grouped (ms : List Mention) : Fields :=
  (Names.distinct (ms.map Mention.name)).map fun name =>
    ⟨name, ms.filterMap (Mention.accessTo? name)⟩

theorem has_grouped (ms : List Mention) (name : String) :
    has (grouped ms) name = decide (name ∈ ms.map Mention.name) := by
  rw [Bool.eq_iff_iff]
  simp [has, grouped]

theorem filterMap_accessTo?_eq_nil {ms : List Mention} {name : String}
    (h : name ∉ ms.map Mention.name) : ms.filterMap (Mention.accessTo? name) = [] := by
  rw [List.filterMap_eq_nil_iff]
  intro m hm
  cases m with
  | touch => rfl
  | access other a =>
    have hne : other ≠ name := by
      rintro rfl
      exact h (List.mem_map.mpr ⟨_, hm, rfl⟩)
    simp [Mention.accessTo?, hne]

theorem touch_grouped (ms : List Mention) (name : String) :
    touch (grouped ms) name = grouped (ms ++ [.touch name]) := by
  have hgrouped : grouped (ms ++ [.touch name]) =
      (Names.insert (Names.distinct (ms.map Mention.name)) name).map fun n =>
        ⟨n, ms.filterMap (Mention.accessTo? n)⟩ := by
    simp [grouped, Names.distinct_concat, Mention.name, Mention.accessTo?]
  rw [hgrouped, touch, has_grouped]
  by_cases h : name ∈ ms.map Mention.name
  · simp only [h, decide_true, if_true]
    rw [Names.insert, if_pos (Names.mem_distinct.mpr h), grouped]
  · simp only [h, decide_false, Bool.false_eq_true, if_false]
    rw [Names.insert, if_neg (mt Names.mem_distinct.mp h), List.map_append, List.map_singleton,
      filterMap_accessTo?_eq_nil h, grouped]

theorem mention_grouped (ms : List Mention) (m : Mention) :
    mention (grouped ms) m = grouped (ms ++ [m]) := by
  cases m with
  | touch name => exact touch_grouped ms name
  | access name a =>
    rw [mention, record, touch_grouped]
    simp only [grouped, List.map_append, List.map_singleton, Mention.name, List.map_map,
      List.filterMap_append]
    apply List.map_congr_left
    intro n _
    by_cases hn : n = name
    · subst hn
      simp [Mention.accessTo?, Field.add]
    · simp [Mention.accessTo?, hn, Ne.symm hn]

theorem after_grouped (ms ns : List Mention) :
    Fields.after (grouped ms) ns = grouped (ms ++ ns) := by
  induction ns generalizing ms with
  | nil => simp
  | cons n ns ih =>
    rw [after_cons, mention_grouped, ih, List.append_assoc, List.singleton_append]

/-- The fields after some mentions are these mentions grouped by name. -/
theorem after_eq_grouped (ms : List Mention) : Fields.after [] ms = grouped ms :=
  after_grouped [] ms

theorem name_mem_grouped {ms : List Mention} {name : String} :
    name ∈ (grouped ms).map Field.name ↔ name ∈ ms.map Mention.name := by
  simp [grouped]

/-- The field of a name that is mentioned. -/
theorem mem_grouped {ms : List Mention} {f : Field} :
    f ∈ grouped ms ↔ f.name ∈ ms.map Mention.name ∧
      f.accesses = ms.filterMap (Mention.accessTo? f.name) := by
  obtain ⟨name, accesses⟩ := f
  simp only [grouped, List.mem_map, Names.mem_distinct, Field.mk.injEq]
  constructor
  · rintro ⟨n, hn, rfl, rfl⟩
    exact ⟨hn, rfl⟩
  · rintro ⟨hn, rfl⟩
    exact ⟨name, hn, rfl, rfl⟩

end Fields

end LoopNest
