import LoopNest.Proofs.HeaderSteps
import Mathlib.Data.Option.Basic

/-!
# Reading headers without state

A header that is read without a fault has a simple description: its keys name iterators, its values
hold chains of comparisons, every operand is a term, and each chain settles in its own relations
behind those of the chains before it. `Stmt.space?` says this directly, and the space that reading
with a draft yields is the same one.
-/

namespace LoopNest

mutual

/-- The term an expression stands for among the given iterators. -/
def Expr.term? (iterators : List String) : Expr → Option Term
  | .name _ text => some (if text ∈ iterators then .iterator text else .constant text)
  | .number _ text => some (.literal text)
  | .binary _ left op right => do
    let l ← left.term? iterators
    let o ← ArithOp.ofBinary? op
    let r ← right.term? iterators
    return .arith l o r
  | .unary _ .neg (.number _ text) => some (.literal ("-" ++ text))
  | .unary _ .neg operand => (operand.term? iterators).map Term.negate
  | .unary _ .pos operand => operand.term? iterators
  | .call _ callee args => (termsOf? iterators args).map (.apply callee)
  | _ => none

def termsOf? (iterators : List String) : List Expr → Option (List Term)
  | [] => some []
  | e :: es => do
    let t ← e.term? iterators
    let ts ← termsOf? iterators es
    return t :: ts

end

/-- The links of a chain with their terms. -/
def comparands? (iterators : List String) :
    List (CompareOp × Expr) → Option (List (CompareOp × Chain.Comparand))
  | [] => some []
  | (op, .binary _ left .bitXor right) :: links => do
    let close ← left.term? iterators
    let reopen ← right.term? iterators
    let rest ← comparands? iterators links
    return (op, .joint close reopen) :: rest
  | (op, e) :: links => do
    let t ← e.term? iterators
    let rest ← comparands? iterators links
    return (op, .single t) :: rest

/-- A chain of comparisons: its first term and its links. -/
abbrev Links := Term × List (CompareOp × Chain.Comparand)

mutual

/-- The chains of a constraint in the order in which they are written. -/
def Expr.chains? (iterators : List String) : Expr → Option (List Links)
  | .compare _ left links => do
    let t ← left.term? iterators
    let comparands ← comparands? iterators links
    return [(t, comparands)]
  | .connect _ .and values => chainsOf? iterators values
  | _ => none

def chainsOf? (iterators : List String) : List Expr → Option (List Links)
  | [] => some []
  | e :: es => do
    let chains ← e.chains? iterators
    let more ← chainsOf? iterators es
    return chains ++ more

end

/-- The names in the keys of a header. -/
def keyNames? : List (Expr × Expr) → Option (List String)
  | [] => some []
  | (key, _) :: entries =>
    match key with
    | .list _ items | .tuple _ items => do
      let names ← items.mapM Expr.name?
      let more ← keyNames? entries
      return names ++ more
    | _ => none

/-- The relations that chains leave, and the first identity that is still free. -/
def settleAll (id : Nat) : List Links → Option (List Relation × Nat)
  | [] => some ([], id)
  | (t, links) :: chains => do
    let (_, free) ← Chain.split (.begin id t) links
    let (relations, last) ← settleAll free chains
    return (Chain.settle (.begin id t) links ++ relations, last)

/-- The space that a header describes. -/
def Stmt.space? : Stmt → Option Space
  | .assign _ [.name _ name] (.dict _ entries) => do
    guard (name ≠ "")
    let names ← keyNames? entries
    let iterators := Names.distinct names
    let chains ← chainsOf? iterators (entries.map Prod.snd)
    let (relations, _) ← settleAll 0 chains
    return ⟨name, iterators, relations⟩
  | _ => none

theorem comparands?_joint_eq_some_iff {iterators : List String} {op : CompareOp} {span : Span}
    {left right : Expr} {links : List (CompareOp × Expr)}
    {cs : List (CompareOp × Chain.Comparand)} :
    comparands? iterators ((op, .binary span left .bitXor right) :: links) = some cs ↔
      ∃ close reopen rest, left.term? iterators = some close ∧ right.term? iterators = some reopen ∧
        comparands? iterators links = some rest ∧ cs = (op, .joint close reopen) :: rest := by
  simp only [comparands?, Option.bind_eq_bind, Option.bind_eq_some_iff, Option.pure_def,
    Option.some.injEq]
  constructor
  · rintro ⟨close, hc, reopen, hr, rest, hrest, rfl⟩
    exact ⟨close, reopen, rest, hc, hr, hrest, rfl⟩
  · rintro ⟨close, reopen, rest, hc, hr, hrest, rfl⟩
    exact ⟨close, hc, reopen, hr, rest, hrest, rfl⟩

theorem comparands?_single_eq_some_iff {iterators : List String} {op : CompareOp} {e : Expr}
    (he : ∀ span left right, e = .binary span left .bitXor right → False)
    {links : List (CompareOp × Expr)} {cs : List (CompareOp × Chain.Comparand)} :
    comparands? iterators ((op, e) :: links) = some cs ↔
      ∃ t rest, e.term? iterators = some t ∧ comparands? iterators links = some rest ∧
        cs = (op, .single t) :: rest := by
  simp only [comparands?.eq_3 _ _ _ _ he, Option.bind_eq_bind, Option.bind_eq_some_iff,
    Option.pure_def, Option.some.injEq]
  constructor
  · rintro ⟨t, ht, rest, hrest, rfl⟩
    exact ⟨t, rest, ht, hrest, rfl⟩
  · rintro ⟨t, rest, ht, hrest, rfl⟩
    exact ⟨t, ht, rest, hrest, rfl⟩

theorem comparands?_eq_some_nil {iterators : List String} {links : List (CompareOp × Expr)}
    (h : comparands? iterators links = some []) : links = [] := by
  fun_cases comparands? iterators links with
  | case1 => rfl
  | case2 op span left right links =>
    obtain ⟨_, _, _, _, _, _, hcs⟩ := comparands?_joint_eq_some_iff.mp h
    cases hcs
  | case3 op e links he =>
    obtain ⟨_, _, _, _, hcs⟩ := (comparands?_single_eq_some_iff he).mp h
    cases hcs

theorem settleAll_cons_eq_some_iff {id : Nat} {t : Term}
    {links : List (CompareOp × Chain.Comparand)} {chains : List Links} {rs : List Relation}
    {last : Nat} :
    settleAll id ((t, links) :: chains) = some (rs, last) ↔
      ∃ added free more, Chain.split (.begin id t) links = some (added, free) ∧
        settleAll free chains = some (more, last) ∧
        rs = Chain.settle (.begin id t) links ++ more := by
  simp only [settleAll, Option.bind_eq_bind, Option.bind_eq_some_iff, Option.pure_def,
    Option.some.injEq, Prod.mk.injEq]
  constructor
  · rintro ⟨⟨added, free⟩, hsplit, ⟨more, _⟩, hmore, rfl, rfl⟩
    exact ⟨added, free, more, hsplit, hmore, rfl⟩
  · rintro ⟨added, free, more, hsplit, hmore, rfl⟩
    exact ⟨_, hsplit, _, hmore, rfl, rfl⟩

theorem Expr.term?_neg (iterators : List String) (span : Span) {operand : Expr}
    (h : operand.form ≠ .number) :
    Expr.term? iterators (.unary span .neg operand) =
      (operand.term? iterators).map Term.negate := by
  cases operand with
  | number => exact absurd rfl h
  | _ => rw [Expr.term?.eq_def _ (.unary ..)]

namespace Lowering

theorem map_eq_ok {α β : Type} {x : Lowering α} {f : α → β} {d d' : Draft} {b : β} :
    (f <$> x) d = .ok b d' ↔ ∃ a, x d = .ok a d' ∧ f a = b := by
  rw [← bind_pure_comp, bind_eq_ok]
  constructor
  · rintro ⟨a, d₁, hx, hf⟩
    obtain ⟨hb, rfl⟩ := pure_eq_ok.mp hf
    exact ⟨a, hx, hb⟩
  · rintro ⟨a, hx, hb⟩
    exact ⟨a, d', hx, pure_eq_ok.mpr ⟨hb, rfl⟩⟩

theorem demand_eq_ok {e : Expr} {o : Option Term} {t : Term} {d d' : Draft} :
    demand e o d = .ok t d' ↔ o = some t ∧ d = d' := by
  cases o <;> simp [demand]

theorem symbol_eq_ok {name : String} {t : Term} {d d' : Draft} :
    symbol name d = .ok t d' ↔
      (if name ∈ d.space.iterators then .iterator name else .constant name) = t ∧ d = d' := by
  unfold symbol
  rw [bind_eq_ok]
  constructor
  · rintro ⟨d₁, d₂, hget, ht⟩
    cases hget
    simpa [Space.hasIterator] using ht
  · rintro ⟨rfl, rfl⟩
    exact ⟨d, d, rfl, by simp [Space.hasIterator]⟩

theorem ofBinary_bind_eq_ok {β : Type} {op : BinaryOp} {f : ArithOp → Lowering β} {b : β}
    {d d' : Draft} :
    (liftExcept (ArithOp.ofBinary op) >>= f) d = .ok b d' ↔
      ∃ o, ArithOp.ofBinary? op = some o ∧ f o d = .ok b d' := by
  unfold ArithOp.ofBinary
  cases ArithOp.ofBinary? op with
  | none => simp [liftExcept, bind_eq_ok]
  | some o =>
    change f o d = _ ↔ _
    simp

/-- Reading `e` gives a term exactly when `e` stands for one, and leaves the draft alone. -/
def ReadsTerm (e : Expr) : Prop :=
  ∀ (t : Term) (d d' : Draft),
    read e d = .ok (some t) d' ↔ e.term? d.space.iterators = some t ∧ d = d'

/-- An operand is read and demanded to be a term. -/
theorem ReadsTerm.operand_bind {e : Expr} (h : ReadsTerm e) {β : Type} {f : Term → Lowering β}
    {b : β} {d d' : Draft} :
    (read e >>= fun o => demand e o >>= f) d = .ok b d' ↔
      ∃ t, e.term? d.space.iterators = some t ∧ f t d = .ok b d' := by
  rw [bind_eq_ok]
  constructor
  · rintro ⟨o, d₁, hread, hf⟩
    obtain ⟨t, d₂, hd, hf⟩ := bind_eq_ok.mp hf
    obtain ⟨rfl, rfl⟩ := demand_eq_ok.mp hd
    obtain ⟨ht, rfl⟩ := (h t d d₁).mp hread
    exact ⟨t, ht, hf⟩
  · rintro ⟨t, ht, hf⟩
    exact ⟨some t, d, (h t d d).mpr ⟨ht, rfl⟩,
      bind_eq_ok.mpr ⟨t, d, demand_eq_ok.mpr ⟨rfl, rfl⟩, hf⟩⟩

mutual

theorem readsTerm : ∀ e : Expr, ReadsTerm e
  | .name _ text => by
    intro t d d'
    simp [read, map_eq_ok, symbol_eq_ok, Expr.term?, and_comm]
  | .number _ text => by
    intro t d d'
    simp [read, Expr.term?]
  | .binary _ left op right => by
    intro t d d'
    rw [read, (readsTerm left).operand_bind, Expr.term?]
    simp only [ofBinary_bind_eq_ok, (readsTerm right).operand_bind, pure_eq_ok, Option.some.injEq,
      Option.bind_eq_bind, Option.bind_eq_some_iff, Option.pure_def]
    constructor
    · rintro ⟨l, hl, o, ho, r, hr, rfl, rfl⟩
      exact ⟨⟨l, hl, o, ho, r, hr, rfl⟩, rfl⟩
    · rintro ⟨⟨l, hl, o, ho, r, hr, rfl⟩, rfl⟩
      exact ⟨l, hl, o, ho, r, hr, rfl, rfl⟩
  | .unary span .neg operand => by
    intro t d d'
    by_cases h : operand.form = .number
    · cases operand with
      | number => simp [read, Expr.term?]
      | _ => simp [Expr.form] at h
    · rw [read_neg span h, (readsTerm operand).operand_bind, Expr.term?_neg _ span h]
      simp only [pure_eq_ok, Option.some.injEq, Option.map_eq_some_iff]
      constructor
      · rintro ⟨u, hu, rfl, rfl⟩
        exact ⟨⟨u, hu, rfl⟩, rfl⟩
      · rintro ⟨⟨u, hu, rfl⟩, rfl⟩
        exact ⟨u, hu, rfl, rfl⟩
  | .unary _ .pos operand => by
    intro t d d'
    rw [read, (readsTerm operand).operand_bind (f := fun t => pure (some t)), Expr.term?]
    simp only [pure_eq_ok, Option.some.injEq]
    constructor
    · rintro ⟨u, hu, rfl, rfl⟩
      exact ⟨hu, rfl⟩
    · rintro ⟨hu, rfl⟩
      exact ⟨t, hu, rfl, rfl⟩
  | .unary _ .not operand => by
    intro t d d'
    simp [read, Expr.term?]
  | .unary _ .invert operand => by
    intro t d d'
    simp [read, Expr.term?]
  | .call _ callee args => by
    intro t d d'
    simp only [read, bind_pure_comp, map_eq_ok, readArgs_eq_ok_iff args, Expr.term?,
      Option.map_eq_some_iff, Option.some.injEq]
    constructor
    · rintro ⟨ts, ⟨hts, rfl⟩, rfl⟩
      exact ⟨⟨ts, hts, rfl⟩, rfl⟩
    · rintro ⟨⟨ts, hts, rfl⟩, rfl⟩
      exact ⟨ts, ⟨hts, rfl⟩, rfl⟩
  | .compare _ left links => by
    intro t d d'
    simp [read, Expr.term?, bind_eq_ok, map_eq_ok]
  | .connect _ op values => by
    intro t d d'
    cases op <;> simp [read, Expr.term?, map_eq_ok]
  | .subscript _ base index => by
    intro t d d'
    simp [read, Expr.term?, bind_eq_ok, map_eq_ok]
  | .tuple _ items => by
    intro t d d'
    simp [read, Expr.term?, map_eq_ok]
  | .list _ items => by
    intro t d d'
    simp [read, Expr.term?, map_eq_ok]
  | .dict _ entries => by
    intro t d d'
    simp [read, Expr.term?, bind_eq_ok, map_eq_ok]

theorem readArgs_eq_ok_iff : ∀ (es : List Expr) (ts : List Term) (d d' : Draft),
    readArgs es d = .ok ts d' ↔ termsOf? d.space.iterators es = some ts ∧ d = d'
  | [], ts, d, d' => by simp [readArgs, termsOf?]
  | e :: es, ts, d, d' => by
    rw [readArgs, (readsTerm e).operand_bind, termsOf?]
    simp only [bind_pure_comp, map_eq_ok, readArgs_eq_ok_iff es, Option.bind_eq_bind,
      Option.bind_eq_some_iff, Option.map_eq_map, Option.map_eq_some_iff]
    constructor
    · rintro ⟨u, hu, us, ⟨hus, rfl⟩, rfl⟩
      exact ⟨⟨u, hu, us, hus, rfl⟩, rfl⟩
    · rintro ⟨⟨u, hu, us, hus, rfl⟩, rfl⟩
      exact ⟨u, hu, us, ⟨hus, rfl⟩, rfl⟩

end

/-- The links of a chain are read as their comparands, unless an odd chain ends in a conjunction. -/
theorem readLinks_eq_ok_iff (odd : Bool) (links : List (CompareOp × Expr))
    (cs : List (CompareOp × Chain.Comparand)) (d d' : Draft) :
    readLinks odd links d = .ok cs d' ↔
      comparands? d.space.iterators links = some cs ∧ d = d' ∧
        (odd = true → (Chain.pattern cs).getLastD false = false) := by
  induction links generalizing cs with
  | nil =>
    simp only [readLinks, pure_eq_ok, comparands?, Option.some.injEq]
    constructor
    · rintro ⟨rfl, rfl⟩
      exact ⟨rfl, rfl, fun _ => rfl⟩
    · rintro ⟨rfl, rfl, -⟩
      exact ⟨rfl, rfl⟩
  | cons link links ih =>
    obtain ⟨op, e⟩ := link
    by_cases he : ∃ span left right, e = .binary span left .bitXor right
    · obtain ⟨span, left, right, rfl⟩ := he
      rw [readLinks, (readsTerm left).operand_bind, comparands?_joint_eq_some_iff]
      by_cases hlast : (odd && links.isEmpty) = true
      · -- an odd chain that ends here is refused by both sides
        obtain ⟨hodd, hnil⟩ : odd = true ∧ links = [] := by simpa using hlast
        subst hodd hnil
        constructor
        · rintro ⟨l, -, hthrow⟩
          rw [if_pos hlast] at hthrow
          exact absurd hthrow throw_ne_ok
        · rintro ⟨⟨l, r, rest, -, -, hrest, rfl⟩, -, hodd⟩
          cases hrest
          exact absurd (hodd rfl) (by simp)
      · -- behind this conjunction there are more links, so the last one is among them
        have hdefault : ∀ {rest : List (CompareOp × Chain.Comparand)},
            comparands? d.space.iterators links = some rest → odd = true →
              (Chain.pattern rest).getLastD true = (Chain.pattern rest).getLastD false := by
          intro rest hrest hodd
          have hne : rest ≠ [] := by
            rintro rfl
            exact hlast (by simp [hodd, comparands?_eq_some_nil hrest])
          obtain ⟨r, rs, rfl⟩ := List.exists_cons_of_ne_nil hne
          rfl
        simp only [if_neg hlast, (readsTerm right).operand_bind, bind_pure_comp, map_eq_ok, ih]
        constructor
        · rintro ⟨l, hl, r, hr, rest, ⟨hrest, rfl, hodd⟩, rfl⟩
          refine ⟨⟨l, r, rest, hl, hr, hrest, rfl⟩, rfl, fun ho => ?_⟩
          rw [Chain.pattern_joint, List.getLastD_cons, hdefault hrest ho]
          exact hodd ho
        · rintro ⟨⟨l, r, rest, hl, hr, hrest, rfl⟩, rfl, hodd⟩
          refine ⟨l, hl, r, hr, rest, ⟨hrest, rfl, fun ho => ?_⟩, rfl⟩
          have hj := hodd ho
          rwa [Chain.pattern_joint, List.getLastD_cons, hdefault hrest ho] at hj
    · have he : ∀ span left right, e = .binary span left .bitXor right → False :=
        fun span left right h => he ⟨span, left, right, h⟩
      rw [readLinks.eq_3 _ _ _ _ he, (readsTerm e).operand_bind, comparands?_single_eq_some_iff he]
      simp only [bind_pure_comp, map_eq_ok, ih]
      constructor
      · rintro ⟨t, ht, rest, ⟨hrest, rfl, hodd⟩, rfl⟩
        rw [Chain.pattern_single, List.getLastD_cons]
        exact ⟨⟨t, rest, ht, hrest, rfl⟩, rfl, hodd⟩
      · rintro ⟨⟨t, rest, ht, hrest, rfl⟩, rfl, hodd⟩
        rw [Chain.pattern_single, List.getLastD_cons] at hodd
        exact ⟨t, ht, rest, ⟨hrest, rfl, hodd⟩, rfl⟩

end Lowering

/-- The draft with the relations of one more chain. -/
def Draft.addLinks? (d : Draft) (chain : Links) : Option Draft :=
  (Chain.split (.begin d.nextId chain.1) chain.2).map fun r =>
    { d with space := r.1.foldl Space.addRelation d.space, nextId := r.2 }

/-- The draft with the relations of more chains. -/
def Draft.addAll? (d : Draft) (chains : List Links) : Option Draft :=
  chains.foldlM Draft.addLinks? d

/-- The draft with one more iterator. -/
def Draft.declared (d : Draft) (iterator : String) : Draft :=
  { d with
    space := d.space.addIterator iterator
    warnings :=
      if d.space.hasIterator iterator then
        d.warnings ++ [.repeatedIterator iterator d.space.name]
      else d.warnings }

theorem Space.foldl_addRelation_iterators (rs : List Relation) (s : Space) :
    (rs.foldl Space.addRelation s).iterators = s.iterators := by
  induction rs generalizing s with
  | nil => rfl
  | cons r rs ih =>
    rw [List.foldl_cons, ih]
    rfl

namespace Draft

theorem iterators_addLinks? {d d' : Draft} {chain : Links} (h : d.addLinks? chain = some d') :
    d'.space.iterators = d.space.iterators := by
  obtain ⟨r, -, rfl⟩ := Option.map_eq_some_iff.mp h
  exact Space.foldl_addRelation_iterators r.1 d.space

theorem iterators_addAll? {chains : List Links} {d d' : Draft} (h : d.addAll? chains = some d') :
    d'.space.iterators = d.space.iterators := by
  induction chains generalizing d with
  | nil =>
    cases h
    rfl
  | cons chain chains ih =>
    obtain ⟨d₁, h₁, h₂⟩ := Option.bind_eq_some_iff.mp h
    rw [ih h₂, iterators_addLinks? h₁]

theorem addAll?_append {chains more : List Links} {d d' : Draft} :
    d.addAll? (chains ++ more) = some d' ↔
      ∃ d₁, d.addAll? chains = some d₁ ∧ d₁.addAll? more = some d' := by
  rw [addAll?, List.foldlM_append]
  exact Option.bind_eq_some_iff

/-- The identities of all relations lie below the next one. -/
def Fresh (d : Draft) : Prop :=
  ∀ r ∈ d.space.relations, r.id < d.nextId

/-- A chain adds its settled relations behind those that are there. -/
theorem Fresh.addLinks? {d d' : Draft} (hd : d.Fresh) {t : Term}
    {links : List (CompareOp × Chain.Comparand)} (h : d.addLinks? (t, links) = some d') :
    ∃ rs free, Chain.split (.begin d.nextId t) links = some (rs, free) ∧ d'.Fresh ∧
      d' = { d with
        space := { d.space with
          relations := d.space.relations ++ Chain.settle (.begin d.nextId t) links }
        nextId := free } := by
  obtain ⟨⟨rs, free⟩, hsplit, rfl⟩ := Option.map_eq_some_iff.mp h
  have hfold := Chain.foldl_split hsplit d.space (List.append_nil _).symm hd
  obtain ⟨hlt, hid⟩ := Chain.settle_id_bounds hsplit
  refine ⟨rs, free, hsplit, ?_, by simp only [hfold]⟩
  intro r hr
  simp only [hfold] at hr
  rcases List.mem_append.mp hr with hr | hr
  · exact Nat.lt_trans (hd r hr) hlt
  · exact (hid r hr).2

theorem Fresh.addAll?_eq_some_iff {chains : List Links} {d d' : Draft} (hd : d.Fresh) :
    d.addAll? chains = some d' ↔
      ∃ rs free, settleAll d.nextId chains = some (rs, free) ∧
        d' = { d with
          space := { d.space with relations := d.space.relations ++ rs }, nextId := free } := by
  induction chains generalizing d with
  | nil =>
    simp only [addAll?, List.foldlM_nil, settleAll, Option.pure_def, Option.some.injEq]
    constructor
    · rintro rfl
      exact ⟨[], d.nextId, rfl, by simp⟩
    · rintro ⟨rs, free, heq, rfl⟩
      cases heq
      simp
  | cons chain chains ih =>
    obtain ⟨t, links⟩ := chain
    simp only [settleAll, Option.bind_eq_bind, Option.bind_eq_some_iff, Option.pure_def,
      Option.some.injEq]
    constructor
    · intro h
      obtain ⟨d₁, h₁, h₂⟩ := Option.bind_eq_some_iff.mp h
      obtain ⟨_, free, hsplit, hfresh, rfl⟩ := hd.addLinks? h₁
      obtain ⟨rs, last, hrest, rfl⟩ := (ih hfresh).mp h₂
      exact ⟨_, last, ⟨_, hsplit, _, hrest, rfl⟩, by simp⟩
    · rintro ⟨_, last, ⟨⟨_, free⟩, hsplit, ⟨rs, _⟩, hrest, heq⟩, rfl⟩
      cases heq
      have h₁ : d.addLinks? (t, links) = some _ := Option.map_eq_some_iff.mpr ⟨_, hsplit, rfl⟩
      obtain ⟨_, free', hsplit', hfresh, heq⟩ := hd.addLinks? h₁
      rw [hsplit] at hsplit'
      cases hsplit'
      refine Option.bind_eq_some_iff.mpr ⟨_, h₁, ?_⟩
      rw [heq] at hfresh ⊢
      exact (ih hfresh).mpr ⟨rs, _, hrest, by simp⟩

end Draft

theorem Expr.form_of_chains? {iterators : List String} {e : Expr} {chains : List Links}
    (h : e.chains? iterators = some chains) : e.form = .compare ∨ e.form = .connect := by
  cases e with
  | compare => exact .inl rfl
  | connect => exact .inr rfl
  | _ => simp [chains?] at h

namespace Lowering

theorem addChain_eq_ok_iff {left : Expr} {t : Term} {links : List (CompareOp × Chain.Comparand)}
    {u : Unit} {d d' : Draft} :
    addChain left t links d = .ok u d' ↔ d.addLinks? (t, links) = some d' := by
  rw [addChain, get_bind, Draft.addLinks?, ← Chain.opened_begin, Chain.relations_opened]
  cases Chain.split (.begin d.nextId t) links with
  | none => simp
  | some r => simp [set_eq_ok]

theorem getLastD_eq_false {joints : List Bool} (h : joints.getLastD true = false) :
    joints.getLastD false = false := by
  cases joints with
  | nil => rfl
  | cons joint joints => exact h

/-- A chain of comparisons is read by adding its relations. -/
theorem read_compare_eq_ok_iff {span : Span} {left : Expr} {links : List (CompareOp × Expr)}
    {o : Option Term} {d d' : Draft} :
    read (.compare span left links) d = .ok o d' ↔
      o = none ∧ ∃ chains, Expr.chains? d.space.iterators (.compare span left links) = some chains ∧
        d.addAll? chains = some d' := by
  rw [read, (readsTerm left).operand_bind]
  simp only [Expr.chains?, Option.bind_eq_bind, Option.bind_eq_some_iff, Option.pure_def,
    Option.some.injEq]
  constructor
  · rintro ⟨t, ht, h⟩
    obtain ⟨cs, d₁, hlinks, h⟩ := bind_eq_ok.mp h
    obtain ⟨hcs, rfl, -⟩ := (readLinks_eq_ok_iff _ _ _ _ _).mp hlinks
    obtain ⟨u, d₂, hadd, h⟩ := bind_eq_ok.mp h
    obtain ⟨rfl, rfl⟩ := pure_eq_ok.mp h
    refine ⟨rfl, _, ⟨t, ht, cs, hcs, rfl⟩, ?_⟩
    simpa [Draft.addAll?] using addChain_eq_ok_iff.mp hadd
  · rintro ⟨rfl, _, ⟨t, ht, cs, hcs, rfl⟩, hadd⟩
    have hadd : d.addLinks? (t, cs) = some d' := by simpa [Draft.addAll?] using hadd
    refine ⟨t, ht, bind_eq_ok.mpr ⟨cs, d, (readLinks_eq_ok_iff _ _ _ _ _).mpr ⟨hcs, rfl, ?_⟩, ?_⟩⟩
    · -- the relations exist, so no conjunction ends the chain
      intro _
      obtain ⟨r, hsplit, -⟩ := Option.map_eq_some_iff.mp hadd
      have hsome := Chain.split_isSome (.begin d.nextId t) cs
      rw [hsplit] at hsome
      exact getLastD_eq_false (by simpa [Chain.Pending.begin] using hsome.symm)
    · exact bind_eq_ok.mpr ⟨(), d', addChain_eq_ok_iff.mpr hadd, pure_eq_ok.mpr ⟨rfl, rfl⟩⟩

/-- A first constraint is read when it is a comparison or connected constraints, and the others
behind it. -/
theorem constrainAll_cons_eq_ok_iff {e : Expr} {es : List Expr} {d d' : Draft} :
    constrainAll (e :: es) d = .ok () d' ↔
      (e.form = .compare ∨ e.form = .connect) ∧
        ∃ o d₁, read e d = .ok o d₁ ∧ constrainAll es d₁ = .ok () d' := by
  rw [constrainAll.eq_def]
  cases e with
  | compare => simp [Expr.form, bind_eq_ok]
  | connect => simp [Expr.form, bind_eq_ok]
  | _ => simp [Expr.form, bind_eq_ok]

mutual

/-- A constraint is read by adding the relations of its chains in order. -/
theorem read_constraint_eq_ok_iff : ∀ e : Expr, e.form = .compare ∨ e.form = .connect →
    ∀ (o : Option Term) (d d' : Draft), read e d = .ok o d' ↔
      o = none ∧ ∃ chains, e.chains? d.space.iterators = some chains ∧ d.addAll? chains = some d'
  | .compare span left links, _, o, d, d' => read_compare_eq_ok_iff
  | .connect span .and values, _, o, d, d' => by
    rw [read, bind_eq_ok, Expr.chains?]
    constructor
    · rintro ⟨u, d₁, hall, h⟩
      obtain ⟨rfl, rfl⟩ := pure_eq_ok.mp h
      exact ⟨rfl, (constrainAll_eq_ok_iff values d d₁).mp hall⟩
    · rintro ⟨rfl, hall⟩
      exact ⟨(), d', (constrainAll_eq_ok_iff values d d').mpr hall, pure_eq_ok.mpr ⟨rfl, rfl⟩⟩
  | .connect span .or values, _, o, d, d' => by simp [read, Expr.chains?]
  | .name .., h, _, _, _ | .number .., h, _, _, _ | .binary .., h, _, _, _ | .unary .., h, _, _, _
  | .call .., h, _, _, _ | .subscript .., h, _, _, _ | .tuple .., h, _, _, _ | .list .., h, _, _, _
  | .dict .., h, _, _, _ => by simp [Expr.form] at h

theorem constrainAll_eq_ok_iff : ∀ (es : List Expr) (d d' : Draft),
    constrainAll es d = .ok () d' ↔
      ∃ chains, chainsOf? d.space.iterators es = some chains ∧ d.addAll? chains = some d'
  | [], d, d' => by simp [constrainAll, chainsOf?, Draft.addAll?]
  | e :: es, d, d' => by
    rw [constrainAll_cons_eq_ok_iff]
    simp only [chainsOf?, Option.bind_eq_bind, Option.bind_eq_some_iff, Option.pure_def,
      Option.some.injEq]
    constructor
    · rintro ⟨hform, o, d₁, hread, hrest⟩
      obtain ⟨rfl, chains, hchains, hadd⟩ := (read_constraint_eq_ok_iff e hform o d d₁).mp hread
      obtain ⟨more, hmore, hadd'⟩ := (constrainAll_eq_ok_iff es d₁ d').mp hrest
      rw [Draft.iterators_addAll? hadd] at hmore
      exact ⟨_, ⟨chains, hchains, more, hmore, rfl⟩, Draft.addAll?_append.mpr ⟨d₁, hadd, hadd'⟩⟩
    · rintro ⟨_, ⟨chains, hchains, more, hmore, rfl⟩, hadd⟩
      obtain ⟨d₁, hadd, hadd'⟩ := Draft.addAll?_append.mp hadd
      have hform := Expr.form_of_chains? hchains
      refine ⟨hform, none, d₁, (read_constraint_eq_ok_iff e hform none d d₁).mpr ?_, ?_⟩
      · exact ⟨rfl, chains, hchains, hadd⟩
      · rw [← Draft.iterators_addAll? hadd] at hmore
        exact (constrainAll_eq_ok_iff es d₁ d').mpr ⟨more, hmore, hadd'⟩

end

theorem declare_bind_eq_ok {α : Type} {iterator : String} {f : Unit → Lowering α} {a : α}
    {d d' : Draft} :
    (declare iterator >>= f) d = .ok a d' ↔ f () (d.declared iterator) = .ok a d' :=
  Iff.rfl

theorem declareAll_eq_ok_iff (items : List Expr) (u : Unit) (d d' : Draft) :
    declareAll items d = .ok u d' ↔
      ∃ names, items.mapM Expr.name? = some names ∧ names.foldl Draft.declared d = d' := by
  induction items generalizing d with
  | nil => simp [declareAll]
  | cons e es ih =>
    rw [declareAll.eq_def]
    cases e with
    | name span text =>
      simp only [declare_bind_eq_ok, ih, List.mapM_cons, Expr.name?, Option.bind_eq_bind,
        Option.bind_some, Option.bind_eq_some_iff, Option.pure_def, Option.some.injEq]
      constructor
      · rintro ⟨names, hnames, rfl⟩
        exact ⟨text :: names, ⟨names, hnames, rfl⟩, rfl⟩
      · rintro ⟨_, ⟨names, hnames, rfl⟩, rfl⟩
        exact ⟨names, hnames, rfl⟩
    | _ => simp [bind_eq_ok, List.mapM_cons, Expr.name?]

theorem declareKeys_eq_ok_iff (entries : List (Expr × Expr)) (d d' : Draft) :
    declareKeys entries d = .ok () d' ↔
      ∃ names, keyNames? entries = some names ∧ names.foldl Draft.declared d = d' := by
  induction entries generalizing d with
  | nil => simp [declareKeys, keyNames?]
  | cons entry entries ih =>
    obtain ⟨key, value⟩ := entry
    have hitems (items : List Expr) :
        (∃ (u : Unit) (d₁ : Draft), declareAll items d = .ok u d₁ ∧
            declareKeys entries d₁ = .ok () d') ↔
          ∃ names, (do
            let names ← items.mapM Expr.name?
            let more ← keyNames? entries
            return names ++ more : Option (List String)) = some names ∧
            names.foldl Draft.declared d = d' := by
      simp only [declareAll_eq_ok_iff, ih, Option.bind_eq_bind, Option.bind_eq_some_iff,
        Option.pure_def, Option.some.injEq]
      constructor
      · rintro ⟨_, _, ⟨names, hnames, rfl⟩, more, hmore, rfl⟩
        exact ⟨_, ⟨names, hnames, more, hmore, rfl⟩, List.foldl_append⟩
      · rintro ⟨_, ⟨names, hnames, more, hmore, rfl⟩, rfl⟩
        exact ⟨(), _, ⟨names, hnames, rfl⟩, more, hmore, List.foldl_append.symm⟩
    rw [declareKeys.eq_def]
    cases key with
    | list span items => simpa only [bind_eq_ok, keyNames?] using hitems items
    | tuple span items => simpa only [bind_eq_ok, keyNames?] using hitems items
    | _ => simp [bind_eq_ok, keyNames?]

end Lowering

namespace Draft

@[simp] theorem foldl_declared_space (names : List String) (d : Draft) :
    (names.foldl declared d).space =
      { d.space with iterators := Names.union d.space.iterators names } := by
  induction names generalizing d with
  | nil => rfl
  | cons name names ih =>
    rw [List.foldl_cons, ih]
    rfl

@[simp] theorem foldl_declared_nextId (names : List String) (d : Draft) :
    (names.foldl declared d).nextId = d.nextId := by
  induction names generalizing d with
  | nil => rfl
  | cons name names ih => rw [List.foldl_cons, ih]; rfl

end Draft

/-- The draft in which a header of a name is read. -/
def Draft.opened (d : Draft) (name : String) : Draft :=
  { d with space := Space.named name }

/-- The space that a header describes when its relations are counted from an identity, and the first
identity that is free behind it. -/
def Stmt.spaceFrom? (id : Nat) : Stmt → Option (Space × Nat)
  | .assign _ [.name _ name] (.dict _ entries) => do
    guard (name ≠ "")
    let names ← keyNames? entries
    let iterators := Names.distinct names
    let chains ← chainsOf? iterators (entries.map Prod.snd)
    let (relations, free) ← settleAll id chains
    return (⟨name, iterators, relations⟩, free)
  | _ => none

theorem Stmt.space?_eq_map (s : Stmt) : s.space? = (s.spaceFrom? 0).map Prod.fst := by
  fun_cases Stmt.space? s with
  | case1 span nameSpan name dictSpan entries =>
    simp [spaceFrom?, Option.map_bind]
  | case2 s h =>
    rw [spaceFrom?.eq_2 _ _ h]
    rfl

theorem Lowering.named_eq_ok {space : Space} {d d' : Draft} :
    named d = .ok space d' ↔ d.space.name ≠ "" ∧ d.space = space ∧ d = d' := by
  rw [named, get_bind]
  by_cases hname : d.space.name = "" <;> simp [hname]

theorem Lowering.header_dict_eq_ok_iff {span nameSpan dictSpan : Span} {name : String}
    {entries : List (Expr × Expr)} {space : Space} {d d' : Draft} :
    header (.assign span [.name nameSpan name] (.dict dictSpan entries)) d = .ok space d' ↔
      name ≠ "" ∧ ∃ d₁, declareKeys entries (d.opened name) = .ok () d₁ ∧
        constrainValues entries d₁ = .ok () d' ∧ d'.space = space := by
  have hvisit : header (.assign span [.name nameSpan name] (.dict dictSpan entries)) d =
      (read (.dict dictSpan entries) >>= fun _ => named) (d.opened name) := by
    simp only [header, visit, bind_assoc, pure_bind]
    rfl
  have hread {o : Option Term} : read (.dict dictSpan entries) (d.opened name) = .ok o d' ↔
      o = none ∧ ∃ d₁, declareKeys entries (d.opened name) = .ok () d₁ ∧
        constrainValues entries d₁ = .ok () d' := by
    simp only [read, bind_pure_comp, bind_eq_ok, map_eq_ok]
    constructor
    · rintro ⟨_, d₁, hkeys, _, hvalues, rfl⟩
      exact ⟨rfl, d₁, hkeys, hvalues⟩
    · rintro ⟨rfl, d₁, hkeys, hvalues⟩
      exact ⟨(), d₁, hkeys, (), hvalues, rfl⟩
  have hname {o : Option Term} (h : read (.dict dictSpan entries) (d.opened name) = .ok o d') :
      d'.space.name = name :=
    stepClosed_keepsName.read _ _ _ _ h
  rw [hvisit]
  constructor
  · intro hheader
    obtain ⟨o, _, h, hnamed⟩ := bind_eq_ok.mp hheader
    obtain ⟨hne, rfl, rfl⟩ := named_eq_ok.mp hnamed
    obtain ⟨-, d₁, hkeys, hvalues⟩ := hread.mp h
    exact ⟨hname h ▸ hne, d₁, hkeys, hvalues, rfl⟩
  · rintro ⟨hne, d₁, hkeys, hvalues, rfl⟩
    have h := hread.mpr ⟨rfl, d₁, hkeys, hvalues⟩
    exact bind_eq_ok.mpr ⟨none, d', h, named_eq_ok.mpr ⟨(hname h).symm ▸ hne, rfl, rfl⟩⟩

/-- Reading a header in a draft gives the space that the header describes, with relations counted
from the next identity on, and fails where it describes none. -/
theorem Lowering.header_eq_ok_iff (s : Stmt) (space : Space) (d : Draft) (free : Nat) :
    (∃ d', header s d = .ok space d' ∧ d'.nextId = free) ↔
      s.spaceFrom? d.nextId = some (space, free) := by
  fun_cases Stmt.spaceFrom? d.nextId s with
  | case1 span nameSpan name dictSpan entries =>
    simp only [header_dict_eq_ok_iff, declareKeys_eq_ok_iff, constrainValues_eq,
      constrainAll_eq_ok_iff, Option.bind_eq_bind, Option.bind_eq_some_iff, Option.pure_def,
      Option.some.injEq, Prod.mk.injEq, Option.guard_eq_some']
    have hfresh (names : List String) : (names.foldl Draft.declared (d.opened name)).Fresh := by
      simp [Draft.Fresh, Draft.opened, Space.named]
    constructor
    · rintro ⟨d', ⟨hname, _, ⟨names, hnames, rfl⟩, ⟨chains, hchains, hadd⟩, rfl⟩, rfl⟩
      obtain ⟨rs, free, hsettle, rfl⟩ := (hfresh names).addAll?_eq_some_iff.mp hadd
      simp only [Draft.foldl_declared_space, Draft.foldl_declared_nextId] at hchains hsettle ⊢
      exact ⟨(), hname, names, hnames, chains, hchains, (rs, free), hsettle, rfl, rfl⟩
    · rintro ⟨_, hname, names, hnames, chains, hchains, ⟨rs, free⟩, hsettle, rfl, rfl⟩
      have hadd := (hfresh names).addAll?_eq_some_iff.mpr
        ⟨rs, free, by rw [Draft.foldl_declared_nextId]; exact hsettle, rfl⟩
      refine ⟨_, ⟨hname, _, ⟨names, hnames, rfl⟩, ⟨chains, ?_, hadd⟩, ?_⟩, rfl⟩
      · rw [Draft.foldl_declared_space]
        exact hchains
      · simp [Draft.opened, Space.named, Names.distinct]
  | case2 s h =>
    simp only [reduceCtorEq, iff_false, not_exists, not_and]
    intro d' hheader
    obtain ⟨_, _, hopen, hrest⟩ := bind_eq_ok.mp hheader
    obtain ⟨_, d₁, hvisit, hnamed⟩ := bind_eq_ok.mp hrest
    cases hopen
    unfold visit at hvisit
    split at hvisit
    · next name value =>
      cases value with
      | dict => exact (h _ _ _ _ _ rfl).elim
      | _ => simp [bind_eq_ok] at hvisit
    · simp at hvisit
    · simp at hvisit
    · -- an expression leaves the space without a name
      next value =>
      obtain ⟨_, _, hread, hdone⟩ := bind_eq_ok.mp hvisit
      cases hdone
      exact absurd (stepClosed_keepsName.read _ _ _ _ hread) (named_eq_ok.mp hnamed).1

/-- Reading a header with a draft gives the space that the header describes, and fails where it
describes none. -/
theorem Space.ofStmt_eq_ok_iff (s : Stmt) (space : Space) :
    Space.ofStmt s = .ok space ↔ s.space? = some space := by
  have hheader : Space.ofStmt s = .ok space ↔
      ∃ d, Lowering.header s Draft.empty = .ok space d := by
    unfold ofStmt EStateM.run
    cases Lowering.header s Draft.empty <;> simp
  rw [hheader, s.space?_eq_map, Option.map_eq_some_iff]
  constructor
  · rintro ⟨d, h⟩
    exact ⟨(space, d.nextId), (Lowering.header_eq_ok_iff s space .empty _).mp ⟨d, h, rfl⟩, rfl⟩
  · rintro ⟨⟨_, free⟩, h, rfl⟩
    obtain ⟨d, h, -⟩ := (Lowering.header_eq_ok_iff s _ .empty free).mpr h
    exact ⟨d, h⟩

end LoopNest
