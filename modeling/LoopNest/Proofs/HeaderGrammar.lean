import LoopNest.Proofs.ConstraintKeeping
import LoopNest.Proofs.SuppliedOperands

/-!
# Which statements are headers

The statements that describe a space have a grammar of their own. It is given here without reading
anything: operands, comparators, constraints and lists of iterators. Reading a statement gives a
space exactly if the statement is in it, so whatever no rule of the grammar has is refused.
-/

namespace LoopNest

/-- The binary operators of terms. -/
def BinaryOp.ofTerms : List BinaryOp :=
  [.add, .sub, .mult, .div, .floorDiv, .mod, .pow]

/-- The expressions that stand for terms. -/
inductive Expr.IsOperand : Expr → Prop where
  | name (span : Span) (text : String) : IsOperand (.name span text)
  | number (span : Span) (text : String) : IsOperand (.number span text)
  | binary (span : Span) {left right : Expr} {op : BinaryOp} (hop : op ∈ BinaryOp.ofTerms)
      (hl : IsOperand left) (hr : IsOperand right) : IsOperand (.binary span left op right)
  | signed (span : Span) {op : UnaryOp} {operand : Expr} (hop : op = .neg ∨ op = .pos)
      (h : IsOperand operand) : IsOperand (.unary span op operand)
  | call (span : Span) (callee : String) {args : List Expr} (h : ∀ e ∈ args, IsOperand e) :
      IsOperand (.call span callee args)

/-- What may stand between two comparisons of a chain: an operand, or two of them that end one
relation and begin the next. -/
inductive Expr.IsComparator : Expr → Prop where
  | operand {e : Expr} (h : e.IsOperand) : IsComparator e
  | joint (span : Span) {left right : Expr} (hl : left.IsOperand) (hr : right.IsOperand) :
      IsComparator (.binary span left .bitXor right)

/-- The values of a header. -/
inductive Expr.IsConstraint : Expr → Prop where
  | all (span : Span) {values : List Expr} (h : ∀ e ∈ values, IsConstraint e) :
      IsConstraint (.connect span .and values)
  | chain (span : Span) {left last : Expr} {links : List (CompareOp × Expr)} (op : CompareOp)
      (hl : left.IsOperand) (h : ∀ link ∈ links, link.2.IsComparator) (hlast : last.IsOperand) :
      IsConstraint (.compare span left (links ++ [(op, last)]))

/-- The keys of a header. -/
inductive Expr.IsIteratorList : Expr → Prop where
  | list (span : Span) {items : List Expr} (h : ∀ e ∈ items, e.form = .name) :
      IsIteratorList (.list span items)
  | tuple (span : Span) {items : List Expr} (h : ∀ e ∈ items, e.form = .name) :
      IsIteratorList (.tuple span items)

/-- The statements that describe a space. -/
inductive Stmt.DescribesSpace : Stmt → Prop where
  | assign (span nameSpan dictSpan : Span) {name : String} (hname : name ≠ "")
      {entries : List (Expr × Expr)} (hkeys : ∀ entry ∈ entries, entry.1.IsIteratorList)
      (hvalues : ∀ entry ∈ entries, entry.2.IsConstraint) :
      DescribesSpace (.assign span [.name nameSpan name] (.dict dictSpan entries))

/-! ### Operands -/

theorem ArithOp.isSome_ofBinary?_iff (op : BinaryOp) :
    (ArithOp.ofBinary? op).isSome ↔ op ∈ BinaryOp.ofTerms := by
  cases op <;> decide

mutual

theorem Expr.isOperand_of_term? {iterators : List String} :
    ∀ (e : Expr) {t : Term}, e.term? iterators = some t → e.IsOperand
  | .name span text, _, _ => .name span text
  | .number span text, _, _ => .number span text
  | .binary span left op right, t, h => by
    simp only [Expr.term?, Option.bind_eq_bind, Option.bind_eq_some_iff] at h
    obtain ⟨l, hl, o, ho, r, hr, -⟩ := h
    have hop := (ArithOp.isSome_ofBinary?_iff op).mp (Option.isSome_of_eq_some ho)
    exact .binary span hop (left.isOperand_of_term? hl) (right.isOperand_of_term? hr)
  | .unary span .neg operand, t, h => by
    by_cases hn : operand.form = .number
    · cases operand with
      | number => exact .signed span (.inl rfl) (.number _ _)
      | _ => simp [Expr.form] at hn
    · rw [Expr.term?_neg _ _ hn] at h
      obtain ⟨u, hu, -⟩ := Option.map_eq_some_iff.mp h
      exact .signed span (.inl rfl) (operand.isOperand_of_term? hu)
  | .unary span .pos operand, t, h => by
    rw [Expr.term?] at h
    exact .signed span (.inr rfl) (operand.isOperand_of_term? h)
  | .call span callee args, t, h => by
    rw [Expr.term?] at h
    obtain ⟨ts, hts, -⟩ := Option.map_eq_some_iff.mp h
    exact .call span callee (isOperand_of_termsOf? args hts)
  | .unary _ .not _, _, h | .unary _ .invert _, _, h | .connect .., _, h | .compare .., _, h
  | .subscript .., _, h | .tuple .., _, h | .list .., _, h | .dict .., _, h => by
    simp [Expr.term?] at h

theorem isOperand_of_termsOf? {iterators : List String} :
    ∀ (es : List Expr) {ts : List Term}, termsOf? iterators es = some ts → ∀ e ∈ es, e.IsOperand
  | [], _, _ => by simp
  | e :: es, ts, h => by
    simp only [termsOf?, Option.bind_eq_bind, Option.bind_eq_some_iff] at h
    obtain ⟨t, ht, us, hus, -⟩ := h
    exact List.forall_mem_cons.mpr ⟨e.isOperand_of_term? ht, isOperand_of_termsOf? es hus⟩

end

theorem exists_termsOf? {iterators : List String} {es : List Expr}
    (h : ∀ e ∈ es, ∃ t, e.term? iterators = some t) : ∃ ts, termsOf? iterators es = some ts := by
  induction es with
  | nil => exact ⟨[], by rw [termsOf?]⟩
  | cons e es ih =>
    obtain ⟨⟨t, ht⟩, hes⟩ := List.forall_mem_cons.mp h
    obtain ⟨ts, hts⟩ := ih hes
    exact ⟨t :: ts, by simp [termsOf?, ht, hts]⟩

theorem Expr.IsOperand.exists_term? (iterators : List String) {e : Expr} (h : e.IsOperand) :
    ∃ t, e.term? iterators = some t := by
  induction h with
  | name | number => exact ⟨_, by rw [Expr.term?]⟩
  | binary span hop _ _ hl hr =>
    obtain ⟨l, hl⟩ := hl
    obtain ⟨r, hr⟩ := hr
    obtain ⟨o, ho⟩ := Option.isSome_iff_exists.mp ((ArithOp.isSome_ofBinary?_iff _).mpr hop)
    exact ⟨.arith l o r, by simp [Expr.term?, hl, ho, hr]⟩
  | @signed span op operand hop _ h =>
    obtain ⟨t, ht⟩ := h
    rcases hop with rfl | rfl
    · by_cases hn : operand.form = .number
      · cases operand with
        | number => exact ⟨_, by rw [Expr.term?]⟩
        | _ => simp [Expr.form] at hn
      · exact ⟨t.negate, by rw [Expr.term?_neg _ _ hn, ht, Option.map_some]⟩
    · exact ⟨t, by rw [Expr.term?, ht]⟩
  | call span callee _ h =>
    obtain ⟨ts, hts⟩ := exists_termsOf? h
    exact ⟨.apply callee ts, by rw [Expr.term?, hts, Option.map_some]⟩

theorem Expr.IsOperand.not_isConjunction {e : Expr} (h : e.IsOperand) :
    e.isConjunction = false := by
  cases h with
  | @binary _ _ _ op hop =>
    cases op with
    | bitXor => exact absurd hop (by decide)
    | _ => rfl
  | _ => rfl

/-! ### Chains -/

theorem isComparator_of_comparands? {iterators : List String} {links : List (CompareOp × Expr)}
    {cs : List (CompareOp × Chain.Comparand)} (h : comparands? iterators links = some cs) :
    ∀ link ∈ links, link.2.IsComparator := by
  induction links using comparands?.induct generalizing cs with
  | case1 => simp
  | case2 op span left right links ih =>
    obtain ⟨close, reopen, rest, hclose, hreopen, hrest, -⟩ := comparands?_joint_eq_some_iff.mp h
    have hjoint : (Expr.binary span left .bitXor right).IsComparator :=
      .joint span (left.isOperand_of_term? hclose) (right.isOperand_of_term? hreopen)
    exact List.forall_mem_cons.mpr ⟨hjoint, ih hrest⟩
  | case3 op e links he ih =>
    obtain ⟨t, rest, ht, hrest, -⟩ := (comparands?_single_eq_some_iff he).mp h
    exact List.forall_mem_cons.mpr ⟨.operand (e.isOperand_of_term? ht), ih hrest⟩

theorem exists_comparands? (iterators : List String) {links : List (CompareOp × Expr)}
    (h : ∀ link ∈ links, link.2.IsComparator) : ∃ cs, comparands? iterators links = some cs := by
  induction links with
  | nil => exact ⟨[], rfl⟩
  | cons link links ih =>
    obtain ⟨op, e⟩ := link
    obtain ⟨he, hlinks⟩ := List.forall_mem_cons.mp h
    obtain ⟨rest, hrest⟩ := ih hlinks
    cases he with
    | operand he =>
      obtain ⟨t, ht⟩ := he.exists_term? iterators
      have hsingle : ∀ span left right, e = .binary span left .bitXor right → False := by
        rintro span left right rfl
        cases he.not_isConjunction
      exact ⟨_, (comparands?_single_eq_some_iff hsingle).mpr ⟨t, rest, ht, hrest, rfl⟩⟩
    | joint span hl hr =>
      obtain ⟨close, hclose⟩ := hl.exists_term? iterators
      obtain ⟨reopen, hreopen⟩ := hr.exists_term? iterators
      exact ⟨_, comparands?_joint_eq_some_iff.mpr ⟨close, reopen, rest, hclose, hreopen, hrest, rfl⟩⟩

/-- A chain of terms that no conjunction ends. -/
def Links.Closed (chain : Links) : Prop :=
  (Chain.pattern chain.2).getLastD true = false

theorem Expr.IsComparator.isOperand {e : Expr} (h : e.IsComparator)
    (hc : e.isConjunction = false) : e.IsOperand := by
  cases h with
  | operand h => exact h
  | joint => cases hc

/-- A chain of comparisons is a constraint exactly if it is read as a closed chain. -/
theorem Expr.isConstraint_compare_iff (iterators : List String) (span : Span) (left : Expr)
    (links : List (CompareOp × Expr)) :
    (Expr.compare span left links).IsConstraint ↔
      ∃ t cs, left.term? iterators = some t ∧ comparands? iterators links = some cs ∧
        Links.Closed (t, cs) := by
  constructor
  · intro h
    cases h with
    | @chain _ _ last links op hl hlinks hlast =>
      have hall : ∀ link ∈ links ++ [(op, last)], link.2.IsComparator :=
        List.forall_mem_append.mpr ⟨hlinks, by simpa using .operand hlast⟩
      obtain ⟨t, ht⟩ := hl.exists_term? iterators
      obtain ⟨cs, hcs⟩ := exists_comparands? iterators hall
      refine ⟨t, cs, ht, hcs, ?_⟩
      rw [Links.Closed, ← layout_of_comparands? hcs]
      simpa using hlast.not_isConjunction
  · rintro ⟨t, cs, ht, hcs, hclosed⟩
    have hall := isComparator_of_comparands? hcs
    rw [Links.Closed, ← layout_of_comparands? hcs] at hclosed
    -- a closed chain has a last link, and that link is no conjunction
    rcases List.eq_nil_or_concat links with rfl | ⟨init, ⟨op, last⟩, rfl⟩
    · cases hclosed
    · rw [List.concat_eq_append, List.forall_mem_append, List.forall_mem_singleton] at hall
      have hlast : last.isConjunction = false := by simpa using hclosed
      rw [List.concat_eq_append]
      exact .chain span op (left.isOperand_of_term? ht) hall.1 (hall.2.isOperand hlast)

/-! ### Headers -/

mutual

/-- A constraint is an expression that is read as closed chains. -/
theorem Expr.isConstraint_iff (iterators : List String) : ∀ e : Expr,
    e.IsConstraint ↔
      ∃ chains, e.chains? iterators = some chains ∧ ∀ chain ∈ chains, Links.Closed chain
  | .compare span left links => by
    rw [Expr.isConstraint_compare_iff iterators]
    simp only [Expr.chains?, Option.bind_eq_bind, Option.bind_eq_some_iff, Option.pure_def,
      Option.some.injEq]
    constructor
    · rintro ⟨t, cs, ht, hcs, hclosed⟩
      exact ⟨_, ⟨t, ht, cs, hcs, rfl⟩, List.forall_mem_singleton.mpr hclosed⟩
    · rintro ⟨_, ⟨t, ht, cs, hcs, rfl⟩, hclosed⟩
      exact ⟨t, cs, ht, hcs, List.forall_mem_singleton.mp hclosed⟩
  | .connect span .and values => by
    rw [Expr.chains?, ← forall_isConstraint_iff iterators values]
    constructor
    · intro h
      cases h with
      | all _ h => exact h
    · exact .all span
  | .connect _ .or _ | .name .. | .number .. | .binary .. | .unary .. | .call .. | .subscript ..
  | .tuple .. | .list .. | .dict .. => by
    constructor
    · intro h
      cases h
    · rintro ⟨chains, h, -⟩
      simp [Expr.chains?] at h

theorem forall_isConstraint_iff (iterators : List String) : ∀ es : List Expr,
    (∀ e ∈ es, e.IsConstraint) ↔
      ∃ chains, chainsOf? iterators es = some chains ∧ ∀ chain ∈ chains, Links.Closed chain
  | [] => by simp [chainsOf?]
  | e :: es => by
    rw [List.forall_mem_cons, e.isConstraint_iff iterators, forall_isConstraint_iff iterators es]
    simp only [chainsOf?, Option.bind_eq_bind, Option.bind_eq_some_iff, Option.pure_def,
      Option.some.injEq]
    constructor
    · rintro ⟨⟨chains, hchains, hclosed⟩, more, hmore, hclosed'⟩
      exact ⟨_, ⟨chains, hchains, more, hmore, rfl⟩, List.forall_mem_append.mpr ⟨hclosed, hclosed'⟩⟩
    · rintro ⟨_, ⟨chains, hchains, more, hmore, rfl⟩, hclosed⟩
      rw [List.forall_mem_append] at hclosed
      exact ⟨⟨chains, hchains, hclosed.1⟩, more, hmore, hclosed.2⟩

end

/-- Closed chains settle, and no others. -/
theorem exists_settleAll_iff (id : Nat) (chains : List Links) :
    (∃ r, settleAll id chains = some r) ↔ ∀ chain ∈ chains, Links.Closed chain := by
  constructor
  · rintro ⟨r, h⟩
    exact getLastD_of_settleAll h
  · intro h
    obtain ⟨rs, free, hsettle, -⟩ := exists_settleAll chains id h
    exact ⟨(rs, free), hsettle⟩

theorem mapM_name?_eq_some_iff {items : List Expr} {names : List String} :
    items.mapM Expr.name? = some names ↔
      (∀ e ∈ items, e.form = .name) ∧ names = items.filterMap Expr.name? := by
  induction items generalizing names with
  | nil => simp [eq_comm]
  | cons e es ih =>
    simp only [List.mapM_cons, Option.bind_eq_bind, Option.bind_eq_some_iff, Option.pure_def,
      Option.some.injEq, List.forall_mem_cons, ih]
    cases e with
    | name span text =>
      simp only [Expr.name?, Option.some.injEq, exists_eq_left', Expr.form, true_and,
        List.filterMap_cons]
      constructor
      · rintro ⟨_, ⟨hes, rfl⟩, rfl⟩
        exact ⟨hes, rfl⟩
      · rintro ⟨hes, rfl⟩
        exact ⟨_, ⟨hes, rfl⟩, rfl⟩
    | _ => simp [Expr.name?, Expr.form]

/-- The names that a key lists. -/
def Expr.listed : Expr → List String
  | .list _ items | .tuple _ items => items.filterMap Expr.name?
  | _ => []

/-- The keys of a header have names exactly if they are lists of iterators, and these are the
names. -/
theorem keyNames?_eq_some_iff {entries : List (Expr × Expr)} {names : List String} :
    keyNames? entries = some names ↔
      (∀ entry ∈ entries, entry.1.IsIteratorList) ∧
        names = entries.flatMap fun entry => entry.1.listed := by
  induction entries generalizing names with
  | nil => simp [keyNames?, eq_comm]
  | cons entry entries ih =>
    obtain ⟨key, value⟩ := entry
    have hitems (items : List Expr) :
        (do
          let names ← items.mapM Expr.name?
          let more ← keyNames? entries
          return names ++ more : Option (List String)) = some names ↔
          (∀ e ∈ items, e.form = .name) ∧ (∀ entry ∈ entries, entry.1.IsIteratorList) ∧
            names = items.filterMap Expr.name? ++ entries.flatMap fun entry => entry.1.listed := by
      simp only [Option.bind_eq_bind, Option.bind_eq_some_iff, Option.pure_def,
        Option.some.injEq, mapM_name?_eq_some_iff, ih]
      constructor
      · rintro ⟨_, ⟨hnames, rfl⟩, _, ⟨hmore, rfl⟩, rfl⟩
        exact ⟨hnames, hmore, rfl⟩
      · rintro ⟨hnames, hmore, rfl⟩
        exact ⟨_, ⟨hnames, rfl⟩, _, ⟨hmore, rfl⟩, rfl⟩
    rw [List.forall_mem_cons, and_assoc, List.flatMap_cons]
    cases key with
    | list span items =>
      rw [keyNames?, hitems, Expr.listed]
      refine and_congr_left fun _ => ⟨.list span, fun h => ?_⟩
      cases h with
      | list _ h => exact h
    | tuple span items =>
      rw [keyNames?, hitems, Expr.listed]
      refine and_congr_left fun _ => ⟨.tuple span, fun h => ?_⟩
      cases h with
      | tuple _ h => exact h
    | _ =>
      constructor
      · intro h
        simp [keyNames?] at h
      · rintro ⟨h, -⟩
        cases h

/-- The statements that describe a space are those that a space can be read from. -/
theorem Stmt.exists_space?_iff (s : Stmt) : (∃ space, s.space? = some space) ↔ s.DescribesSpace := by
  fun_cases Stmt.space? s with
  | case1 span nameSpan name dictSpan entries =>
    simp only [Option.bind_eq_bind, Option.bind_eq_some_iff, Option.pure_def, Option.some.injEq,
      Option.guard_eq_some']
    constructor
    · rintro ⟨_, _, hname, names, hnames, chains, hchains, r, hsettle, -⟩
      have hclosed := (exists_settleAll_iff 0 chains).mp ⟨r, hsettle⟩
      have hvalues := (forall_isConstraint_iff _ _).mpr ⟨chains, hchains, hclosed⟩
      exact .assign span nameSpan dictSpan hname (keyNames?_eq_some_iff.mp hnames).1
        (List.forall_mem_map.mp hvalues)
    · intro h
      cases h with
      | assign _ _ _ hname hkeys hvalues =>
        have hnames := keyNames?_eq_some_iff.mpr ⟨hkeys, rfl⟩
        obtain ⟨chains, hchains, hclosed⟩ := (forall_isConstraint_iff _ _).mp
          (List.forall_mem_map.mpr hvalues)
        obtain ⟨r, hsettle⟩ := (exists_settleAll_iff 0 chains).mpr hclosed
        exact ⟨_, (), hname, _, hnames, chains, hchains, r, hsettle, rfl⟩
  | case2 s h =>
    constructor
    · rintro ⟨_, h⟩
      cases h
    · intro hs
      cases hs with
      | assign => exact (h _ _ _ _ _ rfl).elim

/-! ### What is always refused -/

mutual

/-- An operand and the operands inside it. -/
def Expr.operandParts : Expr → List Expr
  | .binary span left op right =>
    .binary span left op right :: (left.operandParts ++ right.operandParts)
  | .unary span op operand => .unary span op operand :: operand.operandParts
  | .call span callee args => .call span callee args :: operandPartsOf args
  | e => [e]

def operandPartsOf : List Expr → List Expr
  | [] => []
  | e :: es => e.operandParts ++ operandPartsOf es

end

/-- The two sides of a conjunction, or the one operand that an expression is. -/
def Expr.sides : Expr → List Expr
  | .binary _ left .bitXor right => [left, right]
  | e => [e]

/-- The expressions that stand in a chain where operands have to. The last comparator is one of them
even if it is a conjunction. -/
def WrittenChain.operands (chain : WrittenChain) : List Expr :=
  chain.1 :: (chain.2.dropLast.flatMap (·.2.sides) ++ chain.2.getLast?.toList.map (·.2))

/-- The expressions that stand in operand position in a header. -/
def Stmt.operands (s : Stmt) : List Expr :=
  s.chains.flatMap fun chain => chain.operands.flatMap Expr.operandParts

/-- The forms of the expressions that are never terms. -/
def Expr.Form.nonTerms : List Expr.Form :=
  [.compare, .connect, .subscript, .tuple, .list, .dict]

/-- Faults of a header. -/
inductive Stmt.IsFaulty (s : Stmt) : Prop where
  /-- A chain ends in a conjunction. -/
  | dangling {chain : WrittenChain} (hc : chain ∈ s.chains)
      (h : (chain.2.map (·.2.isConjunction)).getLast? = some true)
  /-- Nothing is compared before a conjunction, or between two of them. -/
  | empty {chain : WrittenChain} (hc : chain ∈ s.chains) {e : Expr}
      (he : e ∈ chain.1 :: chain.2.flatMap (·.2.sides)) (h : e.isConjunction)
  /-- Something that is no term stands where an operand has to. -/
  | operand {e : Expr} (he : e ∈ s.operands) (h : e.form ∈ Expr.Form.nonTerms)

theorem mem_operandPartsOf {x : Expr} {es : List Expr} :
    x ∈ operandPartsOf es ↔ ∃ e ∈ es, x ∈ e.operandParts := by
  induction es with
  | nil => simp [operandPartsOf]
  | cons e es ih => simp [operandPartsOf, ih]

theorem Expr.IsOperand.of_mem_operandParts {e : Expr} (h : e.IsOperand) :
    ∀ x ∈ e.operandParts, x.IsOperand := by
  induction h with
  | name span text => simpa [operandParts] using .name span text
  | number span text => simpa [operandParts] using .number span text
  | binary span hop hl hr ihl ihr =>
    rw [operandParts, List.forall_mem_cons, List.forall_mem_append]
    exact ⟨.binary span hop hl hr, ihl, ihr⟩
  | signed span hop h ih =>
    rw [operandParts, List.forall_mem_cons]
    exact ⟨.signed span hop h, ih⟩
  | call span callee h ih =>
    rw [operandParts, List.forall_mem_cons]
    refine ⟨.call span callee h, fun x hx => ?_⟩
    obtain ⟨e, he, hx⟩ := mem_operandPartsOf.mp hx
    exact ih e he x hx

theorem Expr.IsComparator.of_mem_sides {e : Expr} (h : e.IsComparator) :
    ∀ x ∈ e.sides, x.IsOperand := by
  cases h with
  | operand h =>
    fun_cases sides e with
    | case1 => cases h.not_isConjunction
    | case2 => simpa using h
  | joint span hl hr => simpa [sides] using ⟨hl, hr⟩

theorem Expr.IsOperand.form_not_mem {e : Expr} (h : e.IsOperand) :
    e.form ∉ Form.nonTerms := by
  cases h <;> simp [Form.nonTerms, Expr.form]

theorem mem_chainsOf {chain : WrittenChain} {es : List Expr} :
    chain ∈ chainsOf es ↔ ∃ e ∈ es, chain ∈ e.chains := by
  induction es with
  | nil => simp [chainsOf]
  | cons e es ih => simp [chainsOf, ih]

/-- The chains of a constraint are constraints themselves. -/
theorem Expr.IsConstraint.of_mem_chains {e : Expr} (h : e.IsConstraint) :
    ∀ chain ∈ e.chains, ∃ span, (Expr.compare span chain.1 chain.2).IsConstraint := by
  induction h with
  | all span _ ih =>
    intro chain hc
    rw [Expr.chains] at hc
    obtain ⟨e, he, hc⟩ := mem_chainsOf.mp hc
    exact ih e he chain hc
  | chain span op hl h hlast =>
    rw [Expr.chains, List.forall_mem_singleton]
    exact ⟨span, .chain span op hl h hlast⟩

/-- Every operand of a chain that is a constraint is one, and its last link is no conjunction. -/
theorem WrittenChain.operands_of_isConstraint {chain : WrittenChain} {span : Span}
    (h : (Expr.compare span chain.1 chain.2).IsConstraint) :
    (∀ e ∈ chain.operands, e.IsOperand) ∧
      (∀ e ∈ chain.1 :: chain.2.flatMap (·.2.sides), e.IsOperand) ∧
      (chain.2.map (·.2.isConjunction)).getLast? = some false := by
  obtain ⟨left, links⟩ := chain
  cases h with
  | @chain _ _ last init op hl hinit hlast =>
    have hsides (e : Expr) (op : CompareOp) (c : Expr) (hc : (op, c) ∈ init) :
        e ∈ c.sides → e.IsOperand :=
      (hinit (op, c) hc).of_mem_sides e
    have hlastSides := (Expr.IsComparator.operand hlast).of_mem_sides
    refine ⟨?_, ?_, by simpa using hlast.not_isConjunction⟩
    · simpa [operands, or_imp, forall_and] using ⟨hl, hsides, hlast⟩
    · simpa [or_imp, forall_and] using ⟨hl, hsides, hlastSides⟩

/-- A statement that describes a space has no fault. -/
theorem Stmt.DescribesSpace.not_isFaulty {s : Stmt} (h : s.DescribesSpace) : ¬ s.IsFaulty := by
  have hchains : ∀ chain ∈ s.chains, ∃ span,
      (Expr.compare span chain.1 chain.2).IsConstraint := by
    cases h with
    | assign _ _ _ _ _ hvalues =>
      intro chain hc
      obtain ⟨e, he, hc⟩ := mem_chainsOf.mp hc
      obtain ⟨entry, hentry, rfl⟩ := List.mem_map.mp he
      exact (hvalues entry hentry).of_mem_chains chain hc
  rintro (⟨hc, hlast⟩ | ⟨hc, he, hjoint⟩ | ⟨he, hform⟩)
  · obtain ⟨span, hchain⟩ := hchains _ hc
    rw [(WrittenChain.operands_of_isConstraint hchain).2.2] at hlast
    cases hlast
  · obtain ⟨span, hchain⟩ := hchains _ hc
    have hoperand := (WrittenChain.operands_of_isConstraint hchain).2.1 _ he
    rw [hoperand.not_isConjunction] at hjoint
    cases hjoint
  · obtain ⟨chain, hc, he⟩ := List.mem_flatMap.mp he
    obtain ⟨outer, houter, he⟩ := List.mem_flatMap.mp he
    obtain ⟨span, hchain⟩ := hchains chain hc
    have houter := (WrittenChain.operands_of_isConstraint hchain).1 outer houter
    exact (houter.of_mem_operandParts _ he).form_not_mem hform

/-- A space can be read from a statement exactly if the statement describes one. A statement with a
chain that ends in a conjunction, with nothing compared before a conjunction, or with a comparison, a
subscript, a display or a tuple for an operand is refused, and no statement is refused because a
relation lacks an operand. -/
theorem Space.ofStmt_accepts_iff (s : Stmt) :
    ((∃ space, Space.ofStmt s = .ok space) ↔ s.DescribesSpace) ∧
      (s.IsFaulty → ∃ e, Space.ofStmt s = .error e) ∧
      ∀ e, Space.ofStmt s = .error e → e ≠ .malformed .missingOperand := by
  have haccepts : (∃ space, Space.ofStmt s = .ok space) ↔ s.DescribesSpace := by
    simp only [Space.ofStmt_eq_ok_iff, s.exists_space?_iff]
  refine ⟨haccepts, ?_, ?_⟩
  · intro hfault
    cases h : Space.ofStmt s with
    | error e => exact ⟨e, rfl⟩
    | ok space => exact ((haccepts.mp ⟨space, h⟩).not_isFaulty hfault).elim
  · rintro e h rfl
    exact Space.ofStmt_ne_missingOperand s h

end LoopNest
