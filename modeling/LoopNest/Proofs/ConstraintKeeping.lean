import LoopNest.Proofs.TermExpressions
import LoopNest.Proofs.Valuation
import Mathlib.Algebra.Order.Ring.Int
import Mathlib.Tactic.Choose

/-!
# Which headers keep their constraints

A header that is read should say the same as its space. It does so whatever its terms are exactly
when each of its chains is aligned: the layout of a header, which links of which chains are
conjunctions, decides. For a layout with a chain that is not aligned there is a header that compares
`x` with `y` while its space compares `x` only with itself.
-/

namespace LoopNest

open Chain (Comparison)

/-- The comparisons of a chain as it is written: each comparand is compared with the one before it,
and a conjunction ends one stretch of comparisons with its left side and begins the next with its
right side. -/
def Expr.written (left : Expr) : List (CompareOp × Expr) → List (Comparison Expr)
  | [] => []
  | (op, .binary _ close .bitXor reopen) :: links => (left, op, close) :: reopen.written links
  | (op, e) :: links => (left, op, e) :: e.written links

/-- A chain as it is written: its first operand and its links. -/
abbrev WrittenChain := Expr × List (CompareOp × Expr)

mutual

/-- The chains written in a constraint. -/
def Expr.chains : Expr → List WrittenChain
  | .compare _ left links => [(left, links)]
  | .connect _ _ values => chainsOf values
  | _ => []

def chainsOf : List Expr → List WrittenChain
  | [] => []
  | e :: es => e.chains ++ chainsOf es

end

/-- The chains written in the values of a header. -/
def Stmt.chains : Stmt → List WrittenChain
  | .assign _ _ (.dict _ entries) => chainsOf (entries.map Prod.snd)
  | _ => []

/-- The comparisons written in a header. -/
def Stmt.comparisons (s : Stmt) : List (Comparison Expr) :=
  s.chains.flatMap fun chain => chain.1.written chain.2

/-- For each chain of a header which of its links are conjunctions. -/
def Stmt.layout (s : Stmt) : List (List Bool) :=
  s.chains.map fun chain => chain.2.map (·.2.isConjunction)

section Holds

variable {α : Type} [Ring α] [LinearOrder α]

/-- What a header says: all comparisons written in it are true. -/
def Stmt.Holds (V : Valuation α) (s : Stmt) : Prop :=
  ∀ c ∈ s.comparisons, c.2.1.Holds (V.expr c.1) (V.expr c.2.2)

/-- What a space says: all its relations are true, a bounded one being two comparisons. -/
def Space.Holds (V : Valuation α) (s : Space) : Prop :=
  ∀ r ∈ s.relations, ∀ c ∈ r.comparisons, c.2.1.Holds (V.term c.1) (V.term c.2.2)

instance (V : Valuation α) (s : Stmt) : Decidable (s.Holds V) :=
  inferInstanceAs (Decidable (∀ c ∈ s.comparisons, c.2.1.Holds (V.expr c.1) (V.expr c.2.2)))

instance (V : Valuation α) (s : Space) : Decidable (s.Holds V) :=
  inferInstanceAs (Decidable (∀ r ∈ s.relations, ∀ c ∈ r.comparisons,
    c.2.1.Holds (V.term c.1) (V.term c.2.2)))

end Holds

/-- A comparand that is read as one term is no conjunction. -/
theorem Expr.isConjunction_eq_false {e : Expr}
    (he : ∀ span left right, e = .binary span left .bitXor right → False) :
    e.isConjunction = false := by
  fun_cases isConjunction e with
  | case1 span left right => exact (he span left right rfl).elim
  | case2 => rfl

theorem layout_of_comparands? {iterators : List String} {links : List (CompareOp × Expr)}
    {cs : List (CompareOp × Chain.Comparand)} (h : comparands? iterators links = some cs) :
    links.map (·.2.isConjunction) = Chain.pattern cs := by
  induction links using comparands?.induct generalizing cs with
  | case1 =>
    cases h
    rfl
  | case2 op span left right links ih =>
    obtain ⟨close, reopen, rest, -, -, hrest, rfl⟩ := comparands?_joint_eq_some_iff.mp h
    rw [List.map_cons, ih hrest, Chain.pattern_joint]
    rfl
  | case3 op e links he ih =>
    obtain ⟨t, rest, -, hrest, rfl⟩ := (comparands?_single_eq_some_iff he).mp h
    rw [List.map_cons, ih hrest, Chain.pattern_single, Expr.isConjunction_eq_false he]

/-- The chain of terms that a written chain is read as. -/
def links? (iterators : List String) (chain : WrittenChain) : Option Links := do
  let t ← chain.1.term? iterators
  let comparands ← comparands? iterators chain.2
  return (t, comparands)

theorem links?_eq_some_iff {iterators : List String} {chain : WrittenChain} {links : Links} :
    links? iterators chain = some links ↔
      chain.1.term? iterators = some links.1 ∧ comparands? iterators chain.2 = some links.2 := by
  simp only [links?, Option.bind_eq_bind, Option.bind_eq_some_iff, Option.pure_def,
    Option.some.injEq]
  constructor
  · rintro ⟨t, ht, cs, hcs, rfl⟩
    exact ⟨ht, hcs⟩
  · rintro ⟨ht, hcs⟩
    exact ⟨_, ht, _, hcs, rfl⟩

mutual

/-- Reading a constraint is reading its chains. -/
theorem Expr.mapM_links?_chains {iterators : List String} :
    ∀ (e : Expr) {chains : List Links}, e.chains? iterators = some chains →
      e.chains.mapM (links? iterators) = some chains
  | .compare _ left links, chains, h => by
    simp only [Expr.chains?, Option.bind_eq_bind, Option.bind_eq_some_iff, Option.pure_def,
      Option.some.injEq] at h
    obtain ⟨t, ht, cs, hcs, rfl⟩ := h
    have hl : links? iterators (left, links) = some (t, cs) := links?_eq_some_iff.mpr ⟨ht, hcs⟩
    simp [Expr.chains, hl]
  | .connect _ .and values, chains, h => by
    rw [Expr.chains]
    exact mapM_links?_chainsOf values (by simpa [Expr.chains?] using h)
  | .connect _ .or _, _, h | .name .., _, h | .number .., _, h | .binary .., _, h
  | .unary .., _, h | .call .., _, h | .subscript .., _, h | .tuple .., _, h | .list .., _, h
  | .dict .., _, h => by simp [Expr.chains?] at h

theorem mapM_links?_chainsOf {iterators : List String} :
    ∀ (es : List Expr) {chains : List Links}, chainsOf? iterators es = some chains →
      (chainsOf es).mapM (links? iterators) = some chains
  | [], chains, h => by
    rw [chainsOf?, Option.some.injEq] at h
    rw [← h, chainsOf, List.mapM_nil]
    rfl
  | e :: es, chains, h => by
    simp only [chainsOf?, Option.bind_eq_bind, Option.bind_eq_some_iff, Option.pure_def,
      Option.some.injEq] at h
    obtain ⟨first, hfirst, more, hmore, rfl⟩ := h
    rw [chainsOf, List.mapM_append, e.mapM_links?_chains hfirst, mapM_links?_chainsOf es hmore]
    rfl

end

theorem map_eq_map_of_mapM {α β γ : Type} {f : α → Option β} {g : α → γ} {h : β → γ}
    (hfg : ∀ a b, f a = some b → g a = h b) {as : List α} {bs : List β}
    (hm : as.mapM f = some bs) : as.map g = bs.map h := by
  induction as generalizing bs with
  | nil =>
    cases hm
    rfl
  | cons a as ih =>
    simp only [List.mapM_cons, Option.bind_eq_bind, Option.bind_eq_some_iff, Option.pure_def,
      Option.some.injEq] at hm
    obtain ⟨b, hb, cs, hcs, rfl⟩ := hm
    rw [List.map_cons, List.map_cons, hfg a b hb, ih hcs]

/-- A header is read by reading its chains and settling them from identity zero on. -/
theorem Stmt.chains_of_space? {s : Stmt} {space : Space} (h : s.space? = some space) :
    ∃ chains free, s.chains.mapM (links? space.iterators) = some chains ∧
      settleAll 0 chains = some (space.relations, free) := by
  unfold Stmt.space? at h
  split at h
  · next entries =>
    simp only [Option.bind_eq_bind, Option.bind_eq_some_iff, Option.pure_def,
      Option.some.injEq] at h
    obtain ⟨_, -, names, -, chains, hchains, ⟨rs, free⟩, hsettle, rfl⟩ := h
    exact ⟨chains, free, mapM_links?_chainsOf _ hchains, hsettle⟩
  · cases h

/-- The layout of a header is that of the chains it is read as. -/
theorem Stmt.layout_eq {s : Stmt} {iterators : List String} {chains : List Links}
    (h : s.chains.mapM (links? iterators) = some chains) :
    s.layout = chains.map fun chain => Chain.pattern chain.2 :=
  map_eq_map_of_mapM (fun _ _ hl => layout_of_comparands? (links?_eq_some_iff.mp hl).2) h

namespace Chain

/-- The comparisons of chains as they are written. -/
def writtenAll (chains : List Links) : List (Comparison Term) :=
  chains.flatMap fun chain => written chain.1 chain.2

end Chain

theorem getLastD_pattern_of_split {id : Nat} {t : Term}
    {links : List (CompareOp × Chain.Comparand)} {r : List Relation × Nat}
    (h : Chain.split (.begin id t) links = some r) :
    (Chain.pattern links).getLastD true = false := by
  have hsome := Chain.split_isSome (.begin id t) links
  rw [h] at hsome
  simpa [Chain.Pending.begin] using hsome.symm

/-- No chain that settles ends with a conjunction. -/
theorem getLastD_of_settleAll {chains : List Links} {id : Nat} {r : List Relation × Nat}
    (h : settleAll id chains = some r) :
    ∀ chain ∈ chains, (Chain.pattern chain.2).getLastD true = false := by
  induction chains generalizing id r with
  | nil => simp
  | cons chain chains ih =>
    obtain ⟨added, free, more, hsplit, hmore, -⟩ := settleAll_cons_eq_some_iff.mp h
    intro c hc
    rcases List.mem_cons.mp hc with rfl | hc
    · exact getLastD_pattern_of_split hsplit
    · exact ih hmore c hc

/-- Aligned chains settle in relations that say what is written. -/
theorem comparisons_of_settleAll {chains : List Links} {id : Nat} {rs : List Relation} {free : Nat}
    (h : settleAll id chains = some (rs, free))
    (ha : ∀ chain ∈ chains, Chain.aligned 0 (Chain.segments (Chain.pattern chain.2))) :
    rs.flatMap Relation.comparisons = Chain.writtenAll chains := by
  induction chains generalizing id rs with
  | nil =>
    cases h
    rfl
  | cons chain chains ih =>
    obtain ⟨added, next, more, hsplit, hmore, rfl⟩ := settleAll_cons_eq_some_iff.mp h
    have hfirst := Chain.comparisons_settle_of_aligned id chain.1 chain.2
      (getLastD_pattern_of_split hsplit) (ha chain List.mem_cons_self)
    rw [List.flatMap_append, hfirst, ih hmore fun c hc => ha c (List.mem_cons_of_mem _ hc)]
    rfl

/-- Chains settle when no conjunction ends them, and each relation comes from one of them. -/
theorem exists_settleAll (chains : List Links) (id : Nat)
    (h : ∀ chain ∈ chains, (Chain.pattern chain.2).getLastD true = false) :
    ∃ rs free, settleAll id chains = some (rs, free) ∧
      ∀ r ∈ rs, ∃ chain ∈ chains, ∃ id, r ∈ Chain.settle (.begin id chain.1) chain.2 := by
  induction chains generalizing id with
  | nil => exact ⟨[], id, rfl, by simp⟩
  | cons chain chains ih =>
    have hsome : (Chain.split (.begin id chain.1) chain.2).isSome := by
      rw [Chain.split_isSome]
      simpa [Chain.Pending.begin] using h chain List.mem_cons_self
    obtain ⟨⟨added, free⟩, hsplit⟩ := Option.isSome_iff_exists.mp hsome
    obtain ⟨more, last, hmore, hrs⟩ := ih free fun c hc => h c (List.mem_cons_of_mem _ hc)
    refine ⟨_, last, settleAll_cons_eq_some_iff.mpr ⟨added, free, more, hsplit, hmore, rfl⟩, ?_⟩
    intro r hr
    rcases List.mem_append.mp hr with hr | hr
    · exact ⟨chain, List.mem_cons_self, id, hr⟩
    · obtain ⟨c, hc, hid⟩ := hrs r hr
      exact ⟨c, List.mem_cons_of_mem _ hc, hid⟩

section Values

variable {α : Type} [Ring α] (V : Valuation α)

/-- The values that a comparison of expressions compares. -/
def Valuation.exprPair (c : Comparison Expr) : Comparison α :=
  (V.expr c.1, c.2.1, V.expr c.2.2)

/-- The values that a comparison of terms compares. -/
def Valuation.termPair (c : Comparison Term) : Comparison α :=
  (V.term c.1, c.2.1, V.term c.2.2)

/-- A chain of terms compares the values that are compared in the expressions it is read from. -/
theorem written_of_comparands? {iterators : List String} {links : List (CompareOp × Expr)}
    {cs : List (CompareOp × Chain.Comparand)} {left : Expr} {t : Term}
    (ht : left.term? iterators = some t) (h : comparands? iterators links = some cs) :
    (left.written links).map V.exprPair = (Chain.written t cs).map V.termPair := by
  induction links using comparands?.induct generalizing left t cs with
  | case1 =>
    cases h
    rfl
  | case2 op span l r links ih =>
    obtain ⟨close, reopen, rest, hclose, hreopen, hrest, rfl⟩ :=
      comparands?_joint_eq_some_iff.mp h
    simp only [Expr.written, Chain.written, List.map_cons, ih hreopen hrest]
    rw [Valuation.exprPair, Valuation.termPair, V.term_of_term? left ht, V.term_of_term? l hclose]
  | case3 op e links he ih =>
    obtain ⟨u, rest, hu, hrest, rfl⟩ := (comparands?_single_eq_some_iff he).mp h
    rw [Expr.written.eq_3 _ _ _ _ he]
    simp only [Chain.written, List.map_cons, ih hu hrest]
    rw [Valuation.exprPair, Valuation.termPair, V.term_of_term? left ht, V.term_of_term? e hu]

/-- The chains of terms compare the values that are compared in a header. -/
theorem Stmt.comparisons_values {s : Stmt} {iterators : List String} {chains : List Links}
    (h : s.chains.mapM (links? iterators) = some chains) :
    s.comparisons.map V.exprPair = (Chain.writtenAll chains).map V.termPair := by
  have hmap := map_eq_map_of_mapM
    (g := fun c => (c.1.written c.2).map V.exprPair)
    (h := fun c => (Chain.written c.1 c.2).map V.termPair)
    (fun _ _ hl => written_of_comparands? V (links?_eq_some_iff.mp hl).1
      (links?_eq_some_iff.mp hl).2) h
  rw [Stmt.comparisons, Chain.writtenAll, List.map_flatMap, List.map_flatMap, List.flatMap_def,
    List.flatMap_def, hmap]

end Values

/-- The header that has some constraints as its values and no iterators in its keys. -/
def Stmt.ofConstraints (constraints : List Expr) : Stmt :=
  .assign .nowhere [.name .nowhere "s"]
    (.dict .nowhere (constraints.map fun e => (.list .nowhere [], e)))

theorem keyNames?_of_empty (constraints : List Expr) :
    keyNames? (constraints.map fun e => (.list .nowhere [], e)) = some [] := by
  induction constraints with
  | nil => rfl
  | cons e es ih => simp [keyNames?, ih]

theorem Stmt.space?_ofConstraints {constraints : List Expr} {chains : List Links}
    {rs : List Relation} {free : Nat} (hc : chainsOf? [] constraints = some chains)
    (hs : settleAll 0 chains = some (rs, free)) :
    (ofConstraints constraints).space? = some ⟨"s", [], rs⟩ := by
  have hdistinct : Names.distinct [] = [] := rfl
  simp [ofConstraints, Stmt.space?, keyNames?_of_empty, hdistinct, Function.comp_def, hc, hs]

section Layout

variable {α : Type} [Ring α] [LinearOrder α]

/-- A header says that all comparisons of the chains it is read as are true. -/
theorem Stmt.holds_iff {s : Stmt} {iterators : List String} {chains : List Links}
    (h : s.chains.mapM (links? iterators) = some chains) (V : Valuation α) :
    s.Holds V ↔ ∀ c ∈ Chain.writtenAll chains, c.2.1.Holds (V.term c.1) (V.term c.2.2) := by
  have hpairs : s.Holds V ↔ ∀ p ∈ s.comparisons.map V.exprPair, p.2.1.Holds p.1 p.2.2 := by
    simp only [Stmt.Holds, Valuation.exprPair, List.forall_mem_map]
  rw [hpairs, Stmt.comparisons_values V h]
  simp only [Valuation.termPair, List.forall_mem_map]

/-- A header whose chains are aligned says the same as its space. -/
theorem Space.holds_iff_of_aligned {s : Stmt} {space : Space} (hs : s.space? = some space)
    (ha : ∀ joints ∈ s.layout, Chain.aligned 0 (Chain.segments joints)) (V : Valuation α) :
    space.Holds V ↔ s.Holds V := by
  obtain ⟨chains, free, hchains, hsettle⟩ := s.chains_of_space? hs
  rw [Stmt.layout_eq hchains] at ha
  have hrel := comparisons_of_settleAll hsettle fun c hc => ha _ (List.mem_map_of_mem hc)
  rw [Stmt.holds_iff hchains, ← hrel, List.forall_mem_flatMap]
  exact Iff.rfl

/-- The valuation in which `y` is one and every other name is zero. -/
def Valuation.onlyY (α : Type) [Ring α] : Valuation α where
  name text := if text = "y" then 1 else 0
  literal _ := 1
  function _ _ := 0
  quotient _ _ := 0
  remainder _ _ := 0
  power _ _ := 0
  literal_one := rfl

/-- For every pattern there is a chain between `x` and `y` whose settled relations are trivial; if
the pattern is not aligned, `x` is compared with `y` in it. -/
theorem Chain.exists_trivial {joints : List Bool} (hl : joints.getLastD true = false) (x y : Term) :
    ∃ links, pattern links = joints ∧ Over x y links ∧
      (∀ id, ∀ r ∈ settle (.begin id x) links, Trivial x r) ∧
      (aligned 0 (segments joints) = false → (x, .eq, y) ∈ written x links) := by
  cases ha : aligned 0 (segments joints) with
  | true =>
    refine ⟨plain x joints, pattern_plain x joints, over_plain x y joints, ?_, by simp⟩
    exact fun id => settle_plain x joints _ (.begin x id) (.inl rfl)
  | false =>
    obtain ⟨links, h⟩ := exists_losing x y joints hl ha
    exact ⟨links, h.pattern_eq, h.over_terms, h.trivial, fun _ => h.lost⟩

/-- Chains between `x` and `y` with given patterns, none of which a conjunction ends, are read as
trivial relations. -/
theorem exists_trivial_space {layout : List (List Bool)}
    (hl : ∀ joints ∈ layout, joints.getLastD true = false) :
    ∃ (s : Stmt) (space : Space) (chains : List Links), s.space? = some space ∧
      s.chains.mapM (links? []) = some chains ∧ s.layout = layout ∧
      (∀ r ∈ space.relations, Chain.Trivial (.constant "x") r) ∧
      ∀ joints ∈ layout, Chain.aligned 0 (Chain.segments joints) = false →
        (.constant "x", .eq, .constant "y") ∈ Chain.writtenAll chains := by
  choose! links hpattern hover htrivial hwritten using fun joints hj =>
    Chain.exists_trivial (hl joints hj) (.constant "x") (.constant "y")
  let chains : List Links := layout.map fun joints => (.constant "x", links joints)
  have hresolved : ∀ chain ∈ chains, chain.1.Resolved [] ∧
      ∀ l ∈ chain.2, ∀ t ∈ l.2.terms, t.Resolved [] := by
    intro chain hc
    obtain ⟨joints, hj, rfl⟩ := List.mem_map.mp hc
    refine ⟨by simp [Term.Resolved], fun l hlink t ht => ?_⟩
    rcases hover joints hj l hlink t ht with rfl | rfl <;> simp [Term.Resolved]
  have hpat : (chains.map fun chain => Chain.pattern chain.2) = layout := by
    rw [List.map_map]
    exact (List.map_congr_left hpattern).trans (List.map_id _)
  obtain ⟨rs, free, hsettle, hrs⟩ := exists_settleAll chains 0 fun chain hc =>
    hl _ (hpat ▸ List.mem_map_of_mem hc)
  have hread := Chain.chainsOf?_comparison hresolved
  have hchains : (Stmt.ofConstraints (chains.map Chain.comparison)).chains.mapM (links? []) =
      some chains := by
    simpa [Stmt.ofConstraints, Stmt.chains, Function.comp_def] using mapM_links?_chainsOf _ hread
  refine ⟨_, _, chains, Stmt.space?_ofConstraints hread hsettle, hchains,
    (Stmt.layout_eq hchains).trans hpat, fun r hr => ?_, fun joints hj ha => ?_⟩
  · obtain ⟨chain, hchain, id, hr⟩ := hrs r hr
    obtain ⟨joints, hj, rfl⟩ := List.mem_map.mp hchain
    exact htrivial joints hj id r hr
  · exact List.mem_flatMap.mpr ⟨_, List.mem_map_of_mem hj, hwritten joints hj ha⟩

/-- A chain that is not aligned makes a layout that some header loses a constraint with. -/
theorem Space.exists_lossy_of_not_aligned (α : Type) [Ring α] [LinearOrder α] [Nontrivial α]
    {layout : List (List Bool)}
    (hl : ∀ joints ∈ layout, joints.getLastD true = false) {lost : List Bool}
    (hmem : lost ∈ layout) (hlost : Chain.aligned 0 (Chain.segments lost) = false) :
    ∃ (s : Stmt) (space : Space), s.space? = some space ∧ s.layout = layout ∧
      space.Holds (Valuation.onlyY α) ∧ ¬ s.Holds (Valuation.onlyY α) := by
  obtain ⟨s, space, chains, hs, hchains, hlayout, htrivial, hwritten⟩ := exists_trivial_space hl
  refine ⟨s, space, hs, hlayout, fun r hr c hc => ?_, fun hholds => ?_⟩
  · rw [htrivial r hr c hc]
    exact rfl
  · have h := (Stmt.holds_iff hchains _).mp hholds _ (hwritten lost hmem hlost)
    simp [CompareOp.Holds, Valuation.term, Valuation.onlyY] at h

/-- The headers with the layout of one that is read say the same as their spaces, whatever their
terms and the values of these are, exactly if each chain of the layout is aligned: no stretch between
conjunctions has more than two comparisons, and those with two, the last one of a chain apart, have
an even number of links before them. -/
theorem Space.holds_iff_for_layout_iff_aligned [Nontrivial α] {s : Stmt} {space : Space}
    (h : Space.ofStmt s = .ok space) :
    (∀ (s' : Stmt) (space' : Space), Space.ofStmt s' = .ok space' → s'.layout = s.layout →
        ∀ V : Valuation α, space'.Holds V ↔ s'.Holds V) ↔
      ∀ joints ∈ s.layout, Chain.aligned 0 (Chain.segments joints) := by
  obtain ⟨chains, free, hchains, hsettle⟩ := s.chains_of_space? ((ofStmt_eq_ok_iff s space).mp h)
  have hl : ∀ joints ∈ s.layout, joints.getLastD true = false := by
    rw [Stmt.layout_eq hchains, List.forall_mem_map]
    exact getLastD_of_settleAll hsettle
  constructor
  · intro hall joints hj
    by_contra ha
    obtain ⟨s', space', hs', hlayout, hspace, hstmt⟩ :=
      exists_lossy_of_not_aligned α hl hj (by simpa using ha)
    exact hstmt ((hall s' space' ((ofStmt_eq_ok_iff s' space').mpr hs') hlayout _).mp hspace)
  · intro ha s' space' hs' hlayout V
    exact holds_iff_of_aligned ((ofStmt_eq_ok_iff s' space').mp hs') (hlayout ▸ ha) V

end Layout

/-- The header `s = {[i, j]: 0 <= i < n ^ 0 <= j < m}`. -/
def Stmt.boundedBoth : Stmt :=
  .assign .nowhere [.name .nowhere "s"] (.dict .nowhere
    [(.list .nowhere [.name .nowhere "i", .name .nowhere "j"],
      Chain.comparison (.literal "0",
        [(.le, .single (.iterator "i")), (.lt, .joint (.constant "n") (.literal "0")),
          (.le, .single (.iterator "j")), (.lt, .single (.constant "m"))]))])

theorem Space.holds_iff_for_layout_boundedBoth :
    Space.ofStmt .boundedBoth = .ok ⟨"s", ["i", "j"],
      [⟨0, .literal "0", .le, some (.iterator "i"), some .lt, .constant "n"⟩,
        ⟨1, .literal "0", .le, some (.iterator "j"), some .lt, .constant "m"⟩]⟩ ∧
    ∀ (s : Stmt) (space : Space), Space.ofStmt s = .ok space →
      s.layout = Stmt.boundedBoth.layout → ∀ V : Valuation ℤ, space.Holds V ↔ s.Holds V :=
  ⟨rfl, (holds_iff_for_layout_iff_aligned rfl).mpr (by decide)⟩

/-- The header `s = {[i, j]: i == n ^ 0 <= j < m ^ i < m}`. Its second stretch has two comparisons
and one link before it. -/
def Stmt.boundedBetween : Stmt :=
  .assign .nowhere [.name .nowhere "s"] (.dict .nowhere
    [(.list .nowhere [.name .nowhere "i", .name .nowhere "j"],
      Chain.comparison (.iterator "i",
        [(.eq, .joint (.constant "n") (.literal "0")), (.le, .single (.iterator "j")),
          (.lt, .joint (.constant "m") (.iterator "i")), (.lt, .single (.constant "m"))]))])

/-- Values at which `j` lies above its bound and every other comparison of the header is true. -/
def Valuation.aboveBound : Valuation ℤ where
  name text := if text = "m" then 1 else if text = "j" then 2 else 0
  literal text := if text = "1" then 1 else 0
  function _ _ := 0
  quotient _ _ := 0
  remainder _ _ := 0
  power _ _ := 0
  literal_one := rfl

/-- The bounds of `j` are lost: its space compares `0` with `m`. -/
theorem Space.ofStmt_boundedBetween_not_holds_iff :
    Space.ofStmt .boundedBetween = .ok ⟨"s", ["i", "j"],
      [⟨0, .iterator "i", .eq, none, none, .constant "n"⟩,
        ⟨1, .literal "0", .lt, none, none, .constant "m"⟩,
        ⟨2, .iterator "i", .lt, none, none, .constant "m"⟩]⟩ ∧
    Space.Holds .aboveBound ⟨"s", ["i", "j"],
      [⟨0, .iterator "i", .eq, none, none, .constant "n"⟩,
        ⟨1, .literal "0", .lt, none, none, .constant "m"⟩,
        ⟨2, .iterator "i", .lt, none, none, .constant "m"⟩]⟩ ∧
    ¬ Stmt.Holds .aboveBound .boundedBetween :=
  ⟨rfl, by decide, by decide⟩

end LoopNest
