import LoopNest.Proofs.ConstraintKeeping
import LoopNest.Proofs.SourceRoundTrip
import Mathlib.Algebra.Group.Nat.Even
import Mathlib.Data.List.Forall2

/-!
# Reading segments directly

The conjunctions of a chain cut it into segments. A segment of one comparison could be read as a
relation of two terms, and one of two comparisons as a relation with a middle term. A chain of such
segments is split into just these relations exactly if every segment of two comparisons, the last one
apart, begins at an even offset.
-/

namespace LoopNest

/-- The segments of a chain, each with its first operand and its links. -/
def Expr.segments (left : Expr) : List (CompareOp × Expr) → List WrittenChain
  | [] => [(left, [])]
  | (op, .binary _ close .bitXor reopen) :: links =>
    (left, [(op, close)]) :: reopen.segments links
  | (op, e) :: links =>
    (left.segments links).modifyHead fun segment => (segment.1, (op, e) :: segment.2)

/-- What the relation says that a segment of one or two comparisons is read as directly. -/
def directly? (iterators : List String) :
    WrittenChain → Option (Term × CompareOp × Option Term × Option CompareOp × Term)
  | (x, [(op, y)]) => do
    let left ← x.term? iterators
    let right ← y.term? iterators
    return (left, op, none, none, right)
  | (x, [(op, y), (op', z)]) => do
    let left ← x.term? iterators
    let mid ← y.term? iterators
    let right ← z.term? iterators
    return (left, op, some mid, some op', right)
  | _ => none

namespace Chain

/-- Every segment of two comparisons, the last one apart, has an even number of comparisons before it
and before the segments. -/
def EvenOffsets (offset : Nat) (sizes : List Nat) : Prop :=
  ∀ before n after, sizes = before ++ n :: after → after ≠ [] → n = 2 → Even (offset + before.sum)

theorem evenOffsets_singleton (offset n : Nat) : EvenOffsets offset [n] := by
  intro before m after hsplit hafter
  rcases List.singleton_eq_append_iff.mp hsplit with ⟨rfl, h⟩ | ⟨-, h⟩
  · exact absurd (List.cons.inj h).2 hafter
  · cases h

theorem evenOffsets_cons_cons (offset n m : Nat) (ns : List Nat) :
    EvenOffsets offset (n :: m :: ns) ↔
      (n = 2 → Even offset) ∧ EvenOffsets (offset + n) (m :: ns) := by
  constructor
  · intro h
    constructor
    · intro hn
      exact h [] n (m :: ns) rfl (by simp) hn
    · intro before k after hsplit
      rw [Nat.add_assoc, ← List.sum_cons]
      exact h (n :: before) k after (by rw [hsplit, List.cons_append])
  · intro ⟨hfirst, hrest⟩ before k after hsplit hafter hk
    rcases List.cons_eq_append_iff.mp hsplit with ⟨rfl, h⟩ | ⟨before, rfl, h⟩
    · cases h
      exact hfirst hk
    · rw [List.sum_cons, ← Nat.add_assoc]
      exact hrest before k after h hafter hk

/-- Segments of one or two comparisons are aligned if their offsets are even where this matters. -/
theorem aligned_iff_evenOffsets {offset : Nat} {sizes : List Nat}
    (h : ∀ n ∈ sizes, n = 1 ∨ n = 2) : aligned offset sizes ↔ EvenOffsets offset sizes := by
  fun_induction aligned offset sizes with
  | case1 => simp [EvenOffsets]
  | case2 offset n =>
    have hn : n ≤ 2 := by
      have := h n List.mem_cons_self
      omega
    exact iff_of_true (decide_eq_true hn) (evenOffsets_singleton offset n)
  | case3 offset n ns hne ih =>
    obtain ⟨hn, hns⟩ := List.forall_mem_cons.mp h
    obtain ⟨m, ns, rfl⟩ := List.exists_cons_of_ne_nil hne
    rw [Bool.and_eq_true, ih hns, evenOffsets_cons_cons, Nat.even_iff]
    apply and_congr_left
    intro _
    rcases hn with rfl | rfl <;> simp

end Chain

/-! ### Segments and relations -/

theorem Expr.segments_single (left : Expr) {op : CompareOp} {e : Expr}
    (he : ∀ span close reopen, e = .binary span close .bitXor reopen → False)
    (links : List (CompareOp × Expr)) :
    left.segments ((op, e) :: links) =
      (left.segments links).modifyHead fun segment => (segment.1, (op, e) :: segment.2) :=
  Expr.segments.eq_3 left op e links he

/-- A chain has a first segment, which is empty only if the chain is. -/
theorem Expr.exists_segments (left : Expr) (links : List (CompareOp × Expr)) :
    ∃ segment more, left.segments links = segment :: more ∧ (segment.2 = [] → links = []) := by
  fun_induction Expr.segments left links with
  | case1 left => exact ⟨_, _, rfl, fun _ => rfl⟩
  | case2 => exact ⟨_, _, rfl, by simp⟩
  | case3 left op e links he ih =>
    obtain ⟨segment, more, hsegments, -⟩ := ih
    rw [hsegments]
    exact ⟨_, _, rfl, by simp⟩

/-- A segment that is read directly has as many comparisons as its relation, which has a middle term
exactly if it has a right operator. -/
theorem directly?_eq_some {iterators : List String} {segment : WrittenChain} {r : Relation}
    (h : directly? iterators segment = some r.nodes) :
    r.mid.isSome = r.rightOp.isSome ∧ r.comparisons.length = segment.2.length := by
  obtain ⟨id, left, leftOp, mid, rightOp, right⟩ := r
  unfold directly? at h
  split at h
  · simp only [Option.bind_eq_bind, Option.bind_eq_some_iff, Option.pure_def, Option.some.injEq,
      Relation.nodes, Prod.mk.injEq] at h
    obtain ⟨_, -, _, -, -, -, rfl, rfl, -⟩ := h
    exact ⟨rfl, rfl⟩
  · simp only [Option.bind_eq_bind, Option.bind_eq_some_iff, Option.pure_def, Option.some.injEq,
      Relation.nodes, Prod.mk.injEq] at h
    obtain ⟨_, -, _, -, _, -, -, -, rfl, rfl, -⟩ := h
    exact ⟨rfl, rfl⟩
  · cases h

/-- A relation of two terms with a third term in the middle. -/
def Relation.widen (r : Relation) (op : CompareOp) (mid : Term) : Relation :=
  { r with leftOp := op, mid := some mid, rightOp := some r.leftOp }

theorem Chain.glued_widen {r : Relation} (h : r.middle? = none) (op : CompareOp) (mid : Term)
    (rs : List Relation) :
    glued (r.widen op mid) rs = (op, .single mid) :: glued r rs := by
  have hmiddle : (r.widen op mid).middle? = some (mid, r.leftOp) := rfl
  cases rs <;> simp only [glued, Relation.linksTo, h, hmiddle] <;> rfl

/-- A single link in front of a segment of one comparison widens its relation. -/
theorem directly?_widen {iterators : List String} {segment : WrittenChain} {r : Relation}
    (h : directly? iterators segment = some r.nodes) (hsize : segment.2.length = 1) {e : Expr}
    {mid : Term} (he : e.term? iterators = some mid) (op : CompareOp) :
    r.middle? = none ∧
      directly? iterators (segment.1, (op, e) :: segment.2) = some (r.widen op mid).nodes := by
  obtain ⟨x, links⟩ := segment
  obtain ⟨⟨op', y⟩, rfl⟩ := List.length_eq_one_iff.mp hsize
  obtain ⟨id, left, leftOp, m, rightOp, right⟩ := r
  simp only [directly?, Option.bind_eq_bind, Option.bind_eq_some_iff, Option.pure_def,
    Option.some.injEq, Relation.nodes, Prod.mk.injEq] at h
  obtain ⟨_, hx, _, hy, rfl, rfl, rfl, rfl, rfl⟩ := h
  refine ⟨rfl, ?_⟩
  simp [directly?, hx, he, hy, Relation.nodes, Relation.widen]

/-- A chain of segments of one or two comparisons is glued from the relations that the segments are
read as. -/
theorem exists_glued {iterators : List String} {links : List (CompareOp × Expr)} {left : Expr}
    {t : Term} {cs : List (CompareOp × Chain.Comparand)} (ht : left.term? iterators = some t)
    (hcs : comparands? iterators links = some cs)
    (hsizes : ∀ segment ∈ left.segments links, segment.2.length = 1 ∨ segment.2.length = 2) :
    ∃ r rs, r.left = t ∧ Chain.glued r rs = cs ∧
      List.Forall₂ (fun segment r => directly? iterators segment = some r.nodes)
        (left.segments links) (r :: rs) := by
  induction links using comparands?.induct generalizing left t cs with
  | case1 => simp [Expr.segments] at hsizes
  | case2 op span close reopen links ih =>
    obtain ⟨c, o, rest, hc, ho, hrest, rfl⟩ := comparands?_joint_eq_some_iff.mp hcs
    obtain ⟨-, hmore⟩ := List.forall_mem_cons.mp hsizes
    obtain ⟨r, rs, rfl, rfl, hread⟩ := ih ho hrest hmore
    refine ⟨⟨0, t, op, none, none, c⟩, r :: rs, rfl, rfl, .cons ?_ hread⟩
    simp [directly?, ht, hc, Relation.nodes]
  | case3 op e links he ih =>
    obtain ⟨m, rest, hm, hrest, rfl⟩ := (comparands?_single_eq_some_iff he).mp hcs
    rw [left.segments_single he] at hsizes ⊢
    obtain ⟨segment, more, hsegments, hempty⟩ := left.exists_segments links
    by_cases hlinks : links = []
    · subst hlinks
      cases hrest
      refine ⟨⟨0, t, op, none, none, m⟩, [], rfl, rfl, .cons ?_ .nil⟩
      simp [directly?, ht, hm, Relation.nodes]
    · -- what follows is a segment of one comparison, and the link in front makes it one of two
      have hpos : 0 < segment.2.length := List.length_pos_iff.mpr fun hnil => hlinks (hempty hnil)
      rw [hsegments] at hsizes
      obtain ⟨hfirst, hmore⟩ := List.forall_mem_cons.mp hsizes
      have hone : segment.2.length = 1 := by
        simp only [List.length_cons] at hfirst
        omega
      have hsizes' : ∀ s ∈ left.segments links, s.2.length = 1 ∨ s.2.length = 2 := by
        rw [hsegments]
        exact List.forall_mem_cons.mpr ⟨.inl hone, hmore⟩
      obtain ⟨r, rs, rfl, rfl, hread⟩ := ih ht hrest hsizes'
      rw [hsegments] at hread ⊢
      obtain ⟨hr, hrs⟩ := List.forall₂_cons.mp hread
      obtain ⟨hmiddle, hwide⟩ := directly?_widen hr hone hm op
      exact ⟨r.widen op m, rs, rfl, Chain.glued_widen hmiddle op m rs, .cons hwide hrs⟩

theorem sizes_of_directly? {iterators : List String} {segments : List WrittenChain}
    {rs : List Relation}
    (h : List.Forall₂ (fun segment r => directly? iterators segment = some r.nodes) segments rs) :
    (∀ r ∈ rs, r.mid.isSome = r.rightOp.isSome) ∧
      Chain.sizes rs = segments.map (·.2.length) := by
  induction h with
  | nil => exact ⟨by simp, rfl⟩
  | cons hr _ ih =>
    obtain ⟨hwhole, hsize⟩ := directly?_eq_some hr
    refine ⟨List.forall_mem_cons.mpr ⟨hwhole, ih.1⟩, ?_⟩
    rw [List.map_cons, ← hsize, ← ih.2]
    rfl

/-! ### Chains and headers -/

/-- The relations of a chain of segments of one or two comparisons are what the segments are read as
directly, exactly if the offsets are even where this matters. -/
theorem map_nodes_settle_iff {iterators : List String} {left : Expr}
    {links : List (CompareOp × Expr)} {t : Term} {cs : List (CompareOp × Chain.Comparand)}
    (ht : left.term? iterators = some t) (hcs : comparands? iterators links = some cs)
    (hsizes : ∀ segment ∈ left.segments links, segment.2.length = 1 ∨ segment.2.length = 2)
    (id : Nat) :
    ∃ direct, List.Forall₂ (fun segment nodes => directly? iterators segment = some nodes)
        (left.segments links) direct ∧
      ((Chain.settle (.begin id t) cs).map Relation.nodes = direct ↔
        Chain.EvenOffsets 0 ((left.segments links).map (·.2.length))) := by
  obtain ⟨r, rs, rfl, rfl, hread⟩ := exists_glued ht hcs hsizes
  obtain ⟨hwhole, hlengths⟩ := sizes_of_directly? hread
  refine ⟨(r :: rs).map Relation.nodes, List.forall₂_map_right_iff.mpr hread, ?_⟩
  rw [Chain.map_nodes_settle_glued r rs hwhole id, hlengths]
  exact Chain.aligned_iff_evenOffsets (List.forall_mem_map.mpr hsizes)

/-- A header with one chain, of segments of one or two comparisons, has the relations that the segments
are read as directly, in order, exactly if every segment of two comparisons, the last one apart, has an
even number of comparisons before it. -/
theorem Space.relations_read_directly_iff {s : Stmt} {space : Space} {left : Expr}
    {links : List (CompareOp × Expr)} (h : Space.ofStmt s = .ok space)
    (hchain : s.chains = [(left, links)])
    (hsizes : ∀ segment ∈ left.segments links, segment.2.length = 1 ∨ segment.2.length = 2) :
    ∃ direct, List.Forall₂ (fun segment nodes => directly? space.iterators segment = some nodes)
        (left.segments links) direct ∧
      (space.relations.map Relation.nodes = direct ↔
        Chain.EvenOffsets 0 ((left.segments links).map (·.2.length))) := by
  obtain ⟨chains, free, hlinks, hsettle⟩ := s.chains_of_space? ((ofStmt_eq_ok_iff s space).mp h)
  rw [hchain] at hlinks
  simp only [List.mapM_cons, List.mapM_nil, Option.bind_eq_bind, Option.bind_eq_some_iff,
    Option.pure_def, Option.some.injEq] at hlinks
  obtain ⟨⟨t, cs⟩, hread, _, rfl, rfl⟩ := hlinks
  obtain ⟨added, next, more, -, hmore, hrelations⟩ := settleAll_cons_eq_some_iff.mp hsettle
  cases hmore
  obtain ⟨ht, hcs⟩ := links?_eq_some_iff.mp hread
  rw [hrelations, List.append_nil]
  exact map_nodes_settle_iff ht hcs hsizes 0

/-- A header with a chain of five segments, of two, one, one, two and two comparisons. -/
def segmentedHeader : String :=
  "s = \x7b[i, j]: 0 <= i < n ^ i != j ^ j < m ^ 0 <= j < i + m ^ -i <= f(j) <= 2 * n\x7d"

theorem Space.relations_read_directly_iff_segmented :
    ∃ s space left links, Space.ofStmt s = .ok space ∧ s.chains = [(left, links)] ∧
      (left.segments links).map (·.2.length) = [2, 1, 1, 2, 2] ∧ space.relations.length = 5 ∧
      (∀ segment ∈ left.segments links, segment.2.length = 1 ∨ segment.2.length = 2) ∧
      ∃ direct, List.Forall₂ (fun segment nodes => directly? space.iterators segment = some nodes)
          (left.segments links) direct ∧
        (space.relations.map Relation.nodes = direct ↔
          Chain.EvenOffsets 0 ((left.segments links).map (·.2.length))) := by
  have hread : (Program.parse segmentedHeader).toOption.any fun p => p.body.any fun s =>
      s.chains.map (fun c => (c.1.segments c.2).map (·.2.length)) = [[2, 1, 1, 2, 2]] &&
        (Space.ofStmt s).toOption.any fun space => space.relations.length = 5 := by
    decide +kernel
  obtain ⟨p, -, hbody⟩ := exists_ok_of_any hread
  obtain ⟨s, -, hcheck⟩ := List.any_eq_true.mp hbody
  obtain ⟨hchains, hspace⟩ := Bool.and_eq_true_iff.mp hcheck
  obtain ⟨space, h, hlength⟩ := exists_ok_of_any hspace
  obtain ⟨⟨left, links⟩, hchain, hlengths⟩ := List.map_eq_singleton_iff.mp (of_decide_eq_true hchains)
  have hsizes : ∀ segment ∈ left.segments links,
      segment.2.length = 1 ∨ segment.2.length = 2 := by
    rw [← List.forall_mem_map (P := fun n => n = 1 ∨ n = 2), hlengths]
    decide
  exact ⟨s, space, left, links, h, hchain, hlengths, of_decide_eq_true hlength, hsizes,
    relations_read_directly_iff h hchain hsizes⟩

end LoopNest
