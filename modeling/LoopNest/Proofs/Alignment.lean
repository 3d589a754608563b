import LoopNest.Proofs.ChainSplitting

/-!
# Aligned chains

The conjunctions of a chain cut it into segments. The split reads links in pairs, so it depends on
the offset of a segment, the number of links before it, whether its comparisons all survive: a
segment of two comparisons in the middle of a chain has to begin at an even offset, and a longer
segment always loses some. Chains in which every segment fits are called aligned. In an aligned
chain the settled relations are the written comparisons; for every other pattern there is a chain
whose settled relations do not mention one of its terms.
-/

namespace LoopNest

/-- The comparisons that a relation stands for. -/
def Relation.comparisons (r : Relation) : List (Chain.Comparison Term) :=
  match r.middle? with
  | some (mid, op) => [(r.left, r.leftOp, mid), (mid, op, r.right)]
  | none => [(r.left, r.leftOp, r.right)]

namespace Chain

/-- The comparisons of a chain as it is written, cut at every conjunction. -/
def written (left : Term) : List (CompareOp × Comparand) → List (Comparison Term)
  | [] => []
  | (op, .single t) :: links => (left, op, t) :: written t links
  | (op, .joint close reopen) :: links => (left, op, close) :: written reopen links

/-- The numbers of comparisons in the segments of a chain. -/
def segments : List Bool → List Nat
  | [] => [0]
  | true :: joints => 1 :: segments joints
  | false :: joints =>
    match segments joints with
    | [] => [1]
    | n :: ns => (n + 1) :: ns

/-- Whether the segments from an offset on keep all their comparisons. -/
def aligned (offset : Nat) : List Nat → Bool
  | [] => true
  | [n] => n ≤ 2
  | n :: ns => (n = 1 || n = 2 && offset % 2 = 0) && aligned (offset + n) ns

theorem aligned_add_two (offset : Nat) (ns : List Nat) :
    aligned (offset + 2) ns = aligned offset ns := by
  fun_induction aligned offset ns with
  | case1 => rfl
  | case2 => rfl
  | case3 offset n ns hne ih =>
    rw [aligned.eq_3 _ _ _ hne, Nat.add_right_comm, ih, Nat.add_mod_right]

theorem segments_ne_nil (joints : List Bool) : segments joints ≠ [] := by
  fun_cases segments joints <;> simp

/-- Only the empty pattern begins with an empty segment. -/
theorem segments_eq_zero_cons {joints : List Bool} {ns : List Nat}
    (h : segments joints = 0 :: ns) : joints = [] := by
  fun_cases segments joints <;> simp_all [segments]

/-! ### Pairs of links

At an even offset a pair of links either goes on at the next even offset or has to end its chain. -/

theorem aligned_cons_cons (offset n m : Nat) (ns : List Nat) :
    aligned offset (n :: m :: ns) =
      ((n = 1 || n = 2 && offset % 2 = 0) && aligned (offset + n) (m :: ns)) := rfl

theorem aligned_one_cons (offset : Nat) (joints : List Bool) :
    aligned offset (1 :: segments joints) = aligned (offset + 1) (segments joints) := by
  cases h : segments joints with
  | nil => exact absurd h (segments_ne_nil joints)
  | cons n ns => simp [aligned_cons_cons]

theorem aligned_joint_joint (joints : List Bool) :
    aligned 0 (segments (true :: true :: joints)) = aligned 0 (segments joints) := by
  rw [segments, aligned_one_cons, segments, aligned_one_cons, aligned_add_two]

theorem aligned_single_joint (joints : List Bool) :
    aligned 0 (segments (false :: true :: joints)) = aligned 0 (segments joints) := by
  cases h : segments joints with
  | nil => exact absurd h (segments_ne_nil joints)
  | cons n ns =>
    simp only [segments, h, aligned_cons_cons]
    exact aligned_add_two 0 (n :: ns)

/-- Two single links fill a relation, so nothing may follow them in their segment. -/
theorem aligned_single_single (joints : List Bool) :
    aligned 0 (segments (false :: false :: joints)) = joints.isEmpty := by
  cases h : segments joints with
  | nil => exact absurd h (segments_ne_nil joints)
  | cons n ns =>
    have hz : n = 0 → joints = [] := fun h0 => segments_eq_zero_cons (h0 ▸ h)
    cases joints with
    | nil => rfl
    | cons b joints =>
      have hn : n ≠ 0 := fun h0 => absurd (hz h0) (by simp)
      cases ns with
      | nil => simp [segments, h, aligned]; omega
      | cons m ns => simp [segments, h, aligned_cons_cons, hn]

/-- Behind a conjunction in the first place of a pair the segment has an odd offset, and is whole
only when it is the last one and has at most two comparisons. -/
theorem aligned_joint_single (joints : List Bool) :
    aligned 0 (segments (true :: false :: joints)) = (joints = [] || joints = [false]) := by
  rw [segments, aligned_one_cons]
  cases joints with
  | nil => rfl
  | cons b joints =>
    cases b with
    | true =>
      cases h : segments joints with
      | nil => exact absurd h (segments_ne_nil joints)
      | cons n ns => simp [segments, h, aligned_cons_cons]
    | false =>
      cases joints with
      | nil => rfl
      | cons b joints =>
        cases h : segments (b :: joints) with
        | nil => exact absurd h (segments_ne_nil _)
        | cons n ns =>
          have hn : n ≠ 0 := fun h0 => absurd (segments_eq_zero_cons (h0 ▸ h)) (by simp)
          cases ns with
          | nil => simp [segments, h, aligned]; omega
          | cons m ns => simp [segments, h, aligned_cons_cons]

/-- The relations of an aligned chain are its written comparisons. -/
theorem comparisons_settle_of_aligned (id : Nat) (left : Term) :
    ∀ links : List (CompareOp × Comparand), (pattern links).getLastD true = false →
      aligned 0 (segments (pattern links)) →
      (settle (.begin id left) links).flatMap Relation.comparisons = written left links
  | [], h, _ => by simp at h
  | [(op, .single t)], _, _ => rfl
  | [(op, .joint s t)], h, _ => by simp at h
  | (op, .single s) :: (next, .single t) :: rest, _, ha => by
    rw [pattern_single, pattern_single, aligned_single_single] at ha
    have hr : rest = [] := by simpa [pattern] using ha
    subst hr
    rfl
  | (op, .single s) :: (next, .joint close reopen) :: rest, h, ha => by
    rw [pattern_single, pattern_joint, aligned_single_joint] at ha
    rw [pattern_single, pattern_joint, List.getLastD_cons, List.getLastD_cons] at h
    simp only [settle, written, List.flatMap_cons]
    rw [comparisons_settle_of_aligned _ _ rest h ha]
    rfl
  | (op, .joint close reopen) :: (next, .joint close' reopen') :: rest, h, ha => by
    rw [pattern_joint, pattern_joint, aligned_joint_joint] at ha
    rw [pattern_joint, pattern_joint, List.getLastD_cons, List.getLastD_cons] at h
    simp only [settle, written, List.flatMap_cons]
    rw [comparisons_settle_of_aligned _ _ rest h ha]
    rfl
  | (op, .joint close reopen) :: (next, .single t) :: rest, h, ha => by
    rw [pattern_joint, pattern_single, aligned_joint_single] at ha
    rcases rest with _ | ⟨⟨op', u | _⟩, _ | _⟩
    · rfl
    · rfl
    · simp [pattern] at ha
    · simp at ha
    · simp [pattern] at ha

/-! ### Chains that lose a term

Chains of equations between one term `x` and itself, with another term `y` in one place. -/

def Comparand.terms : Comparand → List Term
  | single t => [t]
  | joint close reopen => [close, reopen]

/-- The chain with a pattern in which every term is the same. -/
def plain (x : Term) (joints : List Bool) : List (CompareOp × Comparand) :=
  joints.map fun joint => (.eq, if joint then .joint x x else .single x)

@[simp] theorem plain_true (x : Term) (joints : List Bool) :
    plain x (true :: joints) = (.eq, .joint x x) :: plain x joints := rfl

@[simp] theorem plain_false (x : Term) (joints : List Bool) :
    plain x (false :: joints) = (.eq, .single x) :: plain x joints := rfl

@[simp] theorem pattern_plain (x : Term) (joints : List Bool) :
    pattern (plain x joints) = joints := by
  induction joints with
  | nil => rfl
  | cons joint joints ih => cases joint <;> simp [ih]

/-- Every comparison of the relation is an equation of `x` with itself. -/
def Trivial (x : Term) (r : Relation) : Prop :=
  ∀ c ∈ r.comparisons, c = (x, .eq, x)

/-- A pending relation whose left and middle hold no term but `x`. -/
structure Pending.Uniform (x : Term) (p : Pending) : Prop where
  left : p.left = x
  mid : p.mid = none ∨ p.mid = some x
  rightOp : p.rightOp = none ∨ p.rightOp = some .eq

theorem Pending.Uniform.begin (x : Term) (id : Nat) : (Pending.begin id x).Uniform x :=
  ⟨rfl, .inl rfl, .inl rfl⟩

theorem Pending.Uniform.between {x : Term} {p : Pending} (hl : p.left = x) :
    (p.between x .eq).Uniform x :=
  ⟨hl, .inr rfl, .inr rfl⟩

theorem Pending.Uniform.withRight {x : Term} {p : Pending} (h : p.Uniform x) (op : CompareOp)
    (right : Term) : (p.withRight op right).Uniform x :=
  ⟨h.left, h.mid, h.rightOp⟩

theorem Pending.Uniform.trivial_close {x : Term} {p : Pending} (h : p.Uniform x) :
    Trivial x (p.close .eq x) := by
  obtain ⟨hl, hm, ho⟩ := h
  rcases hm with hm | hm <;> rcases ho with ho | ho <;>
    simp [Trivial, Relation.comparisons, Relation.middle?, Pending.close, hl, hm, ho]

/-- From a uniform pending relation, added with `x` or not added, all settled relations are
trivial. -/
theorem settle_plain (x : Term) : ∀ (joints : List Bool) (p : Pending), p.Uniform x →
    (p.added = none ∨ p.added = some (.eq, x)) → ∀ r ∈ settle p (plain x joints), Trivial x r
  | [], p, h, ha => by
    intro r hr
    rcases ha with ha | ha
    · simp [plain, settle, Pending.stored, ha] at hr
    · have hr : r = p.close .eq x := by simpa [plain, settle, Pending.stored, ha] using hr
      exact hr ▸ h.trivial_close
  | [true], p, h, ha => settle_plain x [] p h ha
  | [false], p, h, ha => by
    intro r hr
    rcases ha with ha | ha
    · have hr : r = p.close .eq x := by simpa [plain, settle, extend, ha] using hr
      exact hr ▸ h.trivial_close
    · have hr : r = (p.between x .eq).close .eq x := by simpa [plain, settle, extend, ha] using hr
      exact hr ▸ (Pending.Uniform.between h.left).trivial_close
  | false :: false :: joints, p, h, _ => by
    intro r hr
    have hb := (Pending.Uniform.between h.left).withRight .eq x
    exact settle_plain x joints _ hb (.inr rfl) r hr
  | false :: true :: joints, p, h, _ => by
    intro r hr
    rcases List.mem_cons.mp hr with hr | hr
    · exact hr ▸ (Pending.Uniform.between h.left).trivial_close
    · exact settle_plain x joints _ (.begin x _) (.inl rfl) r hr
  | true :: false :: joints, p, h, _ => by
    intro r hr
    rcases List.mem_cons.mp hr with hr | hr
    · exact hr ▸ h.trivial_close
    · have hb := (Pending.Uniform.begin x (p.id + 1)).withRight .eq x
      exact settle_plain x joints _ hb (.inr rfl) r hr
  | true :: true :: joints, p, h, _ => by
    intro r hr
    rcases List.mem_cons.mp hr with hr | hr
    · exact hr ▸ h.trivial_close
    · rcases List.mem_cons.mp hr with hr | hr
      · exact hr ▸ (Pending.Uniform.begin x _).trivial_close
      · exact settle_plain x joints _ (.begin x _) (.inl rfl) r hr

/-- Before a pair of links the right term of an added relation does not matter, and neither does its
middle when the first of them is single: both are about to be replaced. -/
theorem settle_plain_pair {x : Term} {p : Pending} (hl : p.left = x) (first second : Bool)
    (hm : first = true → p.Uniform x) (joints : List Bool) :
    ∀ r ∈ settle p (plain x (first :: second :: joints)), Trivial x r := by
  have hu : Pending.Uniform x { p with
      mid := if first then p.mid else none, rightOp := if first then p.rightOp else none,
      added := none } := by
    cases first with
    | true => exact ⟨hl, (hm rfl).mid, (hm rfl).rightOp⟩
    | false => exact ⟨hl, .inl rfl, .inl rfl⟩
  have hs := settle_plain x (first :: second :: joints) _ hu (.inl rfl)
  cases first <;> cases second <;> exact hs

/-- No term but `x` and `y` occurs in the links. -/
def Over (x y : Term) (links : List (CompareOp × Comparand)) : Prop :=
  ∀ l ∈ links, ∀ t ∈ l.2.terms, t = x ∨ t = y

@[simp] theorem over_single {x y t : Term} {op : CompareOp} {links : List (CompareOp × Comparand)} :
    Over x y ((op, .single t) :: links) ↔ (t = x ∨ t = y) ∧ Over x y links := by
  simp [Over, Comparand.terms]

@[simp] theorem over_joint {x y s t : Term} {op : CompareOp}
    {links : List (CompareOp × Comparand)} :
    Over x y ((op, .joint s t) :: links) ↔
      ((s = x ∨ s = y) ∧ (t = x ∨ t = y)) ∧ Over x y links := by
  simp [Over, Comparand.terms]

@[simp] theorem over_plain (x y : Term) (joints : List Bool) : Over x y (plain x joints) := by
  induction joints with
  | nil => simp [Over, plain]
  | cons joint joints ih => cases joint <;> simp [ih]

/-- A chain with a given pattern that settles in trivial relations although it compares `x` with
`y`. -/
structure Losing (x y : Term) (joints : List Bool) (links : List (CompareOp × Comparand)) :
    Prop where
  pattern_eq : pattern links = joints
  over_terms : Over x y links
  trivial : ∀ id, ∀ r ∈ settle (.begin id x) links, Trivial x r
  lost : (x, .eq, y) ∈ written x links

/-- Of two single links with more behind them in their segment, one term is overwritten: the second
by a conjunction, the first by anything else. -/
theorem exists_losing_single_single (x y : Term) {joints : List Bool} (hne : joints ≠ [])
    (hl : joints.getLastD true = false) : ∃ links, Losing x y (false :: false :: joints) links := by
  match joints, hne, hl with
  | [false], _, _ =>
    refine ⟨(.eq, .single y) :: plain x [false, false], by simp, by simp, ?_, by simp [written]⟩
    intro id r hr
    have hr := List.mem_singleton.mp hr
    have hu := Pending.Uniform.between (x := x)
      (p := ((Pending.begin id x).between y .eq).withRight .eq x) rfl
    exact hr ▸ hu.trivial_close
  | true :: joint :: joints, _, _ =>
    refine ⟨(.eq, .single x) :: (.eq, .single y) :: plain x (true :: joint :: joints),
      by simp, by simp, ?_, by simp [written]⟩
    intro id
    have hu := (Pending.Uniform.between (x := x) (p := .begin id x) rfl).withRight .eq y
    exact settle_plain_pair hu.left true joint (fun _ => hu) joints
  | false :: joint :: joints, _, _ =>
    refine ⟨(.eq, .single y) :: plain x (false :: false :: joint :: joints),
      by simp, by simp, ?_, by simp [written]⟩
    intro id
    exact settle_plain_pair (p := ((Pending.begin id x).between y .eq).withRight .eq x) rfl
      false joint (by simp) joints

/-- A relation begun by the first link of a pair loses its right term to the next pair. -/
theorem exists_losing_joint_single (x y : Term) (joint joint' : Bool) (joints : List Bool) :
    ∃ links, Losing x y (true :: false :: joint :: joint' :: joints) links := by
  refine ⟨(.eq, .joint x x) :: (.eq, .single y) :: plain x (joint :: joint' :: joints),
    by simp, by simp, ?_, by simp [written]⟩
  intro id r hr
  rcases List.mem_cons.mp hr with hr | hr
  · exact hr ▸ (Pending.Uniform.begin x id).trivial_close
  · have hu := (Pending.Uniform.begin x (id + 1)).withRight .eq y
    exact settle_plain_pair hu.left joint joint' (fun _ => hu) joints r hr

/-- Every pattern that is not aligned has a losing chain. -/
theorem exists_losing (x y : Term) : ∀ joints : List Bool, joints.getLastD true = false →
    aligned 0 (segments joints) = false → ∃ links, Losing x y joints links
  | [], hl, _ => by simp at hl
  | [true], hl, _ => by simp at hl
  | [false], _, ha => by simp [segments, aligned] at ha
  | false :: false :: joints, hl, ha => by
    rw [aligned_single_single] at ha
    have hne : joints ≠ [] := by simpa using ha
    obtain ⟨joint, rest, rfl⟩ := List.exists_cons_of_ne_nil hne
    exact exists_losing_single_single x y hne (by simpa [List.getLastD_cons] using hl)
  | true :: false :: joints, hl, ha => by
    rw [aligned_joint_single] at ha
    match joints, hl, ha with
    | [], _, ha => simp at ha
    | [false], _, ha => simp at ha
    | [true], hl, _ => simp at hl
    | joint :: joint' :: joints, _, _ => exact exists_losing_joint_single x y joint joint' joints
  | false :: true :: joints, hl, ha => by
    rw [aligned_single_joint] at ha
    rw [List.getLastD_cons, List.getLastD_cons] at hl
    obtain ⟨links, hp, ho, ht, hlost⟩ := exists_losing x y joints hl ha
    refine ⟨(.eq, .single x) :: (.eq, .joint x x) :: links, by simp [hp], by simp [ho], ?_,
      by simp [written, hlost]⟩
    intro id r hr
    rcases List.mem_cons.mp hr with hr | hr
    · exact hr ▸ (Pending.Uniform.between rfl).trivial_close
    · exact ht _ r hr
  | true :: true :: joints, hl, ha => by
    rw [aligned_joint_joint] at ha
    rw [List.getLastD_cons, List.getLastD_cons] at hl
    obtain ⟨links, hp, ho, ht, hlost⟩ := exists_losing x y joints hl ha
    refine ⟨(.eq, .joint x x) :: (.eq, .joint x x) :: links, by simp [hp], by simp [ho], ?_,
      by simp [written, hlost]⟩
    intro id r hr
    rcases List.mem_cons.mp hr with hr | hr
    · exact hr ▸ (Pending.Uniform.begin x id).trivial_close
    · rcases List.mem_cons.mp hr with hr | hr
      · exact hr ▸ (Pending.Uniform.begin x (id + 1)).trivial_close
      · exact ht _ r hr

end Chain

end LoopNest
