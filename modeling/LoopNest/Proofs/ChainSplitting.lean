import LoopNest.Proofs.OpenRelations

/-!
# What a split chain leaves in a space

Splitting adds a relation as soon as it has a right term and adds it again whenever a later link
changes it, so the list of additions is longer than the list of relations that stay. Here the second
list is computed directly from the links, and the additions are shown to leave exactly it. The
pattern of a chain, which says for each link whether its comparand is a conjunction, decides whether
the split keeps every comparison that is written.
-/

namespace LoopNest.Chain

/-- Two terms and the operator between them, or two expressions. -/
abbrev Comparison (α : Type) := α × CompareOp × α

/-- A pending relation that has been added with its left operator and its right term. -/
def Pending.withRight (p : Pending) (op : CompareOp) (right : Term) : Pending :=
  { p with added := some (op, right) }

/-- The relation of a pending one that has been added. -/
def Pending.stored (p : Pending) : List Relation :=
  match p.added with
  | some (op, t) => [p.close op t]
  | none => []

/-- The relations that stay in a space once all links are read, the pending one first. -/
def settle (p : Pending) : List (CompareOp × Comparand) → List Relation
  | [] => p.stored
  | [(op, .single t)] => [extend p op t]
  | [(_, .joint _ _)] => p.stored
  | (op, c) :: (next, d) :: rest =>
    match c, d with
    | .single s, .single t =>
      settle ((p.between s next).withRight op t) rest
    | .single s, .joint close reopen =>
      (p.between s next).close op close :: settle (.begin (p.id + 1) reopen) rest
    | .joint close reopen, .single t =>
      p.close op close :: settle ((Pending.begin (p.id + 1) reopen).withRight next t) rest
    | .joint close reopen, .joint close' reopen' =>
      p.close op close :: (Pending.begin (p.id + 1) reopen).close next close' ::
        settle (.begin (p.id + 2) reopen') rest

end LoopNest.Chain

namespace LoopNest.Space

open Chain

/-- A relation whose identity the last one has takes the place of that one. -/
theorem addRelation_replace (s : Space) {base : List Relation} {old r : Relation}
    (hs : s.relations = base ++ [old]) (hid : old.id = r.id) :
    s.addRelation r = { s with relations := base ++ [r] } := by
  rw [addRelation, hs, Relation.replaceLast?_concat base hid, Option.getD_some]

theorem addRelation_append (s : Space) {r : Relation} (hb : ∀ b ∈ s.relations, b.id < r.id) :
    s.addRelation r = { s with relations := s.relations ++ [r] } := by
  have hn : r.replaceLast? s.relations = none :=
    Relation.replaceLast?_eq_none_iff.mpr fun b h => Nat.ne_of_lt (hb b h)
  rw [addRelation, hn, Option.getD_none]

/-- Whether or not the pending relation has been added, adding it leaves it as the last one. -/
theorem addRelation_pending (s : Space) {base : List Relation} {p : Pending} {r : Relation}
    (hs : s.relations = base ++ p.stored) (hb : ∀ b ∈ base, b.id < p.id) (hid : r.id = p.id) :
    s.addRelation r = { s with relations := base ++ [r] } := by
  cases ha : p.added with
  | none =>
    have hbase : s.relations = base := by simpa [Pending.stored, ha] using hs
    rw [addRelation_append s (by rw [hbase, hid]; exact hb), hbase]
  | some a =>
    have hold : s.relations = base ++ [p.close a.1 a.2] := by
      simpa [Pending.stored, ha] using hs
    exact addRelation_replace s hold hid.symm

end LoopNest.Space

namespace LoopNest.Chain

theorem append_close_lt {base : List Relation} {p : Pending} (hb : ∀ b ∈ base, b.id < p.id)
    (op : CompareOp) (t : Term) : ∀ b ∈ base ++ [p.close op t], b.id < p.id + 1 := by
  intro b h
  rcases List.mem_append.mp h with h | h
  · exact Nat.lt_succ_of_lt (hb b h)
  · rw [List.mem_singleton.mp h]
    exact Nat.lt_succ_self _

theorem split_pair_eq_some {p : Pending} {op next : CompareOp} {c d : Comparand}
    {rest : List (CompareOp × Comparand)} {rs : List Relation} {free : Nat}
    (h : split p ((op, c) :: (next, d) :: rest) = some (rs, free)) :
    ∃ others, split (second (first op next p c).2.2 (first op next p c).2.1 d).2 rest =
        some (others, free) ∧
      rs = (first op next p c).1 ++
        (second (first op next p c).2.2 (first op next p c).2.1 d).1 ++ others := by
  rw [split_pair] at h
  obtain ⟨⟨others, free'⟩, hrest, heq⟩ := Option.map_eq_some_iff.mp h
  cases heq
  exact ⟨others, hrest, rfl⟩

/-- The additions of a chain leave the settled relations behind those that were there. -/
theorem foldl_split {p : Pending} {links : List (CompareOp × Comparand)} {rs : List Relation}
    {free : Nat} (h : split p links = some (rs, free)) (s : Space) {base : List Relation}
    (hs : s.relations = base ++ p.stored) (hb : ∀ b ∈ base, b.id < p.id) :
    rs.foldl Space.addRelation s = { s with relations := base ++ settle p links } := by
  fun_induction settle p links generalizing rs free s base with
  | case1 p =>
    simp only [split] at h
    split at h
    · cases h
      simp [← hs]
    · cases h
  | case2 p op t =>
    simp only [split, Option.some.injEq, Prod.mk.injEq] at h
    obtain ⟨rfl, -⟩ := h
    have hid : (extend p op t).id = p.id := by
      unfold extend
      split <;> rfl
    exact s.addRelation_pending hs hb hid
  | case3 p => simp [split] at h
  | case4 p op next rest u t ih =>
    obtain ⟨others, hrest, rfl⟩ := split_pair_eq_some h
    simp only [first, second, List.cons_append, List.nil_append, List.foldl_cons] at hrest ⊢
    rw [s.addRelation_pending hs hb rfl, ih hrest _ rfl hb]
  | case5 p op next rest u close reopen ih =>
    obtain ⟨others, hrest, rfl⟩ := split_pair_eq_some h
    simp only [first, second, List.cons_append, List.nil_append, List.foldl_cons] at hrest ⊢
    rw [s.addRelation_pending hs hb rfl,
      ih hrest _ (List.append_nil _).symm (append_close_lt (p := p.between u next) hb op close)]
    simp
  | case6 p op next rest close reopen t ih =>
    obtain ⟨others, hrest, rfl⟩ := split_pair_eq_some h
    simp only [first, second, List.cons_append, List.nil_append, List.foldl_cons] at hrest ⊢
    have hlt := append_close_lt (p := p) hb op close
    rw [s.addRelation_pending hs hb rfl]
    rw [Space.addRelation_pending (p := .begin (p.id + 1) reopen) _ (List.append_nil _).symm hlt
      rfl, ih hrest _ rfl hlt]
    simp
  | case7 p op next rest close reopen close' reopen' ih =>
    obtain ⟨others, hrest, rfl⟩ := split_pair_eq_some h
    simp only [first, second, List.cons_append, List.nil_append, List.foldl_cons] at hrest ⊢
    have hlt := append_close_lt (p := p) hb op close
    rw [s.addRelation_pending hs hb rfl]
    rw [Space.addRelation_pending (p := .begin (p.id + 1) reopen) _ (List.append_nil _).symm hlt
      rfl, ih hrest _ (List.append_nil _).symm
        (append_close_lt (p := .begin (p.id + 1) reopen) hlt next close')]
    simp

/-- The settled relations are counted from the identity of the pending one up to the first that is
still free, and there is one of them at least. -/
theorem settle_ids {p : Pending} {links : List (CompareOp × Comparand)} {rs : List Relation}
    {free : Nat} (h : split p links = some (rs, free)) :
    ∃ n, (settle p links).map Relation.id = List.range' p.id (n + 1) ∧ free = p.id + (n + 1) := by
  fun_induction settle p links generalizing rs free with
  | case1 p =>
    simp only [split] at h
    split at h
    · next hadded =>
      cases h
      obtain ⟨a, ha⟩ := Option.isSome_iff_exists.mp hadded
      exact ⟨0, by simp [Pending.stored, ha, Pending.close], rfl⟩
    · cases h
  | case2 p op t =>
    simp only [split, Option.some.injEq, Prod.mk.injEq] at h
    obtain ⟨-, rfl⟩ := h
    have hid : (extend p op t).id = p.id := by
      unfold extend
      split <;> rfl
    exact ⟨0, by simp [hid], rfl⟩
  | case3 p => simp [split] at h
  | case4 p op next rest u t ih =>
    obtain ⟨others, hrest, -⟩ := split_pair_eq_some h
    exact ih hrest
  | case5 p op next rest u close reopen ih =>
    obtain ⟨others, hrest, -⟩ := split_pair_eq_some h
    obtain ⟨n, hids, rfl⟩ := ih hrest
    refine ⟨n + 1, ?_, Nat.add_right_comm ..⟩
    rw [List.map_cons, hids]
    rfl
  | case6 p op next rest close reopen t ih =>
    obtain ⟨others, hrest, -⟩ := split_pair_eq_some h
    obtain ⟨n, hids, rfl⟩ := ih hrest
    refine ⟨n + 1, ?_, Nat.add_right_comm ..⟩
    rw [List.map_cons, hids]
    rfl
  | case7 p op next rest close reopen close' reopen' ih =>
    obtain ⟨others, hrest, -⟩ := split_pair_eq_some h
    obtain ⟨n, hids, rfl⟩ := ih hrest
    refine ⟨n + 2, ?_, Nat.add_right_comm ..⟩
    rw [List.map_cons, List.map_cons, hids]
    rfl

/-- The identities of the settled relations lie between that of the pending one and the first that
is still free. -/
theorem settle_id_bounds {p : Pending} {links : List (CompareOp × Comparand)} {rs : List Relation}
    {free : Nat} (h : split p links = some (rs, free)) :
    p.id < free ∧ ∀ r ∈ settle p links, p.id ≤ r.id ∧ r.id < free := by
  obtain ⟨n, hids, rfl⟩ := settle_ids h
  refine ⟨Nat.lt_add_of_pos_right (Nat.succ_pos n), fun r hr => ?_⟩
  rw [← List.mem_range'_1, ← hids]
  exact List.mem_map_of_mem hr

/-! ### Patterns -/

def Comparand.isJoint : Comparand → Bool
  | single _ => false
  | joint _ _ => true

/-- For each link whether its comparand is a conjunction. -/
def pattern (links : List (CompareOp × Comparand)) : List Bool :=
  links.map (·.2.isJoint)

@[simp] theorem pattern_nil : pattern [] = [] := rfl

@[simp] theorem pattern_single (op : CompareOp) (t : Term) (links : List (CompareOp × Comparand)) :
    pattern ((op, .single t) :: links) = false :: pattern links := rfl

@[simp] theorem pattern_joint (op : CompareOp) (s t : Term) (links : List (CompareOp × Comparand)) :
    pattern ((op, .joint s t) :: links) = true :: pattern links := rfl

/-- A chain has relations unless a conjunction ends it; one without links has the relation that was
added before. -/
theorem split_isSome (p : Pending) (links : List (CompareOp × Comparand)) :
    (split p links).isSome = !(pattern links).getLastD p.added.isNone := by
  fun_induction settle p links with
  | case1 p => cases h : p.added <;> simp [split, h]
  | case2 p op t => simp [split]
  | case3 p op l r => simp [split]
  | case4 p op next rest u t ih =>
    rw [split_pair, Option.isSome_map, pattern_single, pattern_single, List.getLastD_cons,
      List.getLastD_cons]
    exact ih
  | case5 p op next rest u close reopen ih =>
    rw [split_pair, Option.isSome_map, pattern_single, pattern_joint, List.getLastD_cons,
      List.getLastD_cons]
    exact ih
  | case6 p op next rest close reopen t ih =>
    rw [split_pair, Option.isSome_map, pattern_joint, pattern_single, List.getLastD_cons,
      List.getLastD_cons]
    exact ih
  | case7 p op next rest close reopen close' reopen' ih =>
    rw [split_pair, Option.isSome_map, pattern_joint, pattern_joint, List.getLastD_cons,
      List.getLastD_cons]
    exact ih

end LoopNest.Chain
