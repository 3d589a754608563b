import LoopNest.Domain.Space

/-!
# What a space holds after any additions

A space is built by adding iterators and relations, in any order and with any repetitions. It holds
what an ordered map would: each name and each identity once, in the order in which they were first
added, and for each identity the relation that was added last.
-/

namespace LoopNest

/-- The members of a list, each once and in the order of their first places in it. -/
structure FirstsOf {α : Type} [DecidableEq α] (firsts all : List α) : Prop where
  nodup : firsts.Nodup
  mem_iff : ∀ a, a ∈ firsts ↔ a ∈ all
  ordered : firsts.Pairwise fun a b => all.idxOf a < all.idxOf b

namespace FirstsOf

variable {α : Type} [DecidableEq α] {firsts all : List α}

theorem nil : FirstsOf ([] : List α) [] :=
  ⟨List.nodup_nil, fun _ => Iff.rfl, List.Pairwise.nil⟩

/-- What is behind a list does not move the first places in it. -/
theorem ordered_append (h : FirstsOf firsts all) (more : List α) :
    firsts.Pairwise fun a b => (all ++ more).idxOf a < (all ++ more).idxOf b := by
  apply h.ordered.imp_of_mem
  intro a b ha hb hlt
  rw [List.idxOf_append, List.idxOf_append, if_pos ((h.mem_iff a).mp ha),
    if_pos ((h.mem_iff b).mp hb)]
  exact hlt

/-- One more member is kept unless it is there already. -/
theorem insert (h : FirstsOf firsts all) (a : α) :
    FirstsOf (if a ∈ firsts then firsts else firsts ++ [a]) (all ++ [a]) := by
  split
  · next ha =>
    apply FirstsOf.mk h.nodup _ (h.ordered_append [a])
    intro b
    rw [List.mem_append, List.mem_singleton, h.mem_iff b]
    constructor
    · exact Or.inl
    · rintro (hb | rfl)
      · exact hb
      · exact (h.mem_iff b).mp ha
  · next ha =>
    have hall : a ∉ all := fun hmem => ha ((h.mem_iff a).mpr hmem)
    constructor
    · rw [List.nodup_append]
      refine ⟨h.nodup, List.pairwise_singleton _ a, fun b hb c hc hbc => ?_⟩
      rw [List.mem_singleton] at hc
      exact ha (hc ▸ hbc ▸ hb)
    · intro b
      rw [List.mem_append, List.mem_append, h.mem_iff b]
    · rw [List.pairwise_append]
      refine ⟨h.ordered_append [a], List.pairwise_singleton _ a, fun b hb c hc => ?_⟩
      have hmem := (h.mem_iff b).mp hb
      rw [List.mem_singleton] at hc
      rw [hc, List.idxOf_append, List.idxOf_append, if_pos hmem, if_neg hall]
      exact Nat.lt_of_lt_of_le (List.idxOf_lt_length_of_mem hmem) (Nat.le_add_left ..)

end FirstsOf

namespace Space

/-- What can be added to a space. -/
inductive Addition where
  | iterator (name : String)
  | relation (r : Relation)

namespace Addition

/-- The name of an added iterator. -/
def iterator? : Addition → Option String
  | iterator name => some name
  | relation _ => none

/-- The identity of an added relation. -/
def id? : Addition → Option Nat
  | iterator _ => none
  | relation r => some r.id

/-- A relation that was added, after which no other was added with its identity. -/
def Last (adds : List Addition) (r : Relation) : Prop :=
  ∃ before after, adds = before ++ relation r :: after ∧
    ∀ later, relation later ∈ after → later.id ≠ r.id

variable {adds : List Addition} {r : Relation}

/-- One more addition is the last one with its identity, and it does not matter to the others. -/
theorem last_concat {a : Addition} :
    Last (adds ++ [a]) r ↔
      a = relation r ∨ Last adds r ∧ ∀ new, a = relation new → new.id ≠ r.id := by
  constructor
  · rintro ⟨before, after, hadds, hafter⟩
    rcases List.eq_nil_or_concat after with rfl | ⟨after, last, rfl⟩
    · cases (List.append_inj' hadds rfl).2
      exact .inl rfl
    · rw [List.concat_eq_append] at hadds hafter
      rw [← List.cons_append, ← List.append_assoc] at hadds
      obtain ⟨hbefore, hlast⟩ := List.append_inj' hadds rfl
      cases hlast
      refine .inr ⟨⟨before, after, hbefore, fun later hlater => ?_⟩, ?_⟩
      · exact hafter later (List.mem_append_left _ hlater)
      · rintro new rfl
        exact hafter new (by simp)
  · rintro (rfl | ⟨⟨before, after, rfl, hafter⟩, hne⟩)
    · exact ⟨adds, [], rfl, by simp⟩
    · refine ⟨before, after ++ [a], by simp, fun later hlater => ?_⟩
      rcases List.mem_append.mp hlater with hold | hnew
      · exact hafter later hold
      · exact hne later (List.mem_singleton.mp hnew).symm

end Addition

def add (s : Space) : Addition → Space
  | .iterator name => s.addIterator name
  | .relation r => s.addRelation r

/-- A space holds what was added to it, as an ordered map does. -/
structure Records (adds : List Addition) (s : Space) : Prop where
  ids : FirstsOf (s.relations.map Relation.id) (adds.filterMap Addition.id?)
  latest : ∀ r, r ∈ s.relations ↔ Addition.Last adds r
  iterators : FirstsOf s.iterators (adds.filterMap Addition.iterator?)

variable {s : Space} {r : Relation}

/-- An identity that is known keeps its place, and another one comes behind all. -/
theorem map_id_addRelation (s : Space) (r : Relation) :
    (s.addRelation r).relations.map Relation.id =
      if r.id ∈ s.relations.map Relation.id then s.relations.map Relation.id
      else s.relations.map Relation.id ++ [r.id] := by
  rw [addRelation]
  cases hplace : r.replaceLast? s.relations with
  | none =>
    have hnew : r.id ∉ s.relations.map Relation.id := by
      intro hmem
      obtain ⟨old, hold, hid⟩ := List.mem_map.mp hmem
      exact Relation.replaceLast?_eq_none_iff.mp hplace old hold hid
    rw [if_neg hnew]
    exact List.map_append
  | some rs =>
    obtain ⟨before, old, after, hs, rfl, hid, -⟩ := Relation.exists_of_replaceLast? hplace
    rw [if_pos (by simp [hs, hid])]
    simp [hs, hid]

/-- Where identities are told apart, a relation takes the place of the one that has its identity. -/
theorem mem_addRelation (h : (s.relations.map Relation.id).Nodup) {x : Relation} :
    x ∈ (s.addRelation r).relations ↔ x = r ∨ x ∈ s.relations ∧ x.id ≠ r.id := by
  rw [addRelation]
  cases hplace : r.replaceLast? s.relations with
  | none =>
    have hne := Relation.replaceLast?_eq_none_iff.mp hplace
    simp only [Option.getD_none, List.mem_append, List.mem_singleton]
    constructor
    · rintro (hx | hx)
      · exact .inr ⟨hx, hne x hx⟩
      · exact .inl hx
    · rintro (hx | ⟨hx, -⟩)
      · exact .inr hx
      · exact .inl hx
  | some rs =>
    obtain ⟨before, old, after, hs, rfl, hid, hafter⟩ := Relation.exists_of_replaceLast? hplace
    -- The last one with the identity is the only one.
    have hbefore : ∀ b ∈ before, b.id ≠ r.id := by
      intro b hb
      rw [hs, List.map_append, List.nodup_append] at h
      rw [← hid]
      exact h.2.2 b.id (List.mem_map_of_mem hb) old.id (by simp)
    simp only [hs, Option.getD_some, List.mem_append, List.mem_cons]
    constructor
    · rintro (hx | hx | hx)
      · exact .inr ⟨.inl hx, hbefore x hx⟩
      · exact .inl hx
      · exact .inr ⟨.inr (.inr hx), hafter x hx⟩
    · rintro (hx | ⟨hx | rfl | hx, hne⟩)
      · exact .inr (.inl hx)
      · exact .inl hx
      · exact absurd hid hne
      · exact .inr (.inr hx)

theorem Records.named (name : String) : Records [] (named name) :=
  ⟨.nil, by simp [Space.named, Addition.Last], .nil⟩

/-- One addition to a space is recorded with those before it. -/
theorem Records.add {adds : List Addition} (h : Records adds s) (a : Addition) :
    Records (adds ++ [a]) (s.add a) := by
  cases a with
  | iterator name =>
    constructor
    · rw [List.filterMap_append]
      exact (List.append_nil _).symm ▸ h.ids
    · intro r
      rw [Addition.last_concat, ← h.latest r]
      simp [Space.add, addIterator]
    · rw [List.filterMap_append]
      exact h.iterators.insert name
  | relation r =>
    constructor
    · rw [List.filterMap_append, Space.add, map_id_addRelation]
      exact h.ids.insert r.id
    · intro x
      rw [Addition.last_concat, ← h.latest x, Space.add, mem_addRelation h.ids.nodup]
      simp [eq_comm]
    · rw [List.filterMap_append]
      exact (List.append_nil _).symm ▸ h.iterators

theorem Records.foldl {before : List Addition} (h : Records before s) (adds : List Addition) :
    Records (before ++ adds) (adds.foldl Space.add s) := by
  induction adds generalizing s before with
  | nil => rwa [List.append_nil]
  | cons a adds ih =>
    have hrest := ih (h.add a)
    rwa [List.append_assoc] at hrest

theorem name_foldl_add (s : Space) (adds : List Addition) :
    (adds.foldl add s).name = s.name := by
  induction adds generalizing s with
  | nil => rfl
  | cons a adds ih =>
    rw [List.foldl_cons, ih]
    cases a <;> rfl

/-- After any additions to a space that has a name only, it has that name and holds each identity and
each iterator once, in the order of the first additions, with the relations that were added last. -/
theorem additions_recorded (name : String) (adds : List Addition) :
    (adds.foldl add (named name)).name = name ∧ Records adds (adds.foldl add (named name)) :=
  ⟨name_foldl_add _ adds, (Records.named name).foldl adds⟩

end Space

end LoopNest
