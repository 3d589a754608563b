import LoopNest.Proofs.FieldMentions
import LoopNest.Proofs.LoweredSpaces
import LoopNest.Computation
import Mathlib.Data.List.Forall2

/-!
# Reading programs without state

A program that is lowered falls into groups of a header and the statements behind it. Each group is
one computation: the header describes the space, with relations counted on from the groups before,
and the fields are those that the statements mention.
-/

namespace LoopNest

namespace Computation

/-- The statements of a program are the loose ones and the groups behind them. -/
theorem group_eq (stmts : List Stmt) :
    (group stmts).1 ++ (group stmts).2.flatMap (fun g => g.1 :: g.2) = stmts := by
  induction stmts with
  | nil => rfl
  | cons s rest ih =>
    unfold group
    dsimp only
    split
    · simpa using ih
    · simpa using ih

/-- A group is a header with the statements up to the next one. -/
theorem isHeader_group (stmts : List Stmt) :
    (∀ s ∈ (group stmts).1, s.isHeader = false) ∧
      ∀ g ∈ (group stmts).2, g.1.isHeader ∧ ∀ s ∈ g.2, s.isHeader = false := by
  induction stmts with
  | nil => simp [group]
  | cons s rest ih =>
    unfold group
    dsimp only
    split
    · next h => exact ⟨by simp, List.forall_mem_cons.mpr ⟨⟨h, ih.1⟩, ih.2⟩⟩
    · next h => exact ⟨List.forall_mem_cons.mpr ⟨by simpa using h, ih.1⟩, ih.2⟩

/-- The computation of a space and a body with at least one field. -/
def of? (space : Space) (body : List Stmt) : Option Computation :=
  let fields := Fields.grouped (body.flatMap (Stmt.mentions space.scope))
  if body.all Stmt.readable && !fields.isEmpty then some ⟨space, body, fields⟩ else none

theorem of?_eq_some_iff {space : Space} {body : List Stmt} {c : Computation} :
    of? space body = some c ↔ Fields.ofBody space body = .ok c.fields ∧ c.fields ≠ [] ∧
      c.space = space ∧ c.body = body := by
  obtain ⟨space', body', fields⟩ := c
  rw [Fields.ofBody_eq_ok_iff, Fields.after_eq_grouped]
  unfold of?
  dsimp only
  split
  · next h =>
    obtain ⟨hreadable, hne⟩ := Bool.and_eq_true_iff.mp h
    simp only [Option.some.injEq, mk.injEq, hreadable, true_and]
    constructor
    · rintro ⟨rfl, rfl, rfl⟩
      exact ⟨rfl, by simpa using hne, rfl, rfl⟩
    · rintro ⟨rfl, -, rfl, rfl⟩
      exact ⟨rfl, rfl, rfl⟩
  · next h =>
    constructor
    · intro h
      cases h
    · rintro ⟨⟨hreadable, rfl⟩, hne, rfl, rfl⟩
      exact absurd (by simp [hreadable, hne]) h

/-- The computations of groups whose relations are counted from an identity, and the first identity
that is free behind them. -/
def ofGroups? (id : Nat) : List (Stmt × List Stmt) → Option (List Computation × Nat)
  | [] => some ([], id)
  | (header, body) :: groups => do
    let (space, next) ← header.spaceFrom? id
    let c ← of? space body
    let (cs, free) ← ofGroups? next groups
    return (c :: cs, free)

theorem ofGroups?_cons_eq_some_iff {id free : Nat} {header : Stmt} {body : List Stmt}
    {groups : List (Stmt × List Stmt)} {cs : List Computation} :
    ofGroups? id ((header, body) :: groups) = some (cs, free) ↔
      ∃ space next c rest, header.spaceFrom? id = some (space, next) ∧ of? space body = some c ∧
        ofGroups? next groups = some (rest, free) ∧ cs = c :: rest := by
  simp only [ofGroups?, Option.bind_eq_bind, Option.bind_eq_some_iff, Option.pure_def,
    Option.some.injEq, Prod.mk.injEq]
  constructor
  · rintro ⟨⟨space, next⟩, hspace, c, hc, ⟨rest, _⟩, hrest, rfl, rfl⟩
    exact ⟨space, next, c, rest, hspace, hc, hrest, rfl⟩
  · rintro ⟨space, next, c, rest, hspace, hc, hrest, rfl⟩
    exact ⟨_, hspace, c, hc, _, hrest, rfl, rfl⟩

theorem complete_cons_eq_ok_iff {space : Space} {body : List Stmt}
    {rest : List (Space × List Stmt)} {cs : List Computation} :
    complete ((space, body) :: rest) = .ok cs ↔
      ∃ c more, of? space body = some c ∧ complete rest = .ok more ∧ cs = c :: more := by
  simp only [of?_eq_some_iff]
  rw [complete]
  cases hfields : Fields.ofBody space body with
  | error e => simp [bind, Except.bind]
  | ok fields =>
    by_cases hempty : fields.isEmpty
    · have hnil : fields = [] := by simpa using hempty
      constructor
      · intro h
        simp [bind, Except.bind, hnil, throw, throwThe, MonadExceptOf.throw] at h
      · rintro ⟨c, more, ⟨hc, hne, -⟩, -⟩
        cases hc
        exact absurd hnil hne
    · have hne : fields ≠ [] := by simpa using hempty
      cases hrest : complete rest with
      | error e => simp [bind, Except.bind, hempty]
      | ok more =>
        simp only [bind, Except.bind, pure, Except.pure, hempty, Bool.false_eq_true, if_false,
          Except.ok.injEq]
        constructor
        · rintro rfl
          exact ⟨_, more, ⟨rfl, hne, rfl, rfl⟩, rfl, rfl⟩
        · rintro ⟨⟨_, _, _⟩, more, ⟨rfl, -, rfl, rfl⟩, rfl, rfl⟩
          rfl

/-- Reading the headers of groups and then the fields of their bodies gives the computations of the
groups. -/
theorem spaces_complete_iff {groups : List (Stmt × List Stmt)} {d : Draft} {cs : List Computation}
    {free : Nat} :
    (∃ ss d', spaces groups d = .ok ss d' ∧ d'.nextId = free ∧ complete ss = .ok cs) ↔
      ofGroups? d.nextId groups = some (cs, free) := by
  induction groups generalizing d cs with
  | nil =>
    constructor
    · rintro ⟨ss, d', hspaces, rfl, hcomplete⟩
      obtain ⟨rfl, rfl⟩ := Lowering.pure_eq_ok.mp hspaces
      cases hcomplete
      rfl
    · intro h
      cases h
      exact ⟨[], d, rfl, rfl, rfl⟩
  | cons g groups ih =>
    obtain ⟨header, body⟩ := g
    rw [ofGroups?_cons_eq_some_iff]
    constructor
    · rintro ⟨ss, d', hspaces, hfree, hcomplete⟩
      obtain ⟨space, d₁, hheader, hrest⟩ := Lowering.bind_eq_ok.mp hspaces
      obtain ⟨more, d₂, hmore, hpure⟩ := Lowering.bind_eq_ok.mp hrest
      obtain ⟨rfl, rfl⟩ := Lowering.pure_eq_ok.mp hpure
      obtain ⟨c, rest, hc, hrest, rfl⟩ := complete_cons_eq_ok_iff.mp hcomplete
      have hspace := (Lowering.header_eq_ok_iff header space d d₁.nextId).mp ⟨d₁, hheader, rfl⟩
      exact ⟨space, _, c, rest, hspace, hc, ih.mp ⟨more, d₂, hmore, hfree, hrest⟩, rfl⟩
    · rintro ⟨space, next, c, rest, hspace, hc, hrest, rfl⟩
      obtain ⟨d₁, hheader, rfl⟩ := (Lowering.header_eq_ok_iff header space d next).mpr hspace
      obtain ⟨more, d₂, hmore, hfree, hcomplete⟩ := ih.mpr hrest
      refine ⟨(space, body) :: more, d₂, ?_, hfree, complete_cons_eq_ok_iff.mpr
        ⟨c, rest, hc, hcomplete, rfl⟩⟩
      exact Lowering.bind_eq_ok.mpr ⟨space, d₁, hheader, Lowering.bind_eq_ok.mpr
        ⟨more, d₂, hmore, Lowering.pure_eq_ok.mpr ⟨rfl, rfl⟩⟩⟩

theorem liftExcept_eq_ok {α : Type} {x : Except CompileError α} {a : α} {d d' : Draft} :
    Lowering.liftExcept x d = .ok a d' ↔ x = .ok a ∧ d = d' := by
  cases x <;> simp [Lowering.liftExcept]

/-- Statements are lowered exactly if they fall into groups, each of which is a computation. -/
theorem ofStmts_eq_ok_iff {stmts : List Stmt} {d : Draft} {cs : List Computation} :
    (∃ d', ofStmts stmts d = .ok cs d') ↔ ∃ groups free, group stmts = ([], groups) ∧
      groups ≠ [] ∧ ofGroups? d.nextId groups = some (cs, free) := by
  unfold ofStmts
  rcases hgroup : group stmts with ⟨_ | ⟨s, loose⟩, _ | ⟨g, groups⟩⟩
  · simp
  · simp only [Prod.mk.injEq, true_and]
    constructor
    · rintro ⟨d', h⟩
      obtain ⟨ss, d₁, hspaces, h⟩ := Lowering.bind_eq_ok.mp h
      obtain ⟨hcomplete, rfl⟩ := liftExcept_eq_ok.mp h
      exact ⟨_, d₁.nextId, rfl, by simp, spaces_complete_iff.mp ⟨ss, d₁, hspaces, rfl, hcomplete⟩⟩
    · rintro ⟨_, free, rfl, -, h⟩
      obtain ⟨ss, d', hspaces, -, hcomplete⟩ := spaces_complete_iff.mpr h
      exact ⟨d', Lowering.bind_eq_ok.mpr ⟨ss, d', hspaces, liftExcept_eq_ok.mpr ⟨hcomplete, rfl⟩⟩⟩
  · simp
  · simp

end Computation

/-- A text is lowered exactly if it is a program of groups, each of which is a computation. -/
theorem lower_eq_ok_iff {source : String} {cs : List Computation} :
    (lower source).result = .ok cs ↔ ∃ p groups free, Program.parse source = .ok p ∧
      Computation.group p.body = ([], groups) ∧ groups ≠ [] ∧
      Computation.ofGroups? 0 groups = some (cs, free) := by
  have hlower : (lower source).result = .ok cs ↔ ∃ p d, Program.parse source = .ok p ∧
      Computation.ofStmts p.body Draft.empty = .ok cs d := by
    unfold lower EStateM.run
    cases Program.parse source with
    | error e => simp
    | ok p => cases h : Computation.ofStmts p.body Draft.empty <;> simp [h]
  rw [hlower]
  constructor
  · rintro ⟨p, d, hp, h⟩
    obtain ⟨groups, free, hgroup, hne, hof⟩ := Computation.ofStmts_eq_ok_iff.mp ⟨d, h⟩
    exact ⟨p, groups, free, hp, hgroup, hne, hof⟩
  · rintro ⟨p, groups, free, hp, hgroup, hne, hof⟩
    obtain ⟨d, h⟩ := (Computation.ofStmts_eq_ok_iff (d := .empty)).mpr
      ⟨groups, free, hgroup, hne, hof⟩
    exact ⟨p, d, hp, h⟩

/-- What a computation has from a header and the statements behind it. -/
structure Computation.ReadOff (group : Stmt × List Stmt) (c : Computation) : Prop where
  header : ∃ id free, group.1.spaceFrom? id = some (c.space, free)
  body : c.body = group.2
  fields : Fields.ofBody c.space c.body = .ok c.fields
  fields_ne_nil : c.fields ≠ []

theorem Computation.forall₂_readOff {groups : List (Stmt × List Stmt)} {cs : List Computation}
    {id free : Nat} (h : ofGroups? id groups = some (cs, free)) :
    List.Forall₂ ReadOff groups cs := by
  induction groups generalizing id cs with
  | nil =>
    cases h
    exact .nil
  | cons g groups ih =>
    obtain ⟨header, body⟩ := g
    obtain ⟨space, next, c, rest, hspace, hc, hrest, rfl⟩ := ofGroups?_cons_eq_some_iff.mp h
    obtain ⟨hfields, hne, rfl, rfl⟩ := of?_eq_some_iff.mp hc
    exact .cons ⟨⟨id, next, hspace⟩, rfl, hfields, hne⟩ (ih hrest)

/-- What each computation of a lowered text comes from. -/
structure Computation.ReadFrom (p : Program) (c : Computation) : Prop where
  header : ∃ s ∈ p.body, ∃ id free, s.spaceFrom? id = some (c.space, free)
  body : ∀ s ∈ c.body, s ∈ p.body
  fields : Fields.ofBody c.space c.body = .ok c.fields
  fields_ne_nil : c.fields ≠ []

theorem Computation.readFrom_of_ofGroups? {p : Program} {groups : List (Stmt × List Stmt)}
    {cs : List Computation} {id free : Nat} (hgroups : ∀ g ∈ groups, ∀ s ∈ g.1 :: g.2, s ∈ p.body)
    (h : ofGroups? id groups = some (cs, free)) : ∀ c ∈ cs, c.ReadFrom p := by
  have hall := forall₂_readOff h
  clear h
  induction hall with
  | nil => simp
  | cons hc _ ih =>
    obtain ⟨hg, hgs⟩ := List.forall_mem_cons.mp hgroups
    obtain ⟨hheader, hbody⟩ := List.forall_mem_cons.mp hg
    refine List.forall_mem_cons.mpr ⟨⟨⟨_, hheader, hc.header⟩, ?_, hc.fields, hc.fields_ne_nil⟩,
      ih hgs⟩
    rw [hc.body]
    exact hbody

theorem Computation.exists_readFrom {source : String} {cs : List Computation}
    (h : (lower source).result = .ok cs) :
    ∃ p, Program.parse source = .ok p ∧ ∀ c ∈ cs, c.ReadFrom p := by
  obtain ⟨p, groups, free, hp, hgroup, -, hof⟩ := lower_eq_ok_iff.mp h
  refine ⟨p, hp, readFrom_of_ofGroups? ?_ hof⟩
  intro g hg s hs
  rw [← group_eq p.body, hgroup]
  exact List.mem_append_right _ (List.mem_flatMap.mpr ⟨g, hg, hs⟩)

end LoopNest
