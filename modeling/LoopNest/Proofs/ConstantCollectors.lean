import LoopNest.Domain.Rendering

/-!
# The two ways of collecting constants

The constants of a space are collected twice: a walk over its relations gives those that names are
resolved with, and rendering enters those that the signature of a unit declares. Each is compared with
the leaves of the relations, of which it keeps the names of constants, every one at its first
appearance. A middle term that lacks its operator is walked but not rendered, so the two agree where
none does.
-/

namespace LoopNest

namespace Term

mutual

/-- The leaves of a term from left to right. -/
def leaves : Term → List Term
  | iterator name => [iterator name]
  | constant name => [constant name]
  | literal text => [literal text]
  | apply _ args => leavesAll args
  | arith left _ right => left.leaves ++ right.leaves

def leavesAll : List Term → List Term
  | [] => []
  | t :: ts => t.leaves ++ leavesAll ts

end

def constantName? : Term → Option String
  | constant name => some name
  | _ => none

mutual

theorem filterMap_leaves (t : Term) : t.leaves.filterMap constantName? = t.constants := by
  cases t with
  | apply function args => rw [leaves, constants, filterMap_leavesAll args]
  | arith left op right =>
    rw [leaves, constants, List.filterMap_append, filterMap_leaves left, filterMap_leaves right]
  | _ => rfl

theorem filterMap_leavesAll (ts : List Term) :
    (leavesAll ts).filterMap constantName? = constantsAll ts := by
  cases ts with
  | nil => rfl
  | cons t ts =>
    rw [leavesAll, constantsAll, List.filterMap_append, filterMap_leaves t, filterMap_leavesAll ts]

end

end Term

namespace Space

/-- The leaves of a space: those of its relations in turn, and of their terms from left to right. -/
def leaves (s : Space) : List Term :=
  s.relations.flatMap fun r => Term.leavesAll r.terms

theorem filterMap_leaves (s : Space) :
    s.leaves.filterMap Term.constantName? =
      s.relations.flatMap fun r => Term.constantsAll r.terms := by
  rw [leaves, List.filterMap_flatMap]
  simp only [Term.filterMap_leavesAll]

/-- No relation has a middle term without an operator behind it, or such an operator alone. -/
def Whole (s : Space) : Prop :=
  ∀ r ∈ s.relations, r.mid.isSome = r.rightOp.isSome

theorem Whole.writtenConstants {s : Space} (h : s.Whole) :
    s.relations.flatMap Relation.writtenConstants =
      s.relations.flatMap fun r => Term.constantsAll r.terms := by
  rw [List.flatMap_def, List.flatMap_def]
  congr 1
  apply List.map_congr_left
  intro r hr
  rw [Relation.writtenConstants, Relation.writtenTerms_eq_terms (h r hr)]

/-- The walk collects the constants among the leaves. -/
theorem constants_eq_eraseDups (s : Space) :
    s.constants = (s.leaves.filterMap Term.constantName?).eraseDups := by
  rw [constants_eq_distinct, Names.distinct_eq_eraseDups, filterMap_leaves]

/-- Rendering a whole space enters the constants among the leaves. -/
theorem Whole.fresh_render {s : Space} (h : s.Whole) (form : Form) :
    (s.render form).fresh.2 = (s.leaves.filterMap Term.constantName?).eraseDups := by
  rw [Space.fresh_render, Names.distinct_eq_eraseDups, h.writtenConstants, filterMap_leaves]

/-- The walk and both renderings collect the same constants: those among the leaves of the space, each
at its first appearance. -/
theorem collectors_agree (s : Space)
    (h : ∀ r ∈ s.relations, r.mid.isSome = r.rightOp.isSome) :
    (s.render .engine).fresh.2 = (s.leaves.filterMap Term.constantName?).eraseDups ∧
      (s.render .source).fresh.2 = (s.leaves.filterMap Term.constantName?).eraseDups ∧
      s.constants = (s.leaves.filterMap Term.constantName?).eraseDups :=
  ⟨Whole.fresh_render h .engine, Whole.fresh_render h .source, s.constants_eq_eraseDups⟩

/-- In `0 <= i < f(N, M) && N <= M` the constants are collected in the order in which they are met,
and the second relation adds none. -/
theorem collectors_agree_repeated :
    let s : Space := ⟨"s", ["i"],
      [⟨0, .literal "0", .le, some (.iterator "i"), some .lt,
          .apply "f" [.constant "N", .constant "M"]⟩,
       ⟨1, .constant "N", .le, none, none, .constant "M"⟩]⟩
    (∀ r ∈ s.relations, r.mid.isSome = r.rightOp.isSome) ∧
      (s.render .engine).fresh.2 = ["N", "M"] ∧ (s.render .source).fresh.2 = ["N", "M"] ∧
      s.constants = ["N", "M"] := by
  intro s
  have hwhole : ∀ r ∈ s.relations, r.mid.isSome = r.rightOp.isSome := by decide
  have hleaves : (s.leaves.filterMap Term.constantName?).eraseDups = ["N", "M"] := by decide
  obtain ⟨hengine, hsource, hwalk⟩ := collectors_agree s hwhole
  rw [hleaves] at hengine hsource hwalk
  exact ⟨hwhole, hengine, hsource, hwalk⟩

end Space

end LoopNest
