import LoopNest.Domain.Space

/-! # Rendering

A space is written for its text and for its constants: each constant is entered in a register when
it is first met. A register may serve several texts.
-/

namespace LoopNest

/-- Writing enters constants in a register. -/
abbrev Rendering := StateM (List String)

namespace Rendering

def enter (name : String) : Rendering Unit :=
  modify fun names => Names.insert names name

/-- What is written with a fresh register, and the register behind it. -/
def fresh {α : Type} (x : Rendering α) : α × List String :=
  Id.run (x.run [])

end Rendering

namespace Term

mutual

def render : Term → Rendering String
  | iterator name => return name
  | constant name => do
    Rendering.enter name
    return name
  | literal text => return text
  | apply function args => do
    let texts ← renderAll args
    return function ++ "(" ++ ", ".intercalate texts ++ ")"
  | arith left op right => do
    let l ← left.render
    let r ← right.render
    return group (groupsLeft op left) l ++ " " ++ op.symbol ++ " " ++ group (groupsRight op right) r

def renderAll : List Term → Rendering (List String)
  | [] => return []
  | t :: ts => do
    let text ← t.render
    return text :: (← renderAll ts)

end

mutual

/-- A term is rendered as its text, and its constants are entered from left to right. -/
theorem run_render (t : Term) (names : List String) :
    t.render.run names = pure (t.text, Names.union names t.constants) := by
  cases t with
  | iterator name => rfl
  | constant name => rfl
  | literal text => rfl
  | apply function args => simp [render, run_renderAll args, text, constants]
  | arith left op right =>
    simp [render, run_render left, run_render right, text, constants, Names.union_append]

theorem run_renderAll (ts : List Term) (names : List String) :
    (renderAll ts).run names = pure (textAll ts, Names.union names (constantsAll ts)) := by
  cases ts with
  | nil => rfl
  | cons t ts =>
    simp [renderAll, run_render t, run_renderAll ts, textAll, constantsAll, Names.union_append]

end

end Term

namespace Relation

/-- The middle term is written with the operator behind it. -/
def renderMiddle (r : Relation) : Rendering String :=
  match r.middle? with
  | some (mid, op) => do
    let text ← mid.render
    return text ++ " " ++ op.symbol ++ " "
  | none => return ""

def render (r : Relation) : Rendering String := do
  let left ← r.left.render
  let middle ← r.renderMiddle
  let right ← r.right.render
  return left ++ " " ++ r.leftOp.symbol ++ " " ++ middle ++ right

theorem run_render (r : Relation) (names : List String) :
    r.render.run names = pure (r.text, Names.union names r.writtenConstants) := by
  cases h : r.middle? <;>
    simp [render, renderMiddle, text, writtenConstants, writtenTerms, Term.constantsAll,
      Term.run_render, Names.union_append, h]

end Relation

namespace Space

/-- The relations are written behind the iterators, if there are any. -/
def renderRelations (s : Space) (form : Form) : Rendering String :=
  match s.relations with
  | [] => return ""
  | rs => do
    let texts ← rs.mapM Relation.render
    return form.opening ++ form.conjunction.intercalate texts

def render (s : Space) (form : Form) : Rendering String := do
  let relations ← s.renderRelations form
  return s.name ++ " = \x7b[" ++ ", ".intercalate s.iterators ++ "]" ++ relations ++ "\x7d"

/-- The constants met while a space is written. -/
def writtenConstants (s : Space) : List String :=
  (s.render .engine).fresh.2

def engineText (s : Space) : String :=
  (s.render .engine).fresh.1

def sourceText (s : Space) : String :=
  (s.render .source).fresh.1

theorem run_mapM_render (rs : List Relation) (names : List String) :
    (rs.mapM Relation.render).run names =
      pure (rs.map Relation.text, Names.union names (rs.flatMap Relation.writtenConstants)) := by
  induction rs generalizing names with
  | nil => rfl
  | cons r rs ih => simp [List.mapM_cons, Relation.run_render, ih, Names.union_append]

/-- Both forms of a space enter the constants of its relations in order. -/
theorem run_render (s : Space) (form : Form) (names : List String) :
    (s.render form).run names =
      pure (s.text form, Names.union names (s.relations.flatMap Relation.writtenConstants)) := by
  unfold render renderRelations text
  cases s.relations with
  | nil => rfl
  | cons r rs => simp only [StateT.run_bind, run_mapM_render, pure_bind, StateT.run_pure]

theorem fresh_render (s : Space) (form : Form) :
    (s.render form).fresh =
      (s.text form, Names.distinct (s.relations.flatMap Relation.writtenConstants)) :=
  congrArg Id.run (s.run_render form [])

theorem engineText_eq_text (s : Space) : s.engineText = s.text .engine :=
  congrArg Prod.fst (s.fresh_render .engine)

theorem sourceText_eq_text (s : Space) : s.sourceText = s.text .source :=
  congrArg Prod.fst (s.fresh_render .source)

theorem writtenConstants_eq_distinct (s : Space) :
    s.writtenConstants = Names.distinct (s.relations.flatMap Relation.writtenConstants) :=
  congrArg Prod.snd (s.fresh_render .engine)

theorem nodup_writtenConstants (s : Space) : s.writtenConstants.Nodup :=
  s.writtenConstants_eq_distinct ▸ Names.nodup_distinct _

end Space

end LoopNest
