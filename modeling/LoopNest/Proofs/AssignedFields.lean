import LoopNest.Proofs.ComputationReading
import LoopNest.Proofs.ScalarFields

/-!
# What a body assigns to

The target of an assignment is a name or a subscript of a name. A bare name that is an iterator or a
constant of the space is no field, and assigning to it leaves no trace among the fields. Every other
target is an access that writes, so the function gets its field as a pointer that is not constant.
This includes subscripts of iterators and of constants.
-/

namespace LoopNest

open Grammar

/-- Whether a statement is an assignment, augmented or not. -/
def Stmt.assigns : Stmt → Bool
  | .eval .. => false
  | _ => true

/-- The name that an assignment to an expression is about. -/
def Expr.assigned? : Expr → Option String
  | .name _ text => some text
  | .subscript _ base _ => base.name?
  | _ => none

/-! ### Targets of programs -/

theorem Grammar.Targets.assignable {ws : List Word} {targets : List Expr}
    (h : Targets ws targets) : ∀ e ∈ targets, Assignable e := by
  induction h with
  | nil => simp
  | cons s _ ha _ ih => exact List.forall_mem_cons.mpr ⟨ha, ih⟩

theorem Grammar.Statement.assignable {ws : List Word} {s : Stmt} (h : Statement ws s) :
    ∀ e ∈ s.target?, Assignable e := by
  cases h with
  | eval => simp [Stmt.target?]
  | @assign _ _ target _ targets left =>
    intro e he
    cases targets with
    | nil =>
      cases he
      exact left.assignable _ List.mem_cons_self
    | cons => cases he
  | augment _ _ ha =>
    intro e he
    cases he
    exact ha

theorem Grammar.Body.assignable {ws : List Word} {ss : List Stmt} (h : Body ws ss) :
    ∀ s ∈ ss, ∀ e ∈ s.target?, Assignable e := by
  induction h with
  | nil => simp
  | skip _ _ _ ih => exact ih
  | last h => simpa using h.assignable
  | cons _ head _ _ ih => exact List.forall_mem_cons.mpr ⟨head.assignable, ih⟩

theorem Stmt.target?_bare (s : Stmt) : s.bare.target? = s.target?.map Expr.bare := by
  cases s with
  | assign span targets value => rcases targets with _ | ⟨e, _ | _⟩ <;> rfl
  | _ => rfl

theorem Stmt.target?_cases {s : Stmt} {target : Expr} (h : s.target? = some target) :
    (∃ span value, s = .assign span [target] value) ∨
      ∃ span op value, s = .augment span target op value := by
  cases s with
  | assign span targets value =>
    rcases targets with _ | ⟨e, _ | _⟩
    · cases h
    · cases h
      exact .inl ⟨span, value, rfl⟩
    · cases h
  | augment span e op value =>
    cases h
    exact .inr ⟨span, op, value, rfl⟩
  | eval => cases h

/-- An assignment whose fields can be read has one target. -/
theorem Stmt.exists_target? {s : Stmt} (ha : s.assigns) (h : s.readable) :
    ∃ target, s.target? = some target := by
  cases s with
  | assign span targets value =>
    rcases targets with _ | ⟨e, _ | _⟩
    · cases h
    · exact ⟨e, rfl⟩
    · cases h
  | augment span e op value => exact ⟨e, rfl⟩
  | eval => cases ha

theorem Stmt.readable_target {s : Stmt} {target : Expr} (ht : s.target? = some target)
    (h : s.readable) : target.form ≠ .tuple ∧ target.readable false := by
  rcases target?_cases ht with ⟨span, value, rfl⟩ | ⟨span, op, value, rfl⟩ <;>
    simp_all [readable]

theorem Stmt.mentions_target {scope : Scope} {s : Stmt} {target : Expr}
    (ht : s.target? = some target) {m : Mention} (hm : m ∈ target.mentions scope true) :
    m ∈ s.mentions scope := by
  rcases target?_cases ht with ⟨span, value, rfl⟩ | ⟨span, op, value, rfl⟩ <;>
    exact List.mem_append_left _ hm

/-- Every assignment of a program whose fields can be read is about a name. -/
theorem Program.exists_assigned? {source : String} {p : Program}
    (hp : Program.parse source = .ok p) {s : Stmt} (hs : s ∈ p.body) {target : Expr}
    (ht : s.target? = some target) (hreadable : s.readable) :
    ∃ name, target.assigned? = some name := by
  obtain ⟨ts, stop, -, -, hbody⟩ := Program.exists_body_of_parse hp
  have hbare : s.bare.target? = some target.bare := by rw [s.target?_bare, ht, Option.map_some]
  have hassignable := hbody.assignable s.bare (List.mem_map_of_mem hs) target.bare hbare
  obtain ⟨hne, hread⟩ := Stmt.readable_target ht hreadable
  cases target with
  | name span text => exact ⟨text, rfl⟩
  | subscript span base index =>
    rw [Expr.readable_subscript, Bool.and_eq_true] at hread
    exact Option.isSome_iff_exists.mp hread.1
  | tuple => exact absurd rfl hne
  | _ =>
    rw [Expr.bare] at hassignable
    cases hassignable

/-! ### Fields that are written -/

/-- A target that is a subscript, or a bare name outside of the scope, is mentioned as written. -/
theorem Expr.exists_write {scope : Scope} {target : Expr} {name : String}
    (hname : target.assigned? = some name)
    (hscope : target.name? = some name → name ∉ scope.iterators ∧ name ∉ scope.constants) :
    ∃ index, Mention.access name ⟨index, true⟩ ∈ target.mentions scope true := by
  cases target with
  | name span text =>
    cases hname
    obtain ⟨hi, hc⟩ := hscope rfl
    exact ⟨[], by simp [mentions, hi, hc]⟩
  | subscript span base index =>
    refine ⟨valuesOf scope.iterators index.components, ?_⟩
    rw [mentions_subscript (show base.name? = some name from hname)]
    simp
  | _ => cases hname

theorem Fields.exists_of_access {ms : List Mention} {name : String} {a : Access}
    (h : .access name a ∈ ms) : ∃ f ∈ grouped ms, f.name = name ∧ a ∈ f.accesses := by
  refine ⟨⟨name, ms.filterMap (Mention.accessTo? name)⟩, mem_grouped.mpr ⟨?_, rfl⟩, rfl, ?_⟩
  · exact List.mem_map.mpr ⟨_, h, rfl⟩
  · exact List.mem_filterMap.mpr ⟨_, h, by simp [Mention.accessTo?]⟩

/-- A field that is written is passed as a pointer that is not constant. -/
theorem Field.parameter_of_write {f : Field} {a : Access} (ha : a ∈ f.accesses) (hw : a.isWrite)
    (config : Config) : f.parameter config = config.elemType ++ " *" ++ f.name := by
  have hread : f.isReadOnly = false := by
    apply Bool.eq_false_iff.mpr
    intro hall
    have := List.all_eq_true.mp hall a ha
    simp [hw] at this
  simp [parameter, hread]

/-! ### Names of the scope -/

/-- A name of the scope is used as a field by its subscripts only. -/
theorem Scope.field?_eq_some_iff_of_mem {scope : Scope} {name : String}
    (h : name ∈ scope.iterators ∨ name ∈ scope.constants) (e : Expr) :
    scope.field? e = some name ↔ e.subscripted? = some name := by
  rw [Scope.field?_eq_some_iff]
  constructor
  · rintro (hs | ⟨-, hi, hc⟩)
    · exact hs
    · exact absurd h (not_or.mpr ⟨hi, hc⟩)
  · exact .inl

theorem Expr.mentions_of_mem {scope : Scope} {target : Expr} {name : String}
    (hname : target.name? = some name) (h : name ∈ scope.iterators ∨ name ∈ scope.constants) :
    target.mentions scope true = [] := by
  cases target with
  | name span text =>
    cases hname
    simp [mentions, h]
  | _ => cases hname

/-- An assignment to a bare name of the scope. The name is mentioned as no field: there is a field of
that name only if the body has subscripts of it, and they make all its accesses. -/
structure Computation.AssignsNoField (c : Computation) (target : Expr) (name : String) : Prop where
  bare : target.name? = some name
  scope : name ∈ c.space.iterators ∨ name ∈ c.space.constants
  mentions : target.mentions c.space.scope true = []
  exists_field_iff : (∃ f ∈ c.fields, f.name = name) ↔ subscriptsOf name c.body ≠ []
  accesses : ∀ f ∈ c.fields, f.name = name →
    List.Forall₂ (Occurrence.Makes c.space.iterators)
      ((c.body.flatMap Stmt.occurrences).filter fun o => o.expr.subscripted? = some name) f.accesses

theorem Computation.assignsNoField {c : Computation} {target : Expr} {name : String}
    (hfields : Fields.ofBody c.space c.body = .ok c.fields) (hbare : target.name? = some name)
    (hscope : name ∈ c.space.iterators ∨ name ∈ c.space.constants) :
    c.AssignsNoField target name := by
  have huse (e : Expr) : c.space.scope.field? e = some name ↔ e.subscripted? = some name :=
    Scope.field?_eq_some_iff_of_mem hscope e
  refine ⟨hbare, hscope, Expr.mentions_of_mem hbare hscope, ?_, ?_⟩
  · rw [Fields.exists_field_iff hfields, ne_eq, List.eq_nil_iff_forall_not_mem, not_forall_not]
    simp only [subscriptsOf, List.mem_filter, decide_eq_true_eq, huse]
  · rintro f hf rfl
    have hmakes := Fields.forall₂_makes hfields hf
    simpa only [huse] using hmakes

/-- Every assignment is to a bare iterator or constant of the space and makes no field, or to a field
that is written and passed as a pointer that is not constant; a bare name of the second kind is
neither an iterator nor a constant. -/
theorem Computation.target_in_scope_or_written {source : String} {cs : List Computation}
    {c : Computation} {s : Stmt} (h : (lower source).result = .ok cs) (hc : c ∈ cs)
    (hs : s ∈ c.body) (ha : s.assigns) :
    ∃ target name, s.target? = some target ∧ target.assigned? = some name ∧
      (c.AssignsNoField target name ∨
        (target.name? = some name → name ∉ c.space.iterators ∧ name ∉ c.space.constants) ∧
        ∃ f ∈ c.fields, f.name = name ∧ (∃ a ∈ f.accesses, a.isWrite) ∧
          ∀ config : Config, f.parameter config = config.elemType ++ " *" ++ name) := by
  obtain ⟨p, hp, hread⟩ := exists_readFrom h
  obtain ⟨-, hbody, hfields, -⟩ := hread c hc
  have hmentions := hfields
  rw [Fields.ofBody_eq_ok_iff, Fields.after_eq_grouped] at hmentions
  obtain ⟨hreadable, hgrouped⟩ := hmentions
  have hstmt : s.readable := List.all_eq_true.mp hreadable s hs
  obtain ⟨target, ht⟩ := Stmt.exists_target? ha hstmt
  obtain ⟨name, hname⟩ := Program.exists_assigned? hp (hbody s hs) ht hstmt
  refine ⟨target, name, ht, hname, ?_⟩
  by_cases hscope : target.name? = some name ∧
      (name ∈ c.space.iterators ∨ name ∈ c.space.constants)
  · exact .inl (assignsNoField hfields hscope.1 hscope.2)
  · have hout : target.name? = some name →
        name ∉ c.space.scope.iterators ∧ name ∉ c.space.scope.constants := by
      intro hbare
      exact not_or.mp fun hmem => hscope ⟨hbare, hmem⟩
    obtain ⟨index, hwrite⟩ := Expr.exists_write hname hout
    have hmention := List.mem_flatMap.mpr ⟨s, hs, Stmt.mentions_target ht hwrite⟩
    obtain ⟨f, hf, hfname, ha⟩ := Fields.exists_of_access hmention
    rw [← hgrouped] at hf
    refine .inr ⟨hout, f, hf, hfname, ⟨_, ha, rfl⟩, ?_⟩
    intro config
    rw [Field.parameter_of_write ha rfl, hfname]

/-- A body that assigns to a field, to a scalar and to a constant of the space. -/
def assigningSource : String :=
  "s = \x7b[i]: 0 <= i < N\x7d\nN = 1\ny[i] = 2\nt += y[N]"

theorem Computation.target_in_scope_or_written_scalar :
    ∃ cs c s, (lower assigningSource).result = .ok cs ∧ c ∈ cs ∧ s ∈ c.body ∧ s.assigns ∧
      s.target?.any (fun target => target.name? = some "t") ∧
      ∃ target name, s.target? = some target ∧ target.assigned? = some name ∧
        (c.AssignsNoField target name ∨
          (target.name? = some name → name ∉ c.space.iterators ∧ name ∉ c.space.constants) ∧
          ∃ f ∈ c.fields, f.name = name ∧ (∃ a ∈ f.accesses, a.isWrite) ∧
            ∀ config : Config, f.parameter config = config.elemType ++ " *" ++ name) := by
  have hread : (lower assigningSource).result.toOption.any fun cs => cs.any fun c =>
      c.body.any fun s => s.assigns && s.target?.any (fun target => target.name? = some "t") := by
    decide +kernel
  obtain ⟨cs, h, hcs⟩ := exists_ok_of_any hread
  obtain ⟨c, hc, hbody⟩ := List.any_eq_true.mp hcs
  obtain ⟨s, hs, hcheck⟩ := List.any_eq_true.mp hbody
  obtain ⟨ha, ht⟩ := Bool.and_eq_true_iff.mp hcheck
  exact ⟨cs, c, s, h, hc, hs, ha, ht, target_in_scope_or_written h hc hs ha⟩

/-- A body that assigns to a subscript of a constant of the space. -/
def subscriptedSource : String :=
  "s = \x7b[i]: 0 <= i < N\x7d\nN[i] = 1"

theorem Computation.exists_assigned_of_any (source name : String) (P : Computation → Bool)
    (h : (lower source).result.toOption.any fun cs => cs.any fun c => c.body.any fun s =>
      s.target?.any (fun target => target.assigned? = some name) && P c) :
    ∃ cs c s, (lower source).result = .ok cs ∧ c ∈ cs ∧ s ∈ c.body ∧
      s.target?.any (fun target => target.assigned? = some name) ∧ P c := by
  obtain ⟨cs, h, hcs⟩ := exists_ok_of_any h
  obtain ⟨c, hc, hbody⟩ := List.any_eq_true.mp hcs
  obtain ⟨s, hs, hcheck⟩ := List.any_eq_true.mp hbody
  obtain ⟨ht, hP⟩ := Bool.and_eq_true_iff.mp hcheck
  exact ⟨cs, c, s, h, hc, hs, ht, hP⟩

/-- An assignment to the constant `N` makes no field, and an assignment to a subscript of `N` makes a
field that is written and has the name of a constant. -/
theorem Computation.exists_assigned_constants :
    (∃ cs c s, (lower assigningSource).result = .ok cs ∧ c ∈ cs ∧ s ∈ c.body ∧
      s.target?.any (fun target => target.assigned? = some "N") ∧ "N" ∈ c.space.constants ∧
      ∀ f ∈ c.fields, f.name ≠ "N") ∧
    ∃ cs c s, (lower subscriptedSource).result = .ok cs ∧ c ∈ cs ∧ s ∈ c.body ∧
      s.target?.any (fun target => target.assigned? = some "N") ∧ "N" ∈ c.space.constants ∧
      ∃ f ∈ c.fields, f.name = "N" ∧ f.accesses.any Access.isWrite := by
  constructor
  · obtain ⟨cs, c, s, h, hc, hs, ht, hcheck⟩ := exists_assigned_of_any assigningSource "N"
      (fun c => "N" ∈ c.space.constants && c.fields.all fun f => f.name ≠ "N") (by decide +kernel)
    obtain ⟨hmem, hfields⟩ := Bool.and_eq_true_iff.mp hcheck
    refine ⟨cs, c, s, h, hc, hs, ht, of_decide_eq_true hmem, ?_⟩
    intro f hf
    exact of_decide_eq_true (List.all_eq_true.mp hfields f hf)
  · obtain ⟨cs, c, s, h, hc, hs, ht, hcheck⟩ := exists_assigned_of_any subscriptedSource "N"
      (fun c => "N" ∈ c.space.constants &&
        c.fields.any fun f => f.name = "N" && f.accesses.any Access.isWrite) (by decide +kernel)
    obtain ⟨hmem, hfields⟩ := Bool.and_eq_true_iff.mp hcheck
    obtain ⟨f, hf, hwritten⟩ := List.any_eq_true.mp hfields
    obtain ⟨hname, hwrite⟩ := Bool.and_eq_true_iff.mp hwritten
    exact ⟨cs, c, s, h, hc, hs, ht, of_decide_eq_true hmem, f, hf, of_decide_eq_true hname, hwrite⟩

end LoopNest
