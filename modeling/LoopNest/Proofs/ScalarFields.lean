import LoopNest.Code.Unit
import LoopNest.Proofs.FieldCollection
import Mathlib.Data.List.Nodup

/-!
# Scalars and subscripts

A field counts as a scalar if none of its accesses has an index. A bare name makes such an access, but
so does a subscript with the empty tuple for its index, as in `x[()]`. Therefore a field counts as a
scalar exactly if every subscript of its name is an empty one, and only a field that has an empty
subscript and no other is a scalar although it is subscripted. The function gets scalars by value or,
if they are written, as pointers that the statements dereference.
-/

namespace LoopNest

/-- The subscripts that a body takes of a name. -/
def subscriptsOf (name : String) (body : List Stmt) : List Expr :=
  (body.flatMap Stmt.topDown).filter (·.subscripted? = some name)

/-- The expressions in a body that name a field. -/
def usesOf (space : Space) (name : String) (body : List Stmt) : List Expr :=
  (body.flatMap Stmt.topDown).filter (space.scope.field? · = some name)

/-- A field is passed by value. -/
def Field.ByValue (config : Config) (f : Field) : Prop :=
  f.parameter config = "const " ++ config.elemType ++ " " ++ f.name

/-- What scalars are meant to be: a field counts as one exactly if its name is never subscripted, so
that a field which is passed by value or dereferenced is used as a bare name only. -/
structure Field.ScalarIfBare (config : Config) (space : Space) (body : List Stmt) (fs : Fields)
    (f : Field) : Prop where
  isScalar_iff : f.isScalar ↔ subscriptsOf f.name body = []
  bare : f.ByValue config ∨ f.name ∈ fs.writtenScalars →
    ∀ e ∈ usesOf space f.name body, e.form = .name

/-! ### Accesses without an index -/

theorem Occurrence.Makes.index_eq_nil_iff {iterators : List String} {o : Occurrence} {a : Access}
    (h : o.Makes iterators a) : a.index = [] ↔ o.expr.index = [] := by
  rw [← List.length_eq_zero_iff, ← h.index.length_eq, List.length_eq_zero_iff]

theorem Occurrence.forall_index_eq_nil_iff {iterators : List String} {os : List Occurrence}
    {as : List Access} (h : List.Forall₂ (Makes iterators) os as) :
    (∀ a ∈ as, a.index = []) ↔ ∀ o ∈ os, o.expr.index = [] := by
  induction h with
  | nil => simp
  | cons h _ ih => rw [List.forall_mem_cons, List.forall_mem_cons, h.index_eq_nil_iff, ih]

theorem Field.isScalar_eq_true_iff {f : Field} (h : f.accesses ≠ []) :
    f.isScalar ↔ ∀ a ∈ f.accesses, a.index = [] := by
  simp [isScalar, h]

/-- A use of a field that has an index is a subscript of its name. -/
theorem Expr.subscripted?_of_index_ne_nil {scope : Scope} {e : Expr} {name : String}
    (hfield : scope.field? e = some name) (hindex : e.index ≠ []) : e.subscripted? = some name := by
  cases e with
  | subscript => exact hfield
  | _ => exact absurd rfl hindex

theorem mem_usesOf_of_mem_subscriptsOf {space : Space} {name : String} {body : List Stmt} {e : Expr}
    (h : e ∈ subscriptsOf name body) : e ∈ usesOf space name body := by
  simp only [subscriptsOf, usesOf, List.mem_filter, decide_eq_true_eq] at h ⊢
  exact ⟨h.1, Scope.field?_eq_some_iff.mpr (.inl h.2)⟩

theorem Expr.form_of_subscripted? {e : Expr} {name : String} (h : e.subscripted? = some name) :
    e.form = .subscript := by
  cases e with
  | subscript => rfl
  | _ => cases h

/-- A use of a field is a bare name unless it is a subscript. -/
theorem Expr.form_of_field? {scope : Scope} {e : Expr} {name : String}
    (hfield : scope.field? e = some name) (h : e.subscripted? ≠ some name) : e.form = .name := by
  rcases Scope.field?_eq_some_iff.mp hfield with hs | ⟨hbare, -⟩
  · exact absurd hs h
  · cases e with
    | name => rfl
    | _ => cases hbare

/-- The uses of a field are bare names exactly if its name is never subscripted. -/
theorem forall_form_eq_name_iff {space : Space} {name : String} {body : List Stmt} :
    (∀ e ∈ usesOf space name body, e.form = .name) ↔ subscriptsOf name body = [] := by
  rw [List.eq_nil_iff_forall_not_mem]
  constructor
  · intro h e he
    have hbare := h e (mem_usesOf_of_mem_subscriptsOf he)
    rw [Expr.form_of_subscripted? (of_decide_eq_true (List.mem_filter.mp he).2)] at hbare
    cases hbare
  · intro h e he
    simp only [subscriptsOf, usesOf, List.mem_filter, decide_eq_true_eq] at h he
    exact Expr.form_of_field? he.2 fun hs => h e ⟨he.1, hs⟩

/-! ### Parameters and pointers -/

theorem Field.byValue_iff {config : Config} {f : Field} :
    f.ByValue config ↔ f.isReadOnly ∧ f.isScalar := by
  -- a pointer is a text of another length
  have hlength : "const ".length = 6 ∧ " *".length = 2 ∧ " ".length = 1 := by decide
  have hconst : "const " ++ config.elemType ++ " *" ++ f.name ≠
      "const " ++ config.elemType ++ " " ++ f.name := by
    apply ne_of_apply_ne String.length
    simp only [String.length_append]
    omega
  have hpointer : config.elemType ++ " *" ++ f.name ≠
      "const " ++ config.elemType ++ " " ++ f.name := by
    apply ne_of_apply_ne String.length
    simp only [String.length_append]
    omega
  rw [ByValue, parameter]
  split
  · next hread =>
    split
    · next hscalar => exact iff_of_true rfl ⟨hread, hscalar⟩
    · next hscalar => exact iff_of_false hconst fun h => hscalar h.2
  · next hread => exact iff_of_false hpointer fun h => hread h.1

namespace Fields

variable {space : Space} {body : List Stmt} {fs : Fields} {f : Field}

theorem name_mem_writtenScalars_iff (hnodup : (fs.map Field.name).Nodup) (hf : f ∈ fs) :
    f.name ∈ fs.writtenScalars ↔ f.isScalar ∧ f.isReadOnly = false := by
  simp only [writtenScalars, List.mem_map, List.mem_filter, Bool.and_eq_true, Bool.not_eq_true']
  constructor
  · rintro ⟨g, ⟨hg, hscalar⟩, hname⟩
    rw [← List.inj_on_of_nodup_map hnodup hg hf hname]
    exact hscalar
  · intro hscalar
    exact ⟨f, ⟨hf, hscalar⟩, rfl⟩

/-- A field counts as a scalar exactly if all the subscripts of its name are empty. -/
theorem isScalar_iff_subscriptsOf (h : Fields.ofBody space body = .ok fs) (hf : f ∈ fs) :
    f.isScalar ↔ ∀ e ∈ subscriptsOf f.name body, e.index = [] := by
  rw [Field.isScalar_eq_true_iff (accesses_ne_nil h hf),
    Occurrence.forall_index_eq_nil_iff (forall₂_makes h hf)]
  simp only [subscriptsOf, List.mem_filter, List.mem_flatMap, decide_eq_true_eq]
  constructor
  · rintro hall e ⟨⟨s, hs, he⟩, hsub⟩
    obtain ⟨o, ho, rfl⟩ := Stmt.exists_occurrence.mpr he
    exact hall o ⟨⟨s, hs, ho⟩, Scope.field?_eq_some_iff.mpr (.inl hsub)⟩
  · rintro hall o ⟨⟨s, hs, ho⟩, hfield⟩
    by_contra hindex
    apply hindex
    have hsub := Expr.subscripted?_of_index_ne_nil hfield hindex
    exact hall o.expr ⟨⟨s, hs, Stmt.exists_occurrence.mp ⟨o, ho, rfl⟩⟩, hsub⟩

/-- A field of a body is passed by value or dereferenced exactly if it counts as a scalar. -/
theorem byValue_or_dereferenced_iff (h : Fields.ofBody space body = .ok fs) (hf : f ∈ fs)
    (config : Config) : f.ByValue config ∨ f.name ∈ fs.writtenScalars ↔ f.isScalar := by
  rw [Field.byValue_iff, name_mem_writtenScalars_iff (nodup_names h) hf]
  cases f.isReadOnly <;> simp

/-- A field of a body counts as a scalar, and is passed by value or dereferenced, exactly if all the
subscripts of its name are empty. So scalars are what they are meant to be exactly for the fields that
are never subscripted or have a subscript with an index. -/
theorem scalarIfBare_iff (h : Fields.ofBody space body = .ok fs) (hf : f ∈ fs) (config : Config) :
    (f.isScalar ↔ ∀ e ∈ subscriptsOf f.name body, e.index = []) ∧
    (f.ByValue config ∨ f.name ∈ fs.writtenScalars ↔ f.isScalar) ∧
    (f.ScalarIfBare config space body fs ↔
      subscriptsOf f.name body = [] ∨ ∃ e ∈ subscriptsOf f.name body, e.index ≠ []) := by
  have hscalar := isScalar_iff_subscriptsOf h hf
  have hpassed := byValue_or_dereferenced_iff h hf config
  refine ⟨hscalar, hpassed, ?_, ?_⟩
  · intro hmeant
    by_contra hnone
    rw [not_or, not_exists] at hnone
    apply hnone.1
    apply hmeant.isScalar_iff.mp
    apply hscalar.mpr
    intro e he
    by_contra hindex
    exact hnone.2 e ⟨he, hindex⟩
  · intro hmeant
    have hbare : f.isScalar ↔ subscriptsOf f.name body = [] := by
      rcases hmeant with hnil | ⟨e, he, hindex⟩
      · rw [hscalar, hnil]
        simp
      · exact iff_of_false (fun hs => hindex (hscalar.mp hs e he)) (List.ne_nil_of_mem he)
    refine ⟨hbare, fun hp => ?_⟩
    exact forall_form_eq_name_iff.mpr (hbare.mp (hpassed.mp hp))

/-- The field `A` has an empty subscript and one with an index, and is no scalar. -/
theorem scalarIfBare_iff_mixed :
    ∃ (space : Space) (p : Program) (fs : Fields) (f : Field),
      Program.parse "A[()] = A[i] + t" = .ok p ∧ Fields.ofBody space p.body = .ok fs ∧ f ∈ fs ∧
      f.name = "A" ∧ (subscriptsOf f.name p.body).map (·.index.length) = [0, 1] ∧
      ∀ config : Config,
        (f.isScalar ↔ ∀ e ∈ subscriptsOf f.name p.body, e.index = []) ∧
        (f.ByValue config ∨ f.name ∈ fs.writtenScalars ↔ f.isScalar) ∧
        (f.ScalarIfBare config space p.body fs ↔
          subscriptsOf f.name p.body = [] ∨ ∃ e ∈ subscriptsOf f.name p.body, e.index ≠ []) := by
  have hread : (Program.parse "A[()] = A[i] + t").toOption.any fun p =>
      (Fields.ofBody ⟨"s", ["i"], []⟩ p.body).toOption.any fun fs => fs.any fun f =>
        f.name = "A" && (subscriptsOf f.name p.body).map (·.index.length) = [0, 1] := by
    decide +kernel
  obtain ⟨p, hp, hfields⟩ := exists_ok_of_any hread
  obtain ⟨fs, h, hfs⟩ := exists_ok_of_any hfields
  obtain ⟨f, hf, hcheck⟩ := List.any_eq_true.mp hfs
  obtain ⟨hname, hindices⟩ := Bool.and_eq_true_iff.mp hcheck
  exact ⟨_, p, fs, f, hp, h, hf, of_decide_eq_true hname, of_decide_eq_true hindices,
    scalarIfBare_iff h hf⟩

/-- In `y[()] = x[()]` both fields are subscripted and count as scalars, so that `x` is passed by value
and `y` is dereferenced. -/
theorem exists_subscripted_scalars :
    ∃ (space : Space) (p : Program) (fs : Fields), Program.parse "y[()] = x[()]" = .ok p ∧
      Fields.ofBody space p.body = .ok fs ∧ fs.map Field.name = ["y", "x"] ∧
      fs.writtenScalars = ["y"] ∧ ∀ f ∈ fs, ∀ config : Config,
        (f.ByValue config ∨ f.name ∈ fs.writtenScalars) ∧
        ¬ f.ScalarIfBare config space p.body fs := by
  have hread : (Program.parse "y[()] = x[()]").toOption.any fun p =>
      (Fields.ofBody ⟨"s", ["i"], []⟩ p.body).toOption.any fun fs =>
        (fs.map Field.name = ["y", "x"] && fs.writtenScalars = ["y"]) &&
          fs.all fun f => f.isScalar && !(subscriptsOf f.name p.body).isEmpty := by
    decide +kernel
  obtain ⟨p, hp, hfields⟩ := exists_ok_of_any hread
  obtain ⟨fs, h, hcheck⟩ := exists_ok_of_any hfields
  simp only [Bool.and_eq_true, decide_eq_true_eq, List.all_eq_true] at hcheck
  obtain ⟨⟨hnames, hwritten⟩, hscalars⟩ := hcheck
  refine ⟨_, p, fs, hp, h, hnames, hwritten, fun f hf config => ⟨?_, fun hmeant => ?_⟩⟩
  · exact (byValue_or_dereferenced_iff h hf config).mpr (hscalars f hf).1
  · have hnil := hmeant.isScalar_iff.mp (hscalars f hf).1
    simpa [hnil] using (hscalars f hf).2

end Fields

end LoopNest
