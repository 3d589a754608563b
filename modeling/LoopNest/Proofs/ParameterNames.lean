import LoopNest.Proofs.ClosedUnits
import LoopNest.Proofs.FieldCollection

/-!
# The names of parameters

The function of a unit has a parameter for each constant of the space and for each field of the body.
The constants are distinct names and no iterators, the fields have distinct names, and a bare name in
the scope is no field. What is left is a subscript: it makes a field of its name, whether or not the
name is an iterator or a constant, so that the parameters have distinct names apart from the iterators
exactly if no subscript is taken of a name in the scope.
-/

namespace LoopNest

/-! ### Constants -/

namespace Term

variable {iterators : List String} {n : String}

mutual

/-- What a term calls a constant is no iterator. -/
theorem not_mem_of_mem_constants :
    ∀ t : Term, t.Resolved iterators → n ∈ t.constants → n ∉ iterators
  | iterator _, _, hn | literal _, _, hn => by simp [constants] at hn
  | constant name, h, hn => by
    rw [constants, List.mem_singleton] at hn
    exact hn ▸ h
  | apply function args, h, hn => not_mem_of_mem_constantsAll args h hn
  | arith left op right, h, hn => by
    rw [constants, List.mem_append] at hn
    rcases hn with hn | hn
    · exact not_mem_of_mem_constants left h.1 hn
    · exact not_mem_of_mem_constants right h.2 hn

theorem not_mem_of_mem_constantsAll :
    ∀ ts : List Term, AllResolved iterators ts → n ∈ constantsAll ts → n ∉ iterators
  | [], _, hn => by simp [constantsAll] at hn
  | t :: ts, h, hn => by
    rw [constantsAll, List.mem_append] at hn
    rcases hn with hn | hn
    · exact not_mem_of_mem_constants t h.1 hn
    · exact not_mem_of_mem_constantsAll ts h.2 hn

end

end Term

theorem Space.Legible.not_mem_of_mem_constants {s : Space} (h : s.Legible) {n : String}
    (hn : n ∈ s.constants) : n ∉ s.iterators := by
  rw [constants_eq_distinct, Names.mem_distinct, List.mem_flatMap] at hn
  obtain ⟨r, hr, hn⟩ := hn
  obtain ⟨t, ht, hn⟩ := Term.mem_constantsAll.mp hn
  exact t.not_mem_of_mem_constants ((h.relations r hr).1 t ht).2 hn

/-! ### Parameters -/

namespace Computation

/-- The names that the parameters of a unit declare. -/
def parameterNames (c : Computation) : List String :=
  c.space.writtenConstants ++ c.fields.map Field.name

/-- The names that the body takes subscripts of. -/
def subscripted (c : Computation) : List String :=
  (c.body.flatMap Stmt.topDown).filterMap Expr.subscripted?

theorem declares_parameterNames (config : Config) (c : Computation) :
    List.Forall₂ (fun p n => p ∈ config.declarations n) (c.parameters config) c.parameterNames := by
  apply List.rel_append
  · rw [List.forall₂_map_left_iff]
    apply List.forall₂_same.mpr
    intro n _
    simp [Config.declarations]
  · rw [List.forall₂_map_left_iff, List.forall₂_map_right_iff]
    apply List.forall₂_same.mpr
    intro f _
    exact f.parameter_mem_declarations config

/-- A name in the scope is a field exactly if the body takes a subscript of it. -/
theorem mem_names_iff_subscripted {c : Computation}
    (h : Fields.ofBody c.space c.body = .ok c.fields) {n : String}
    (hn : n ∈ c.space.iterators ∨ n ∈ c.space.constants) :
    n ∈ c.fields.map Field.name ↔ n ∈ c.subscripted := by
  rw [List.mem_map, Fields.exists_field_iff h, subscripted, List.mem_filterMap]
  apply exists_congr
  intro e
  apply and_congr_right
  intro _
  rw [Scope.field?_eq_some_iff]
  apply or_iff_left
  intro hbare
  exact hn.elim hbare.2.1 hbare.2.2

/-- The constants, the fields and the iterators have different names exactly if no subscript is taken
of a constant or an iterator. -/
theorem nodup_parameterNames_iff {c : Computation} (hs : c.space.Legible)
    (hf : Fields.ofBody c.space c.body = .ok c.fields) :
    (c.parameterNames.Nodup ∧ ∀ n ∈ c.parameterNames, n ∉ c.space.iterators) ↔
      ∀ n ∈ c.subscripted, n ∉ c.space.iterators ∧ n ∉ c.space.constants := by
  have hnames := Fields.nodup_names hf
  have hconstants : c.space.constants.Nodup := c.space.nodup_constants
  rw [parameterNames, hs.writtenConstants_eq]
  constructor
  · rintro ⟨hnodup, hiterators⟩ n hn
    constructor
    · intro hi
      apply hiterators n _ hi
      exact List.mem_append_right _ ((mem_names_iff_subscripted hf (.inl hi)).mpr hn)
    · intro hc
      apply List.disjoint_of_nodup_append hnodup hc
      exact (mem_names_iff_subscripted hf (.inr hc)).mpr hn
  · intro h
    constructor
    · apply hconstants.append hnames
      intro n hc hn
      exact (h n ((mem_names_iff_subscripted hf (.inr hc)).mp hn)).2 hc
    · intro n hn hi
      rcases List.mem_append.mp hn with hn | hn
      · exact hs.not_mem_of_mem_constants hn hi
      · exact (h n ((mem_names_iff_subscripted hf (.inl hi)).mp hn)).1 hi

/-- The constants among the parameters of a unit have distinct names that are no iterators, and so
have the fields among themselves. All the names are distinct, and none is an iterator, exactly if no
subscript is taken of an iterator or a constant. -/
theorem parameters_distinct_iff {source : String} {cs : List Computation} {c : Computation}
    (h : (lower source).result = .ok cs) (hc : c ∈ cs) :
    (∀ config : Config, List.Forall₂ (fun p n => p ∈ config.declarations n) (c.parameters config)
      c.parameterNames) ∧
    c.space.writtenConstants.Nodup ∧ (∀ n ∈ c.space.writtenConstants, n ∉ c.space.iterators) ∧
    (c.fields.map Field.name).Nodup ∧
    ((c.parameterNames.Nodup ∧ ∀ n ∈ c.parameterNames, n ∉ c.space.iterators) ↔
      ∀ n ∈ c.subscripted, n ∉ c.space.iterators ∧ n ∉ c.space.constants) := by
  obtain ⟨p, hp, hread⟩ := exists_readFrom h
  obtain ⟨⟨header, hheader, id, free, hspace⟩, -, hfields, -⟩ := hread c hc
  have hlegible := Space.legible_of_spaceFrom? (Program.proper_of_parse hp header hheader) hspace
  refine ⟨fun config => c.declares_parameterNames config, c.space.nodup_writtenConstants, ?_,
    Fields.nodup_names hfields, nodup_parameterNames_iff hlegible hfields⟩
  intro n hn
  rw [hlegible.writtenConstants_eq] at hn
  exact hlegible.not_mem_of_mem_constants hn

/-- A body with subscripts of fields only, though a constant and an iterator stand in them. -/
def fieldsSource : String :=
  "s = \x7b[i, j]: 0 <= i < N ^ i <= j < M\x7d\ny[i] += A[i, j + N] * x[c[j]] / t"

theorem parameters_distinct_iff_fields :
    ∃ cs c, (lower fieldsSource).result = .ok cs ∧ c ∈ cs ∧
      c.parameterNames = ["N", "M", "y", "A", "x", "c", "t"] ∧
      c.subscripted = ["y", "A", "x", "c"] ∧
      (∀ config : Config, List.Forall₂ (fun p n => p ∈ config.declarations n)
        (c.parameters config) c.parameterNames) ∧
      c.space.writtenConstants.Nodup ∧ (∀ n ∈ c.space.writtenConstants, n ∉ c.space.iterators) ∧
      (c.fields.map Field.name).Nodup ∧
      ((c.parameterNames.Nodup ∧ ∀ n ∈ c.parameterNames, n ∉ c.space.iterators) ↔
        ∀ n ∈ c.subscripted, n ∉ c.space.iterators ∧ n ∉ c.space.constants) := by
  have hread : (lower fieldsSource).result.toOption.any fun cs => cs.any fun c =>
      c.parameterNames = ["N", "M", "y", "A", "x", "c", "t"] &&
        c.subscripted = ["y", "A", "x", "c"] := by
    decide +kernel
  obtain ⟨cs, h, hcs⟩ := exists_ok_of_any hread
  obtain ⟨c, hc, hcheck⟩ := List.any_eq_true.mp hcs
  obtain ⟨hnames, hsubscripted⟩ := Bool.and_eq_true_iff.mp hcheck
  exact ⟨cs, c, h, hc, of_decide_eq_true hnames, of_decide_eq_true hsubscripted,
    parameters_distinct_iff h hc⟩

/-- A body with a subscript of a constant and one of an iterator. -/
def clashingSource : String :=
  "s = \x7b[i]: 0 <= i < N\x7d\nN[i] = i[0]"

/-- A subscript of a constant makes a second parameter of its name, and a subscript of an iterator a
parameter with the name of the iterator. -/
theorem exists_parameters_clash :
    ∃ cs c, (lower clashingSource).result = .ok cs ∧ c ∈ cs ∧ c.space.iterators = ["i"] ∧
      c.parameterNames = ["N", "N", "i"] ∧
      c.parameters .standard = ["const int N", "float *N", "const float *i"] := by
  have hread : (lower clashingSource).result.toOption.any fun cs => cs.any fun c =>
      c.space.iterators = ["i"] && (c.parameterNames = ["N", "N", "i"] &&
        c.parameters .standard = ["const int N", "float *N", "const float *i"]) := by
    decide +kernel
  obtain ⟨cs, h, hcs⟩ := exists_ok_of_any hread
  obtain ⟨c, hc, hcheck⟩ := List.any_eq_true.mp hcs
  obtain ⟨hiterators, hcheck⟩ := Bool.and_eq_true_iff.mp hcheck
  obtain ⟨hnames, hparameters⟩ := Bool.and_eq_true_iff.mp hcheck
  exact ⟨cs, c, h, hc, of_decide_eq_true hiterators, of_decide_eq_true hnames,
    of_decide_eq_true hparameters⟩

end Computation

end LoopNest
