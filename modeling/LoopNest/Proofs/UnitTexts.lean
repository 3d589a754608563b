import LoopNest.Code.Unit
import LoopNest.Proofs.CTranslation

/-!
# When units are made

A unit is made if every statement of its computation has a C text and the engine reports no error,
and a text is compiled if it is lowered and each of its units is made.
-/

namespace LoopNest

theorem cTextOfBody_cons_eq_ok_iff {s : Stmt} {ss : List Stmt} {texts : List String} :
    cTextOfBody (s :: ss) = .ok texts ↔
      ∃ t ts, s.cText = .ok t ∧ cTextOfBody ss = .ok ts ∧ texts = t :: ts := by
  simp only [cTextOfBody, translated_bind]
  constructor
  · rintro ⟨t, ht, ts, hts, h⟩
    cases h
    exact ⟨t, ts, ht, hts, rfl⟩
  · rintro ⟨t, ts, ht, hts, rfl⟩
    exact ⟨t, ht, ts, hts, rfl⟩

theorem cTextOfBody_eq_ok_iff {ss : List Stmt} {texts : List String} :
    cTextOfBody ss = .ok texts ↔ List.Forall₂ (fun s t => s.cText = .ok t) ss texts := by
  induction ss generalizing texts with
  | nil =>
    rw [List.forall₂_nil_left_iff, cTextOfBody, Except.ok.injEq, eq_comm]
  | cons s ss ih =>
    rw [cTextOfBody_cons_eq_ok_iff, List.forall₂_cons_left_iff]
    constructor
    · rintro ⟨t, ts, ht, hts, rfl⟩
      exact ⟨t, ts, ht, ih.mp hts, rfl⟩
    · rintro ⟨t, ts, ht, hts, rfl⟩
      exact ⟨t, ts, ht, ih.mpr hts, rfl⟩

theorem exists_stmt_of_mem {ss : List Stmt} {texts : List String}
    (h : cTextOfBody ss = .ok texts) {text : String} (ht : text ∈ texts) :
    ∃ s ∈ ss, s.cText = .ok text := by
  have hall := cTextOfBody_eq_ok_iff.mp h
  clear h
  induction hall with
  | nil => cases ht
  | @cons s t ss ts hs _ ih =>
    rcases List.mem_cons.mp ht with rfl | ht
    · exact ⟨s, List.mem_cons_self, hs⟩
    · obtain ⟨s', hs', htext⟩ := ih ht
      exact ⟨s', List.mem_cons_of_mem _ hs', htext⟩

namespace Computation

/-- The lines that define the statements with the given texts. -/
def lines (iterators pointers : List String) (k : Nat) (texts : List String) : List String :=
  (texts.zipIdx k).map fun text => Define.line text.2 iterators pointers text.1

theorem definesFrom_eq_ok_iff {iterators pointers : List String} {k : Nat} {ss : List Stmt}
    {defines : List String} :
    definesFrom iterators pointers k ss = .ok defines ↔
      ∃ texts, cTextOfBody ss = .ok texts ∧ defines = lines iterators pointers k texts := by
  induction ss generalizing k defines with
  | nil =>
    constructor
    · intro h
      cases h
      exact ⟨[], rfl, rfl⟩
    · rintro ⟨texts, h, rfl⟩
      cases h
      rfl
  | cons s ss ih =>
    simp only [definesFrom, translated_bind, cTextOfBody_cons_eq_ok_iff, ih]
    constructor
    · rintro ⟨t, ht, _, ⟨ts, hts, rfl⟩, h⟩
      cases h
      exact ⟨t :: ts, ⟨t, ts, ht, hts, rfl⟩, rfl⟩
    · rintro ⟨_, ⟨t, ts, ht, hts, rfl⟩, rfl⟩
      exact ⟨t, ht, _, ⟨ts, hts, rfl⟩, rfl⟩

theorem unit_eq_ok_iff {engine : Engine} {config : Config} {undef : Bool} {c : Computation}
    {unit : String} :
    c.unit engine config undef = .ok unit ↔ ∃ defines answer, c.defines = .ok defines ∧
      engine.scan (c.request config) = .ok answer ∧
      unit = assemble config undef c defines answer := by
  simp only [Computation.unit, translated_bind]
  constructor
  · rintro ⟨defines, hdefines, answer, hanswer, h⟩
    cases h
    exact ⟨defines, answer, hdefines, hanswer, rfl⟩
  · rintro ⟨defines, answer, hdefines, hanswer, rfl⟩
    exact ⟨defines, hdefines, answer, hanswer, rfl⟩

theorem unitsFrom_cons_eq_ok_iff {engines : Nat → Engine} {config : Config} {undef : Bool} {k : Nat}
    {c : Computation} {cs : List Computation} {units : List String} :
    unitsFrom engines config undef k (c :: cs) = .ok units ↔
      ∃ unit rest, c.unit (engines k) config undef = .ok unit ∧
        unitsFrom engines config undef (k + 1) cs = .ok rest ∧ units = unit :: rest := by
  simp only [unitsFrom, translated_bind]
  constructor
  · rintro ⟨unit, hunit, rest, hrest, h⟩
    cases h
    exact ⟨unit, rest, hunit, hrest, rfl⟩
  · rintro ⟨unit, rest, hunit, hrest, rfl⟩
    exact ⟨unit, hunit, rest, hrest, rfl⟩

/-- Each unit is made by an engine. -/
theorem exists_engine_of_unitsFrom {engines : Nat → Engine} {config : Config} {undef : Bool}
    {k : Nat} {cs : List Computation} {units : List String}
    (h : unitsFrom engines config undef k cs = .ok units) :
    List.Forall₂ (fun c unit => ∃ engine, c.unit engine config undef = .ok unit) cs units := by
  induction cs generalizing k units with
  | nil =>
    cases h
    exact .nil
  | cons c cs ih =>
    obtain ⟨unit, rest, hunit, hrest, rfl⟩ := unitsFrom_cons_eq_ok_iff.mp h
    exact .cons ⟨engines k, hunit⟩ (ih hrest)

/-- If all units are made, the engines are asked about each computation. -/
theorem requestsFrom_of_unitsFrom {engines : Nat → Engine} {config : Config} {undef : Bool}
    {k : Nat} {cs : List Computation} {units : List String}
    (h : unitsFrom engines config undef k cs = .ok units) :
    requestsFrom engines config k cs = cs.map (request config) := by
  induction cs generalizing k units with
  | nil => rfl
  | cons c cs ih =>
    obtain ⟨unit, rest, hunit, hrest, rfl⟩ := unitsFrom_cons_eq_ok_iff.mp h
    obtain ⟨defines, answer, hdefines, hanswer, rfl⟩ := unit_eq_ok_iff.mp hunit
    simp [requestsFrom, hdefines, hanswer, ih hrest]

end Computation

theorem compile_eq_ok_iff {source : String} {engines : Nat → Engine} {config : Config}
    {text : String} :
    compile source engines config = .ok text ↔ ∃ cs units, (lower source).result = .ok cs ∧
      Computation.unitsFrom engines config (1 < cs.length) 0 cs = .ok units ∧
      text = "\n\n".intercalate units := by
  simp only [compile, Computation.code, translated_bind]
  constructor
  · rintro ⟨cs, hcs, units, hunits, h⟩
    cases h
    exact ⟨cs, units, hcs, hunits, rfl⟩
  · rintro ⟨cs, units, hcs, hunits, rfl⟩
    exact ⟨cs, hcs, units, hunits, rfl⟩

end LoopNest
