import LoopNest.Proofs.JoinedPrograms
import LoopNest.Proofs.SourceRoundTrip
import LoopNest.Proofs.SpanIndependence

/-!
# Separate compilation

Two texts that are lowered alone are lowered together, on lines one behind the other, and give the
computations of both. Those of the second text have moved down with it, and their relations are
counted on from those of the first. A unit of code depends on neither, so the code of the whole is
made from the units of the parts.
-/

namespace LoopNest

/-! ### Identities of relations -/

namespace Chain

/-- What the relations of a chain say does not depend on their identities. -/
theorem map_nodes_settle (p : Pending) (id : Nat) (links : List (CompareOp × Comparand)) :
    (settle { p with id := id } links).map Relation.nodes = (settle p links).map Relation.nodes := by
  fun_induction settle p links generalizing id with
  | case1 p => cases h : p.added <;> simp [settle, Pending.stored, h, Relation.nodes, Pending.close]
  | case2 p op t =>
    cases h : p.added <;>
      simp [settle, extend, h, Relation.nodes, Pending.close, Pending.between]
  | case3 p op l r =>
    cases h : p.added <;> simp [settle, Pending.stored, h, Relation.nodes, Pending.close]
  | case4 p op next rest u t ih => exact ih id
  | case5 p op next rest u close reopen ih =>
    simp only [settle, List.map_cons]
    exact congrArg₂ List.cons rfl (ih (id + 1))
  | case6 p op next rest close reopen t ih =>
    simp only [settle, List.map_cons]
    exact congrArg₂ List.cons rfl (ih (id + 1))
  | case7 p op next rest close reopen close' reopen' ih =>
    simp only [settle, List.map_cons]
    exact congrArg₂ List.cons rfl (congrArg₂ List.cons rfl (ih (id + 2)))

end Chain

/-- Chains settle in the same relations from whatever identity these are counted. -/
theorem exists_settleAll_nodes {chains : List Links} {id free : Nat} {rs : List Relation}
    (h : settleAll id chains = some (rs, free)) (id' : Nat) :
    ∃ rs' free', settleAll id' chains = some (rs', free') ∧
      rs'.map Relation.nodes = rs.map Relation.nodes := by
  induction chains generalizing id id' rs with
  | nil =>
    cases h
    exact ⟨[], id', rfl, rfl⟩
  | cons chain chains ih =>
    obtain ⟨t, links⟩ := chain
    obtain ⟨added, next, more, hsplit, hmore, rfl⟩ := settleAll_cons_eq_some_iff.mp h
    -- Whether a chain has relations at all is a matter of its pattern.
    have hsame : (Chain.split (.begin id' t) links).isSome =
        (Chain.split (.begin id t) links).isSome := by
      rw [Chain.split_isSome, Chain.split_isSome]
      rfl
    rw [hsplit] at hsame
    obtain ⟨⟨added', next'⟩, hsplit'⟩ := Option.isSome_iff_exists.mp hsame
    obtain ⟨more', free', hmore', hnodes⟩ := ih hmore next'
    refine ⟨_, free', settleAll_cons_eq_some_iff.mpr
      ⟨added', next', more', hsplit', hmore', rfl⟩, ?_⟩
    rw [List.map_append, List.map_append, hnodes]
    exact congrArg (· ++ _) (Chain.map_nodes_settle (.begin id t) id' links)

namespace Space

/-- Spaces that differ at most in the identities of their relations. -/
structure Agrees (s s' : Space) : Prop where
  name : s'.name = s.name
  iterators : s'.iterators = s.iterators
  nodes : s'.relations.map Relation.nodes = s.relations.map Relation.nodes

variable {s s' : Space}

theorem Agrees.flatMap_relations (h : s.Agrees s') {g : Relation → List String}
    (hg : ∀ (r : Relation) (id : Nat), g { r with id := id } = g r) :
    s'.relations.flatMap g = s.relations.flatMap g := by
  rw [List.flatMap_def, List.flatMap_def, Relation.map_eq_of_nodes hg h.nodes]

theorem Agrees.scope (h : s.Agrees s') : s'.scope = s.scope := by
  have hconstants : s'.constants = s.constants := by
    rw [constants_eq_distinct, constants_eq_distinct, h.flatMap_relations fun _ _ => rfl]
  rw [Space.scope, Space.scope, h.iterators, hconstants]

theorem Agrees.writtenConstants (h : s.Agrees s') : s'.writtenConstants = s.writtenConstants := by
  rw [writtenConstants_eq_distinct, writtenConstants_eq_distinct,
    h.flatMap_relations fun _ _ => rfl]

theorem Agrees.engineText (h : s.Agrees s') : s'.engineText = s.engineText := by
  rw [engineText_eq_text, engineText_eq_text, text_congr h.name h.iterators h.nodes .engine]

end Space

/-- A header describes the same space from whatever identity its relations are counted. -/
theorem Stmt.exists_spaceFrom? {s : Stmt} {id free : Nat} {space : Space}
    (h : s.spaceFrom? id = some (space, free)) (id' : Nat) :
    ∃ space' free', s.spaceFrom? id' = some (space', free') ∧ space.Agrees space' := by
  unfold spaceFrom? at h
  split at h
  · next name _ entries =>
    simp only [Option.bind_eq_bind, Option.bind_eq_some_iff, Option.pure_def, Option.some.injEq,
      Prod.mk.injEq, Option.guard_eq_some'] at h
    obtain ⟨_, hname, names, hnames, chains, hchains, ⟨rs, _⟩, hsettle, rfl, rfl⟩ := h
    obtain ⟨rs', free', hsettle', hnodes⟩ := exists_settleAll_nodes hsettle id'
    exact ⟨⟨name, Names.distinct names, rs'⟩, free',
      by simp [spaceFrom?, guard, hname, hnames, hchains, hsettle'], rfl, rfl, hnodes⟩
  · cases h

namespace Computation

/-! ### Computations that have moved -/

/-- A computation whose statements stand at other places, and whose relations may have other
identities. -/
structure Moved (f : Span → Span) (c c' : Computation) : Prop where
  space : c.space.Agrees c'.space
  body : c'.body = c.body.map (Stmt.relocate f)
  fields : c'.fields = c.fields

variable {f : Span → Span}

theorem exists_of?_moved {space space' : Space} {body : List Stmt} {c : Computation}
    (h : of? space body = some c) (hspace : space.Agrees space') :
    ∃ c', of? space' (body.map (Stmt.relocate f)) = some c' ∧ c.Moved f c' := by
  have hmentions : (body.map (Stmt.relocate f)).flatMap (Stmt.mentions space'.scope) =
      body.flatMap (Stmt.mentions space.scope) := by
    simp [List.flatMap_map, hspace.scope]
  have hreadable : (body.map (Stmt.relocate f)).all Stmt.readable = body.all Stmt.readable := by
    simp [List.all_map, Function.comp_def]
  unfold of? at h ⊢
  dsimp only at h ⊢
  rw [hmentions, hreadable]
  split at h
  · next hcheck =>
    cases h
    rw [if_pos hcheck]
    exact ⟨_, rfl, hspace, rfl, rfl⟩
  · cases h

/-- Groups that have moved are the same computations, moved. -/
theorem exists_ofGroups?_moved {groups : List (Stmt × List Stmt)} {id free : Nat}
    {cs : List Computation} (h : ofGroups? id groups = some (cs, free)) (id' : Nat) :
    ∃ cs' free', ofGroups? id' (groups.map (Prod.map (Stmt.relocate f)
      (List.map (Stmt.relocate f)))) = some (cs', free') ∧ List.Forall₂ (Moved f) cs cs' := by
  induction groups generalizing id id' cs with
  | nil =>
    cases h
    exact ⟨[], id', rfl, .nil⟩
  | cons g groups ih =>
    obtain ⟨header, body⟩ := g
    obtain ⟨space, next, c, rest, hspace, hc, hrest, rfl⟩ := ofGroups?_cons_eq_some_iff.mp h
    obtain ⟨space', next', hspace', hagrees⟩ := Stmt.exists_spaceFrom? hspace id'
    obtain ⟨c', hc', hmoved⟩ := exists_of?_moved hc hagrees
    obtain ⟨rest', free', hrest', hall⟩ := ih hrest next'
    rw [← Stmt.spaceFrom?_relocate f] at hspace'
    exact ⟨c' :: rest', free',
      ofGroups?_cons_eq_some_iff.mpr ⟨space', next', c', rest', hspace', hc', hrest', rfl⟩,
      .cons hmoved hall⟩

theorem ofGroups?_append {groups more : List (Stmt × List Stmt)} {id next free : Nat}
    {cs rest : List Computation} (h : ofGroups? id groups = some (cs, next))
    (hmore : ofGroups? next more = some (rest, free)) :
    ofGroups? id (groups ++ more) = some (cs ++ rest, free) := by
  induction groups generalizing id cs with
  | nil =>
    cases h
    exact hmore
  | cons g groups ih =>
    obtain ⟨header, body⟩ := g
    obtain ⟨space, n, c, tail, hspace, hc, htail, rfl⟩ := ofGroups?_cons_eq_some_iff.mp h
    exact ofGroups?_cons_eq_some_iff.mpr ⟨space, n, c, tail ++ rest, hspace, hc, ih htail, rfl⟩

theorem group_map_relocate (ss : List Stmt) :
    group (ss.map (Stmt.relocate f)) = Prod.map (List.map (Stmt.relocate f))
      (List.map (Prod.map (Stmt.relocate f) (List.map (Stmt.relocate f)))) (group ss) := by
  induction ss with
  | nil => rfl
  | cons s ss ih =>
    rw [List.map_cons, group, group, ih, Stmt.isHeader_relocate]
    by_cases hs : s.isHeader <;> simp [hs]

/-- Statements that start with a header add their groups to those before them. -/
theorem group_append {ss more : List Stmt} {groups : List (Stmt × List Stmt)}
    (h : group more = ([], groups)) :
    group (ss ++ more) = ((group ss).1, (group ss).2 ++ groups) := by
  induction ss with
  | nil => exact h
  | cons s ss ih =>
    rw [List.cons_append, group, group, ih]
    by_cases hs : s.isHeader <;> simp [hs]

theorem ofGroups?_ne_nil {groups : List (Stmt × List Stmt)} {id free : Nat} {cs : List Computation}
    (h : ofGroups? id groups = some (cs, free)) (hne : groups ≠ []) : cs ≠ [] := by
  obtain ⟨⟨header, body⟩, rest, rfl⟩ := List.exists_cons_of_ne_nil hne
  obtain ⟨_, _, c, cs', -, -, -, rfl⟩ := ofGroups?_cons_eq_some_iff.mp h
  exact List.cons_ne_nil c cs'

/-! ### Units of computations that have moved -/

theorem cTextOfBody_relocate (ss : List Stmt) (texts : List String) :
    cTextOfBody (ss.map (Stmt.relocate f)) = .ok texts ↔ cTextOfBody ss = .ok texts := by
  rw [cTextOfBody_eq_ok_iff, cTextOfBody_eq_ok_iff, List.forall₂_map_left_iff]
  simp

variable {c c' : Computation}

theorem Moved.defines (h : c.Moved f c') (defines : List String) :
    c'.defines = .ok defines ↔ c.defines = .ok defines := by
  rw [Computation.defines, Computation.defines, definesFrom_eq_ok_iff, definesFrom_eq_ok_iff,
    h.space.iterators, h.fields, h.body]
  simp only [cTextOfBody_relocate]

theorem Moved.length_body (h : c.Moved f c') : c'.body.length = c.body.length := by
  rw [h.body, List.length_map]

theorem Moved.request (h : c.Moved f c') (config : Config) :
    c'.request config = c.request config := by
  simp only [Computation.request, h.space.name, h.space.iterators, h.space.writtenConstants,
    h.space.engineText, h.length_body]

theorem Moved.assemble (h : c.Moved f c') (config : Config) (undef : Bool) (defines : List String)
    (answer : String) :
    assemble config undef c' defines answer = assemble config undef c defines answer := by
  simp only [Computation.assemble, declaration, undefs, h.space.name, h.space.iterators,
    h.space.writtenConstants, h.fields, h.length_body]

/-- The unit of a computation does not change when the computation moves. -/
theorem Moved.unit (h : c.Moved f c') (engine : Engine) (config : Config) (undef : Bool)
    (unit : String) :
    c'.unit engine config undef = .ok unit ↔ c.unit engine config undef = .ok unit := by
  simp only [unit_eq_ok_iff, h.defines, h.request, h.assemble]

/-- One engine for all requests makes each unit by itself. -/
theorem unitsFrom_const_eq_ok_iff {engine : Engine} {config : Config} {undef : Bool} {k : Nat}
    {cs : List Computation} {units : List String} :
    unitsFrom (fun _ => engine) config undef k cs = .ok units ↔
      List.Forall₂ (fun c unit => c.unit engine config undef = .ok unit) cs units := by
  induction cs generalizing k units with
  | nil => rw [List.forall₂_nil_left_iff, unitsFrom, Except.ok.injEq, eq_comm]
  | cons c cs ih =>
    rw [unitsFrom_cons_eq_ok_iff, List.forall₂_cons_left_iff]
    simp only [ih]

theorem forall₂_unit_congr {engine : Engine} {config : Config} {undef : Bool}
    {cs cs' : List Computation}
    (h : List.Forall₂ (fun c c' => ∀ unit, c'.unit engine config undef = .ok unit ↔
      c.unit engine config undef = .ok unit) cs cs') (units : List String) :
    List.Forall₂ (fun c unit => c.unit engine config undef = .ok unit) cs' units ↔
      List.Forall₂ (fun c unit => c.unit engine config undef = .ok unit) cs units := by
  induction h generalizing units with
  | nil => rfl
  | cons hunit _ ih =>
    rw [List.forall₂_cons_left_iff, List.forall₂_cons_left_iff]
    simp only [hunit, ih]

end Computation

/-! ### Texts behind one another -/

theorem ne_nil_of_lower {source : String} {cs : List Computation}
    (h : (lower source).result = .ok cs) : cs ≠ [] := by
  obtain ⟨p, groups, free, -, -, hne, hcs⟩ := lower_eq_ok_iff.mp h
  exact Computation.ofGroups?_ne_nil hcs hne

/-- Two texts on lines behind one another are lowered to the computations of both, those of the
second moved down. -/
theorem exists_lower_join {source₁ source₂ : String} {cs₁ cs₂ : List Computation}
    (h₁ : (lower source₁).result = .ok cs₁) (h₂ : (lower source₂).result = .ok cs₂) :
    ∃ cs, (lower (source₁ ++ "\n" ++ source₂)).result = .ok (cs₁ ++ cs) ∧
      List.Forall₂ (Computation.Moved (Span.shift (source₁.toList.count '\n' + 1)
        (source₁.utf8ByteSize + 1))) cs₂ cs := by
  obtain ⟨p₁, groups₁, free₁, hp₁, hgroup₁, hne, hcs₁⟩ := lower_eq_ok_iff.mp h₁
  obtain ⟨p₂, groups₂, free₂, hp₂, hgroup₂, -, hcs₂⟩ := lower_eq_ok_iff.mp h₂
  obtain ⟨p, hp, hbody⟩ := Program.exists_parse_join hp₁ hp₂
  -- The relations of the second text are counted on from the first identity free behind the first.
  obtain ⟨cs, free, hcs, hmoved⟩ := Computation.exists_ofGroups?_moved hcs₂ free₁
  refine ⟨cs, lower_eq_ok_iff.mpr ⟨p, _, free, hp, ?_, ?_, Computation.ofGroups?_append hcs₁ hcs⟩,
    hmoved⟩
  · have hmap := Computation.group_map_relocate (f := Span.shift (source₁.toList.count '\n' + 1)
      (source₁.utf8ByteSize + 1)) p₂.body
    rw [hgroup₂] at hmap
    rw [hbody, Computation.group_append hmap, hgroup₁]
  · simp [hne]

/-- Compilation is separate: two texts that are lowered alone are lowered together, to the
computations of both. With an engine that keeps no state, the code of the whole is made exactly if
each unit is, and is the units with a blank line between them. -/
theorem compile_join_separately {source₁ source₂ : String} {cs₁ cs₂ : List Computation}
    (h₁ : (lower source₁).result = .ok cs₁) (h₂ : (lower source₂).result = .ok cs₂) :
    ∃ cs, (lower (source₁ ++ "\n" ++ source₂)).result = .ok (cs₁ ++ cs) ∧
      List.Forall₂ (Computation.Moved (Span.shift (source₁.toList.count '\n' + 1)
        (source₁.utf8ByteSize + 1))) cs₂ cs ∧
      ∀ (engine : Engine) (config : Config) (text : String),
        compile (source₁ ++ "\n" ++ source₂) (fun _ => engine) config = .ok text ↔
          ∃ units, List.Forall₂ (fun c unit => c.unit engine config true = .ok unit)
            (cs₁ ++ cs₂) units ∧ text = "\n\n".intercalate units := by
  obtain ⟨cs, hlower, hmoved⟩ := exists_lower_join h₁ h₂
  refine ⟨cs, hlower, hmoved, fun engine config text => ?_⟩
  have hseveral : decide (1 < (cs₁ ++ cs).length) = true := by
    have hpos₁ := List.length_pos_iff.mpr (ne_nil_of_lower h₁)
    have hpos₂ := List.length_pos_iff.mpr (ne_nil_of_lower h₂)
    have hlength := hmoved.length_eq
    rw [List.length_append]
    exact decide_eq_true (by omega)
  have hsame : List.Forall₂ (fun c c' => ∀ unit, Computation.unit engine config true c' = .ok unit ↔
      c.unit engine config true = .ok unit) cs₁ cs₁ :=
    List.forall₂_same.mpr fun c _ unit => Iff.rfl
  have hunits := Computation.forall₂_unit_congr
    (List.rel_append hsame (hmoved.imp fun c c' h => h.unit engine config true))
  rw [compile_eq_ok_iff]
  constructor
  · rintro ⟨_, units, hcs, hmade, rfl⟩
    cases hlower.symm.trans hcs
    rw [hseveral, Computation.unitsFrom_const_eq_ok_iff] at hmade
    exact ⟨units, (hunits units).mp hmade, rfl⟩
  · rintro ⟨units, hmade, rfl⟩
    refine ⟨_, units, hlower, ?_, rfl⟩
    rw [hseveral, Computation.unitsFrom_const_eq_ok_iff]
    exact (hunits units).mpr hmade

/-- A line break stands in brackets, and a comment ends the text. -/
def sumSource : String :=
  "s = \x7b[i]: 0 <= i < n\x7d\nt += w * (a[i]\n) # sum"

/-- The text starts with an empty line. -/
def doublingSource : String :=
  "\nu = \x7b[j]: 0 <= j < m\x7d\nb[j] = 2 * b[j]"

theorem compile_join_separately_sum :
    ∃ cs₁ cs₂ cs, (lower sumSource).result = .ok cs₁ ∧ (lower doublingSource).result = .ok cs₂ ∧
      (lower (sumSource ++ "\n" ++ doublingSource)).result = .ok (cs₁ ++ cs) ∧
      List.Forall₂ (Computation.Moved (Span.shift 3 45)) cs₂ cs ∧
      compile (sumSource ++ "\n" ++ doublingSource) (fun _ _ => "loops") .standard =
        .ok ("#define s0(i) \x7b (*t) += w * a[(i)]; \x7d\n\n" ++
          "void s(const int n, float *t, const float w, const float *a) \x7b\n  int t2;\nloops\n" ++
          "\x7d\n#undef s0\n\n#define s0(j) \x7b b[(j)] = 2 * b[(j)]; \x7d\n\n" ++
          "void u(const int m, float *b) \x7b\n  int t2;\nloops\n\x7d\n#undef s0") := by
  have hsum : (lower sumSource).result.toOption.any fun cs =>
      (Computation.unitsFrom (fun _ _ => "loops") .standard true 0 cs).toOption.any fun units =>
        units = ["#define s0(i) \x7b (*t) += w * a[(i)]; \x7d\n\n" ++
          "void s(const int n, float *t, const float w, const float *a) \x7b\n  int t2;\nloops\n" ++
          "\x7d\n#undef s0"] := by
    decide +kernel
  have hdoubling : (lower doublingSource).result.toOption.any fun cs =>
      (Computation.unitsFrom (fun _ _ => "loops") .standard true 0 cs).toOption.any fun units =>
        units = ["#define s0(j) \x7b b[(j)] = 2 * b[(j)]; \x7d\n\n" ++
          "void u(const int m, float *b) \x7b\n  int t2;\nloops\n\x7d\n#undef s0"] := by
    decide +kernel
  obtain ⟨cs₁, h₁, hsum⟩ := exists_ok_of_any hsum
  obtain ⟨cs₂, h₂, hdoubling⟩ := exists_ok_of_any hdoubling
  obtain ⟨units₁, hunits₁, htext₁⟩ := exists_ok_of_any hsum
  obtain ⟨units₂, hunits₂, htext₂⟩ := exists_ok_of_any hdoubling
  obtain ⟨cs, hlower, hmoved, hcompile⟩ := compile_join_separately h₁ h₂
  refine ⟨cs₁, cs₂, cs, h₁, h₂, hlower, hmoved, (hcompile _ _ _).mpr ⟨units₁ ++ units₂, ?_, ?_⟩⟩
  · exact List.rel_append (Computation.unitsFrom_const_eq_ok_iff.mp hunits₁)
      (Computation.unitsFrom_const_eq_ok_iff.mp hunits₂)
  · rw [of_decide_eq_true htext₁, of_decide_eq_true htext₂]
    decide +kernel

end LoopNest
