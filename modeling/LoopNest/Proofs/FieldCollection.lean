import LoopNest.Proofs.Occurrences
import LoopNest.Proofs.ProperTrees
import Mathlib.Data.List.Forall2

/-!
# Fields are collected exactly

The fields of a body are its occurrences of fields, grouped by name. The names come in the order in
which a walk meets them on its way down, and the accesses to a field in the order in which a walk meets
them on its way up, so that an index is read before the subscript it belongs to. An access writes if it
is what a statement assigns to, and its index has the terms that the components of the subscript stand
for.
-/

namespace LoopNest

/-- The term that an expression in an index stands for among the given iterators. -/
inductive Expr.StandsFor (iterators : List String) : Expr → Term → Prop where
  | iterator (span : Span) {text : String} (h : text ∈ iterators) :
      StandsFor iterators (.name span text) (.iterator text)
  | constant (span : Span) {text : String} (h : text ∉ iterators) :
      StandsFor iterators (.name span text) (.constant text)
  | number (span : Span) (text : String) : StandsFor iterators (.number span text) (.literal text)
  | binary (span : Span) {left right : Expr} {op : BinaryOp} {l r : Term} {o : ArithOp}
      (hl : StandsFor iterators left l) (ho : ArithOp.ofBinary? op = some o)
      (hr : StandsFor iterators right r) :
      StandsFor iterators (.binary span left op right) (.arith l o r)
  | minus (span : Span) {operand : Expr} {text : String}
      (h : StandsFor iterators operand (.literal text)) (hs : Term.isSigned text = false) :
      StandsFor iterators (.unary span .neg operand) (.literal ("-" ++ text))
  | negation (span : Span) {operand : Expr} {t : Term} (h : StandsFor iterators operand t)
      (hs : ∀ text, t = .literal text → Term.isSigned text) :
      StandsFor iterators (.unary span .neg operand) t.negate
  | plus (span : Span) {operand : Expr} {t : Term} (h : StandsFor iterators operand t) :
      StandsFor iterators (.unary span .pos operand) t
  | call (span : Span) (callee : String) {args : List Expr} {ts : List Term}
      (h : List.Forall₂ (StandsFor iterators) args ts) :
      StandsFor iterators (.call span callee args) (.apply callee ts)
  | subscript (span : Span) {base index : Expr} {name : String} {ts : List Term}
      (hbase : base.name? = some name)
      (h : List.Forall₂ (StandsFor iterators) index.components ts) :
      StandsFor iterators (.subscript span base index) (.apply name ts)

/-- The access that an occurrence of a field makes. -/
structure Occurrence.Makes (iterators : List String) (o : Occurrence) (a : Access) : Prop where
  isWrite : a.isWrite = o.isTarget
  index : List.Forall₂ (Expr.StandsFor iterators) o.expr.index a.index

/-! ### Indices -/

theorem Expr.StandsFor.signed {iterators : List String} {operand : Expr} {t : Term}
    (h : operand.StandsFor iterators t) (span : Span) :
    ∃ u, Collecting.signed .neg (some t) = some u ∧
      (Expr.unary span .neg operand).StandsFor iterators u := by
  cases t with
  | literal text =>
    by_cases hs : Term.isSigned text
    · refine ⟨_, by simp [Collecting.signed, hs], .negation span h ?_⟩
      intro other heq
      cases heq
      exact hs
    · refine ⟨_, by simp [Collecting.signed, hs], .minus span h (by simpa using hs)⟩
  | _ => exact ⟨_, rfl, .negation span h (by simp)⟩

theorem forall₂_standsFor_singleton {iterators : List String} {e : Expr}
    (hr : readableAll true [e]) (ht : [e].all Expr.isTerm)
    (h : e.readable true → ∀ {t : Term}, e.value? iterators = some t → e.StandsFor iterators t) :
    List.Forall₂ (Expr.StandsFor iterators) [e] (valuesOf iterators [e]) := by
  simp only [readableAll, Bool.and_true] at hr
  simp only [List.all_cons, List.all_nil, Bool.and_true] at ht
  obtain ⟨t, hvalue⟩ := Option.isSome_iff_exists.mp ((e.isSome_value? iterators).trans ht)
  rw [valuesOf, hvalue]
  exact .cons (h hr hvalue) .nil

mutual

/-- In an index an expression is read as the term that it stands for. -/
theorem Expr.standsFor_of_value? {iterators : List String} :
    ∀ (e : Expr) {t : Term}, e.readable true → e.value? iterators = some t →
      e.StandsFor iterators t
  | .name span text, t, _, ht => by
    rw [Expr.value?, Option.some.injEq] at ht
    subst ht
    split
    · next h => exact .iterator span h
    · next h => exact .constant span h
  | .number span text, t, _, ht => by
    rw [Expr.value?, Option.some.injEq] at ht
    subst ht
    exact .number span text
  | .binary span left op right, t, hr, ht => by
    simp only [Expr.readable, Bool.and_eq_true] at hr
    simp only [Expr.value?, Option.bind_eq_bind, Option.bind_eq_some_iff, Option.pure_def,
      Option.some.injEq] at ht
    obtain ⟨l, hl, r, hr', o, ho, rfl⟩ := ht
    exact .binary span (left.standsFor_of_value? hr.1.1 hl) ho
      (right.standsFor_of_value? hr.1.2 hr')
  | .unary span .neg operand, t, hr, ht => by
    rw [Expr.value?] at ht
    cases hv : operand.value? iterators with
    | none => simp [hv, Collecting.signed] at ht
    | some u =>
      obtain ⟨v, hsigned, hstands⟩ := (operand.standsFor_of_value? hr hv).signed span
      rw [hv, hsigned, Option.some.injEq] at ht
      exact ht ▸ hstands
  | .unary span .pos operand, t, hr, ht => .plus span (operand.standsFor_of_value? hr ht)
  | .unary _ .not _, _, _, ht | .unary _ .invert _, _, _, ht => by
    simp [Expr.value?, Collecting.signed] at ht
  | .call span callee args, t, hr, ht => by
    rw [Expr.value?, Option.some.injEq] at ht
    subst ht
    simp only [Expr.readable, Bool.not_true, Bool.false_or, Bool.and_eq_true] at hr
    exact .call span callee (forall₂_standsFor args hr.1 hr.2)
  | .subscript span base index, t, hr, ht => by
    rw [Expr.value?_subscript, Option.map_eq_some_iff] at ht
    obtain ⟨name, hname, rfl⟩ := ht
    rw [Expr.readable_subscript, Bool.and_eq_true, Bool.and_eq_true] at hr
    refine .subscript span hname ?_
    have hindex : index.readable true → ∀ {t : Term}, index.value? iterators = some t →
        index.StandsFor iterators t := fun hr => index.standsFor_of_value? hr
    cases index with
    | tuple _ items => exact forall₂_standsFor items hr.2.1 hr.2.2
    | _ => exact forall₂_standsFor_singleton hr.2.1 hr.2.2 hindex
  | .connect .., _, _, ht | .compare .., _, _, ht | .tuple .., _, _, ht | .list .., _, _, ht
  | .dict .., _, _, ht => by simp [Expr.value?] at ht

theorem forall₂_standsFor {iterators : List String} :
    ∀ es : List Expr, readableAll true es → es.all Expr.isTerm →
      List.Forall₂ (Expr.StandsFor iterators) es (valuesOf iterators es)
  | [], _, _ => .nil
  | e :: es, hr, ht => by
    rw [readableAll, Bool.and_eq_true] at hr
    rw [List.all_cons, Bool.and_eq_true] at ht
    obtain ⟨t, hvalue⟩ := Option.isSome_iff_exists.mp ((e.isSome_value? iterators).trans ht.1)
    rw [valuesOf, hvalue]
    exact .cons (e.standsFor_of_value? hr.1 hvalue) (forall₂_standsFor es hr.2 ht.2)

end

/-- The components of a subscript that is read stand for the terms of its access. -/
theorem Expr.forall₂_index {iterators : List String} {inIndex : Bool} {e : Expr}
    (h : e.readable inIndex) :
    List.Forall₂ (StandsFor iterators) e.index (valuesOf iterators e.index) := by
  cases e with
  | subscript span base index =>
    rw [readable_subscript, Bool.and_eq_true, Bool.and_eq_true] at h
    exact forall₂_standsFor index.components h.2.1 h.2.2
  | _ => exact .nil

/-! ### Mentions on a walk -/

/-- A function that goes through a list and checks what it finds at each place. -/
theorem eq_all_map {α γ : Type} {f : List γ → Bool} {g : α → Bool} (p : γ → α)
    (hnil : f [] = true) (hcons : ∀ c cs, f (c :: cs) = (g (p c) && f cs)) (cs : List γ) :
    f cs = (cs.map p).all g := by
  induction cs with
  | nil => exact hnil
  | cons c cs ih => rw [hcons, ih, List.map_cons, List.all_cons]

/-- What an expression that can be read is made of can be read. -/
theorem Expr.readable_of_mem_parts {inIndex : Bool} {e part : Expr} (h : e.readable inIndex)
    (hpart : part ∈ e.parts) : ∃ inIndex, part.readable inIndex := by
  have hall := eq_all_map (f := readableAll inIndex) id rfl fun _ _ => rfl
  have hlinks := eq_all_map (f := readableLinks inIndex) Prod.snd rfl fun _ _ => rfl
  have hkeys := eq_all_map (f := readableKeys inIndex) Prod.fst rfl fun _ _ => rfl
  have hvalues := eq_all_map (f := readableValues inIndex) Prod.snd rfl fun _ _ => rfl
  cases e with
  | name | number => cases hpart
  | subscript span base index =>
    refine ⟨true, ?_⟩
    rw [List.mem_singleton.mp hpart]
    rw [readable_subscript, Bool.and_eq_true, Bool.and_eq_true] at h
    cases index with
    | tuple _ items => exact h.2.1
    | _ => simpa [components, readableAll] using h.2.1
  | _ =>
    refine ⟨inIndex, ?_⟩
    simp only [readable, hall, hlinks, hkeys, hvalues, Bool.and_eq_true, List.map_id,
      List.all_eq_true] at h
    simp only [parts, List.mem_cons, List.mem_append, List.not_mem_nil, or_false] at hpart
    grind

/-- An expression mentions the field of its subscript, then what its parts mention, and then makes its
own access. -/
theorem Expr.mentions_eq {scope : Scope} {isWrite inIndex : Bool} {e : Expr}
    (h : e.readable inIndex) :
    e.mentions scope isWrite = e.subscripted?.toList.map .touch ++
      e.parts.flatMap (mentions scope false) ++
      (scope.field? e).toList.map (.access · ⟨valuesOf scope.iterators e.index, isWrite⟩) := by
  have hall := eq_flatMap_map (f := mentionsOf scope) id rfl fun _ _ => rfl
  have hlinks := eq_flatMap_map (f := mentionsOfLinks scope) Prod.snd rfl fun _ _ => rfl
  have hkeys := eq_flatMap_map (f := mentionsOfKeys scope) Prod.fst rfl fun _ _ => rfl
  have hvalues := eq_flatMap_map (f := mentionsOfValues scope) Prod.snd rfl fun _ _ => rfl
  cases e with
  | name span text =>
    simp only [mentions, subscripted?, parts, index, Scope.field?, valuesOf]
    split <;> rfl
  | subscript span base index =>
    rw [readable_subscript, Bool.and_eq_true] at h
    obtain ⟨name, hname⟩ := Option.isSome_iff_exists.mp h.1
    rw [mentions_subscript hname]
    cases index <;>
      simp [subscripted?, hname, parts, Scope.field?, Expr.index, components, mentionsOf, mentions]
  | _ => simp [mentions, subscripted?, parts, Scope.field?, hall, hlinks, hkeys, hvalues]

/-! ### Names on the way down -/

/-- What names a field without a subscript is a bare name. -/
theorem Expr.parts_eq_nil_of_field? {scope : Scope} {e : Expr} {name : String}
    (hs : e.subscripted? = none) (h : scope.field? e = some name) : e.parts = [] := by
  cases e with
  | name => rfl
  | _ => simp [Scope.field?, hs] at h

namespace Names

theorem union_singleton_of_mem {names : List String} {name : String} (h : name ∈ names) :
    union names [name] = names := by
  simp [union, insert, h]

theorem union_flatMap_congr {α : Type} {f g : α → List String} {as : List α}
    (h : ∀ a ∈ as, ∀ names, union names (f a) = union names (g a)) (names : List String) :
    union names (as.flatMap f) = union names (as.flatMap g) := by
  induction as generalizing names with
  | nil => rfl
  | cons a as ih =>
    obtain ⟨ha, has⟩ := List.forall_mem_cons.mp h
    rw [List.flatMap_cons, List.flatMap_cons, union_append, union_append, ha, ih has]

end Names

/-- An expression names its fields in the order of their mentions. -/
theorem Expr.union_mentions {scope : Scope} (e : Expr) :
    ∀ {inIndex isWrite : Bool} (names : List String), e.readable inIndex →
      Names.union names ((e.mentions scope isWrite).map Mention.name) =
        Names.union names (e.topDown.filterMap scope.field?) := by
  induction e using induction_on_parts with
  | h e ih =>
    intro inIndex isWrite names h
    have hparts : ∀ names, Names.union names
        (e.parts.flatMap fun part => (part.mentions scope false).map Mention.name) =
        Names.union names (e.parts.flatMap fun part => part.topDown.filterMap scope.field?) := by
      apply Names.union_flatMap_congr
      intro part hpart names
      obtain ⟨inIndex, hreadable⟩ := readable_of_mem_parts h hpart
      exact ih part hpart names hreadable
    rw [mentions_eq h, topDown_eq, List.map_append, List.map_append, List.map_flatMap,
      Names.union_append, Names.union_append, hparts]
    cases hs : e.subscripted? with
    | some name =>
      -- the name is there from the way down on, so that the access adds nothing
      have hfield := (scope.field?_eq_some_iff).mpr (.inl hs)
      have hmem : ∀ more, name ∈ Names.union (Names.insert names name) more := by
        intro more
        exact Names.mem_union.mpr (.inl (Names.mem_insert.mpr (.inr rfl)))
      rw [List.filterMap_cons_some hfield, List.filterMap_flatMap, hfield]
      exact Names.union_singleton_of_mem (hmem _)
    | none =>
      cases hfield : scope.field? e with
      | some name =>
        rw [List.filterMap_cons_some hfield, e.parts_eq_nil_of_field? hs hfield]
        rfl
      | none =>
        rw [List.filterMap_cons_none hfield, List.filterMap_flatMap]
        rfl

/-! ### Accesses on the way up -/

theorem forall₂_flatMap {α β γ : Type} {R : β → γ → Prop} {f : α → List β} {g : α → List γ}
    {as : List α} (h : ∀ a ∈ as, List.Forall₂ R (f a) (g a)) :
    List.Forall₂ R (as.flatMap f) (as.flatMap g) := by
  induction as with
  | nil => exact .nil
  | cons a as ih =>
    obtain ⟨ha, has⟩ := List.forall_mem_cons.mp h
    rw [List.flatMap_cons, List.flatMap_cons]
    exact List.rel_append ha (ih has)

/-- The occurrences of a field in an expression make the accesses to it. -/
theorem Expr.forall₂_makes {scope : Scope} {name : String} (e : Expr) :
    ∀ {inIndex isWrite : Bool}, e.readable inIndex →
      List.Forall₂ (Occurrence.Makes scope.iterators)
        ((e.occurrences isWrite).filter fun o => scope.field? o.expr = some name)
        ((e.mentions scope isWrite).filterMap (Mention.accessTo? name)) := by
  induction e using induction_on_parts with
  | h e ih =>
    intro inIndex isWrite h
    have htouch : (e.subscripted?.toList.map Mention.touch).filterMap
        (Mention.accessTo? name) = [] := by
      cases e.subscripted? <;> rfl
    rw [mentions_eq h, occurrences_eq, List.filter_append, List.filterMap_append,
      List.filterMap_append, htouch, List.nil_append, List.filter_flatMap, List.filterMap_flatMap]
    apply List.rel_append
    · apply forall₂_flatMap
      intro part hpart
      obtain ⟨inIndex, hreadable⟩ := readable_of_mem_parts h hpart
      exact ih part hpart hreadable
    · by_cases hfield : scope.field? e = some name
      · simp only [hfield, List.filter_cons, decide_true, if_true, List.filter_nil]
        simpa [Mention.accessTo?] using ⟨rfl, e.forall₂_index h⟩
      · cases hother : scope.field? e with
        | none => simp [hother]
        | some other =>
          have hne : other ≠ name := fun heq => hfield (heq ▸ hother)
          simp [hother, hne, Mention.accessTo?]

/-! ### Bodies -/

namespace Stmt

theorem mentions_eq_roots {scope : Scope} {s : Stmt} (h : s.readable) :
    s.mentions scope = s.roots.flatMap fun root => root.expr.mentions scope root.isTarget := by
  cases s with
  | assign span targets value =>
    rcases targets with _ | ⟨target, _ | _⟩
    · cases h
    · simp [mentions, roots]
    · cases h
  | augment | eval => simp [mentions, roots]

theorem readable_of_mem_roots {s : Stmt} {root : Occurrence} (h : s.readable)
    (hroot : root ∈ s.roots) : root.expr.readable false := by
  cases s with
  | assign span targets value =>
    rcases targets with _ | ⟨target, _ | _⟩
    · cases h
    · simp only [readable, Bool.and_eq_true] at h
      simp only [roots, List.map_cons, List.map_nil, List.cons_append, List.nil_append,
        List.mem_cons, List.not_mem_nil, or_false] at hroot
      rcases hroot with rfl | rfl
      · exact h.1.2
      · exact h.2
    · cases h
  | augment span target op value =>
    simp only [readable, Bool.and_eq_true] at h
    simp only [roots, List.mem_cons, List.not_mem_nil, or_false] at hroot
    rcases hroot with rfl | rfl
    · exact h.1.2
    · exact h.2
  | eval span value =>
    rw [List.mem_singleton.mp hroot]
    exact h

/-- A statement names its fields in the order of their mentions. -/
theorem union_mentions {scope : Scope} {s : Stmt} (h : s.readable) (names : List String) :
    Names.union names ((s.mentions scope).map Mention.name) =
      Names.union names (s.topDown.filterMap scope.field?) := by
  rw [mentions_eq_roots h, topDown, List.map_flatMap, List.filterMap_flatMap]
  apply Names.union_flatMap_congr
  intro root hroot names
  exact root.expr.union_mentions names (readable_of_mem_roots h hroot)

/-- The occurrences of a field in a statement make the accesses to it. -/
theorem forall₂_makes (scope : Scope) {name : String} {s : Stmt} (h : s.readable) :
    List.Forall₂ (Occurrence.Makes scope.iterators)
      (s.occurrences.filter fun o => scope.field? o.expr = some name)
      ((s.mentions scope).filterMap (Mention.accessTo? name)) := by
  rw [mentions_eq_roots h, occurrences, List.filter_flatMap, List.filterMap_flatMap]
  apply forall₂_flatMap
  intro root hroot
  exact root.expr.forall₂_makes (readable_of_mem_roots h hroot)

end Stmt

namespace Fields

variable {space : Space} {body : List Stmt} {fs : Fields}

/-- The names of the fields are those that the body names, each at its first occurrence. -/
theorem map_name_ofBody (h : Fields.ofBody space body = .ok fs) :
    fs.map Field.name =
      Names.distinct ((body.flatMap Stmt.topDown).filterMap space.scope.field?) := by
  rw [ofBody_eq_ok_iff, after_eq_grouped, List.all_eq_true] at h
  obtain ⟨hreadable, rfl⟩ := h
  have hnames : (grouped (body.flatMap (Stmt.mentions space.scope))).map Field.name =
      Names.distinct ((body.flatMap (Stmt.mentions space.scope)).map Mention.name) := by
    rw [grouped, List.map_map]
    exact List.map_id _
  rw [hnames, Names.distinct, Names.distinct, List.map_flatMap, List.filterMap_flatMap]
  apply Names.union_flatMap_congr
  intro s hs names
  exact Stmt.union_mentions (hreadable s hs) names

theorem nodup_names (h : Fields.ofBody space body = .ok fs) : (fs.map Field.name).Nodup := by
  rw [map_name_ofBody h]
  exact Names.nodup_distinct _

/-- The occurrences of a field in the body make its accesses. -/
theorem forall₂_makes (h : Fields.ofBody space body = .ok fs) {f : Field} (hf : f ∈ fs) :
    List.Forall₂ (Occurrence.Makes space.iterators)
      ((body.flatMap Stmt.occurrences).filter fun o => space.scope.field? o.expr = some f.name)
      f.accesses := by
  rw [ofBody_eq_ok_iff, after_eq_grouped, List.all_eq_true] at h
  obtain ⟨hreadable, rfl⟩ := h
  rw [(mem_grouped.mp hf).2, List.filter_flatMap, List.filterMap_flatMap]
  apply forall₂_flatMap
  intro s hs
  exact Stmt.forall₂_makes space.scope (hreadable s hs)

theorem exists_field_iff (h : Fields.ofBody space body = .ok fs) {name : String} :
    (∃ f ∈ fs, f.name = name) ↔
      ∃ e ∈ body.flatMap Stmt.topDown, space.scope.field? e = some name := by
  rw [← List.mem_map, map_name_ofBody h, Names.mem_distinct, List.mem_filterMap]

theorem accesses_ne_nil (h : Fields.ofBody space body = .ok fs) {f : Field} (hf : f ∈ fs) :
    f.accesses ≠ [] := by
  intro hnil
  obtain ⟨e, he, hfield⟩ := (exists_field_iff h).mp ⟨f, hf, rfl⟩
  obtain ⟨s, hs, he⟩ := List.mem_flatMap.mp he
  obtain ⟨o, ho, rfl⟩ := Stmt.exists_occurrence.mpr he
  have hmakes := forall₂_makes h hf
  rw [hnil, List.forall₂_nil_right_iff, List.filter_eq_nil_iff] at hmakes
  apply hmakes o (List.mem_flatMap.mpr ⟨s, hs, ho⟩)
  simpa using hfield

end Fields

end LoopNest
