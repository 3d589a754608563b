import LoopNest.Proofs.EngineText
import LoopNest.Proofs.ProperTrees

/-!
# What the spaces of programs are made of

A space that is read from a program has names and literals that are spelled as such, its terms call
its own iterators and nothing else iterators, and a relation has a middle term exactly if it has a
right operator. Spans have no part in it.
-/

namespace LoopNest

open Scan

/-- A term that can be written among the given iterators and read back. -/
def Term.Legible (iterators : List String) (t : Term) : Prop :=
  t.Spelled ∧ t.Resolved iterators

theorem isLiteral_minusOne : IsLiteral "-1" := by
  refine .inr ⟨"1", rfl, ['1'], [], [], rfl, ?_, .absent, .absent, by simp⟩
  intro c hc
  rw [List.mem_singleton.mp hc]
  decide

mutual

theorem Expr.spelled_of_term? {iterators : List String} :
    ∀ (e : Expr) {t : Term}, e.Proper → e.term? iterators = some t → t.Spelled
  | .name _ text, t, h, ht => by
    cases h with
    | name _ h =>
      rw [Expr.term?, Option.some.injEq] at ht
      subst ht
      split
      · exact .iterator h
      · exact .constant h
  | .number _ text, t, h, ht => by
    cases h with
    | number _ h =>
      rw [Expr.term?, Option.some.injEq] at ht
      subst ht
      exact .literal (.inl h)
  | .binary _ left op right, t, h, ht => by
    cases h with
    | binary _ _ hl hr =>
      simp only [Expr.term?, Option.bind_eq_bind, Option.bind_eq_some_iff, Option.pure_def,
        Option.some.injEq] at ht
      obtain ⟨l, htl, o, -, r, htr, rfl⟩ := ht
      exact .arith o (left.spelled_of_term? hl htl) (right.spelled_of_term? hr htr)
  | .unary _ .neg operand, t, h, ht => by
    cases h with
    | unary _ _ h =>
      by_cases hn : operand.form = .number
      · cases h with
        | number _ h =>
          rw [Expr.term?, Option.some.injEq] at ht
          subst ht
          exact .literal (.inr ⟨_, rfl, h⟩)
        | _ => simp [Expr.form] at hn
      · rw [Expr.term?_neg _ _ hn] at ht
        obtain ⟨u, hu, rfl⟩ := Option.map_eq_some_iff.mp ht
        exact .arith _ (.literal isLiteral_minusOne) (operand.spelled_of_term? h hu)
  | .unary _ .pos operand, t, h, ht => by
    cases h with
    | unary _ _ h =>
      rw [Expr.term?] at ht
      exact operand.spelled_of_term? h ht
  | .call _ callee args, t, h, ht => by
    cases h with
    | call _ hc h =>
      rw [Expr.term?] at ht
      obtain ⟨ts, hts, rfl⟩ := Option.map_eq_some_iff.mp ht
      exact .apply hc (spelled_of_termsOf? args h hts)
  | .unary _ .not _, _, _, ht | .unary _ .invert _, _, _, ht | .connect .., _, _, ht
  | .compare .., _, _, ht | .subscript .., _, _, ht | .tuple .., _, _, ht | .list .., _, _, ht
  | .dict .., _, _, ht => by
    simp [Expr.term?] at ht

theorem spelled_of_termsOf? {iterators : List String} :
    ∀ (es : List Expr) {ts : List Term}, (∀ e ∈ es, e.Proper) → termsOf? iterators es = some ts →
      ∀ t ∈ ts, t.Spelled
  | [], ts, _, hts => by
    rw [termsOf?, Option.some.injEq] at hts
    simp [← hts]
  | e :: es, ts, h, hts => by
    simp only [termsOf?, Option.bind_eq_bind, Option.bind_eq_some_iff, Option.pure_def,
      Option.some.injEq] at hts
    obtain ⟨t, ht, us, hus, rfl⟩ := hts
    obtain ⟨he, hes⟩ := List.forall_mem_cons.mp h
    exact List.forall_mem_cons.mpr ⟨e.spelled_of_term? he ht, spelled_of_termsOf? es hes hus⟩

end

theorem Expr.legible_of_term? {iterators : List String} (e : Expr) {t : Term} (h : e.Proper)
    (ht : e.term? iterators = some t) : t.Legible iterators :=
  ⟨e.spelled_of_term? h ht, e.resolved_of_term? ht⟩

/-- A chain all of whose terms can be written and read back. -/
def Links.Legible (iterators : List String) (chain : Links) : Prop :=
  chain.1.Legible iterators ∧ ∀ l ∈ chain.2, ∀ t ∈ l.2.terms, t.Legible iterators

/-- The terms of comparands have what the terms of their expressions have. -/
theorem forall_terms_of_comparands? {iterators : List String} {Q : Expr → Prop} {P : Term → Prop}
    (hterm : ∀ (e : Expr) (t : Term), Q e → e.term? iterators = some t → P t)
    (hsides : ∀ span left right, Q (.binary span left .bitXor right) → Q left ∧ Q right)
    {links : List (CompareOp × Expr)} {cs : List (CompareOp × Chain.Comparand)}
    (h : ∀ link ∈ links, Q link.2) (hcs : comparands? iterators links = some cs) :
    ∀ l ∈ cs, ∀ t ∈ l.2.terms, P t := by
  induction links using comparands?.induct generalizing cs with
  | case1 =>
    cases hcs
    simp
  | case2 op span left right links ih =>
    obtain ⟨close, reopen, rest, hclose, hreopen, hrest, rfl⟩ :=
      comparands?_joint_eq_some_iff.mp hcs
    obtain ⟨hlink, hlinks⟩ := List.forall_mem_cons.mp h
    obtain ⟨hl, hr⟩ := hsides span left right hlink
    have hterms : ∀ t ∈ [close, reopen], P t := by
      simpa using ⟨hterm left close hl hclose, hterm right reopen hr hreopen⟩
    exact List.forall_mem_cons.mpr ⟨hterms, ih hlinks hrest⟩
  | case3 op e links he ih =>
    obtain ⟨t, rest, ht, hrest, rfl⟩ := (comparands?_single_eq_some_iff he).mp hcs
    obtain ⟨hlink, hlinks⟩ := List.forall_mem_cons.mp h
    have hterms : ∀ t' ∈ [t], P t' := by simpa using hterm e t hlink ht
    exact List.forall_mem_cons.mpr ⟨hterms, ih hlinks hrest⟩

theorem legible_of_comparands? {iterators : List String} {links : List (CompareOp × Expr)}
    {cs : List (CompareOp × Chain.Comparand)} (h : ∀ link ∈ links, link.2.Proper)
    (hcs : comparands? iterators links = some cs) :
    ∀ l ∈ cs, ∀ t ∈ l.2.terms, t.Legible iterators := by
  refine forall_terms_of_comparands? (fun e _ => e.legible_of_term?) ?_ h hcs
  intro span left right h
  cases h with
  | binary _ _ hl hr => exact ⟨hl, hr⟩

mutual

theorem Expr.legible_of_chains? {iterators : List String} :
    ∀ (e : Expr) {chains : List Links}, e.Proper → e.chains? iterators = some chains →
      ∀ chain ∈ chains, chain.Legible iterators
  | .compare _ left links, chains, h, hc => by
    cases h with
    | compare _ hl _ h =>
      simp only [Expr.chains?, Option.bind_eq_bind, Option.bind_eq_some_iff, Option.pure_def,
        Option.some.injEq] at hc
      obtain ⟨t, ht, cs, hcs, rfl⟩ := hc
      simpa using ⟨left.legible_of_term? hl ht, legible_of_comparands? h hcs⟩
  | .connect _ .and values, chains, h, hc => by
    cases h with
    | connect _ _ _ h =>
      rw [Expr.chains?] at hc
      exact legible_of_chainsOf? values h hc
  | .connect _ .or _, _, _, hc | .name .., _, _, hc | .number .., _, _, hc | .binary .., _, _, hc
  | .unary .., _, _, hc | .call .., _, _, hc | .subscript .., _, _, hc | .tuple .., _, _, hc
  | .list .., _, _, hc | .dict .., _, _, hc => by
    simp [Expr.chains?] at hc

theorem legible_of_chainsOf? {iterators : List String} :
    ∀ (es : List Expr) {chains : List Links}, (∀ e ∈ es, e.Proper) →
      chainsOf? iterators es = some chains → ∀ chain ∈ chains, chain.Legible iterators
  | [], chains, _, hc => by
    rw [chainsOf?, Option.some.injEq] at hc
    simp [← hc]
  | e :: es, chains, h, hc => by
    simp only [chainsOf?, Option.bind_eq_bind, Option.bind_eq_some_iff, Option.pure_def,
      Option.some.injEq] at hc
    obtain ⟨first, hfirst, more, hmore, rfl⟩ := hc
    obtain ⟨he, hes⟩ := List.forall_mem_cons.mp h
    exact List.forall_mem_append.mpr
      ⟨e.legible_of_chains? he hfirst, legible_of_chainsOf? es hes hmore⟩

end

/-! ### Relations -/

/-- A relation between terms with a property, with a middle term exactly if it has a right
operator. -/
def Relation.Over (P : Term → Prop) (r : Relation) : Prop :=
  (∀ t ∈ r.terms, P t) ∧ r.mid.isSome = r.rightOp.isSome

namespace Chain

/-- A pending relation between terms with a property. -/
structure Pending.Over (P : Term → Prop) (p : Pending) : Prop where
  left : P p.left
  mid : ∀ t ∈ p.mid, P t
  whole : p.mid.isSome = p.rightOp.isSome
  added : ∀ a ∈ p.added, P a.2

theorem Pending.Over.begin {P : Term → Prop} {t : Term} (h : P t) (id : Nat) :
    (Pending.begin id t).Over P :=
  ⟨h, by simp [Pending.begin], rfl, by simp [Pending.begin]⟩

theorem Pending.Over.between {P : Term → Prop} {p : Pending} (h : p.Over P) {t : Term} (ht : P t)
    (op : CompareOp) : (p.between t op).Over P :=
  ⟨h.left, by simpa [Pending.between] using ht, rfl, h.added⟩

theorem Pending.Over.withRight {P : Term → Prop} {p : Pending} (h : p.Over P) {t : Term} (ht : P t)
    (op : CompareOp) : (p.withRight op t).Over P :=
  ⟨h.left, h.mid, h.whole, by simpa [Pending.withRight] using ht⟩

theorem Pending.Over.close {P : Term → Prop} {p : Pending} (h : p.Over P) {t : Term} (ht : P t)
    (op : CompareOp) : (p.close op t).Over P := by
  refine ⟨?_, h.whole⟩
  intro u hu
  simp only [Relation.terms, Pending.close, List.mem_cons, List.mem_append,
    Option.mem_toList] at hu
  rcases hu with (rfl | hu) | rfl | hu
  · exact h.left
  · exact h.mid u hu
  · exact ht
  · cases hu

theorem Pending.Over.stored {P : Term → Prop} {p : Pending} (h : p.Over P) :
    ∀ r ∈ p.stored, r.Over P := by
  unfold Pending.stored
  split
  · next op t hadded => simpa using h.close (h.added _ hadded) op
  · simp

theorem Pending.Over.extend {P : Term → Prop} {p : Pending} (h : p.Over P) {t : Term} (ht : P t)
    (op : CompareOp) : (extend p op t).Over P := by
  unfold Chain.extend
  split
  · next leftOp right hadded => exact (h.between (h.added _ hadded) op).close ht leftOp
  · exact h.close ht op

/-- The relations of a chain have no terms but those of the chain. -/
theorem settle_over {P : Term → Prop} {p : Pending} {links : List (CompareOp × Comparand)}
    (hp : p.Over P) (h : ∀ l ∈ links, ∀ t ∈ l.2.terms, P t) : ∀ r ∈ settle p links, r.Over P := by
  fun_induction settle p links with
  | case1 p => exact hp.stored
  | case2 p op t =>
    have ht : P t := h _ List.mem_cons_self t (by simp [Comparand.terms])
    simpa using hp.extend ht op
  | case3 p => exact hp.stored
  | case4 p op next rest s t ih =>
    simp only [List.forall_mem_cons, Comparand.terms] at h
    exact ih ((hp.between h.1.1 next).withRight h.2.1.1 op) h.2.2
  | case5 p op next rest s close reopen ih =>
    simp only [List.forall_mem_cons, Comparand.terms] at h
    exact List.forall_mem_cons.mpr
      ⟨(hp.between h.1.1 next).close h.2.1.1 op, ih (.begin h.2.1.2.1 _) h.2.2⟩
  | case6 p op next rest close reopen t ih =>
    simp only [List.forall_mem_cons, Comparand.terms] at h
    exact List.forall_mem_cons.mpr
      ⟨hp.close h.1.1 op, ih ((Pending.Over.begin h.1.2.1 _).withRight h.2.1.1 next) h.2.2⟩
  | case7 p op next rest close reopen close' reopen' ih =>
    simp only [List.forall_mem_cons, Comparand.terms] at h
    exact List.forall_mem_cons.mpr ⟨hp.close h.1.1 op, List.forall_mem_cons.mpr
      ⟨(Pending.Over.begin h.1.2.1 _).close h.2.1.1 next, ih (.begin h.2.1.2.1 _) h.2.2⟩⟩

end Chain

theorem settleAll_over {P : Term → Prop} {chains : List Links} {id free : Nat} {rs : List Relation}
    (h : ∀ chain ∈ chains, P chain.1 ∧ ∀ l ∈ chain.2, ∀ t ∈ l.2.terms, P t)
    (hs : settleAll id chains = some (rs, free)) : ∀ r ∈ rs, r.Over P := by
  induction chains generalizing id rs with
  | nil =>
    cases hs
    simp
  | cons chain chains ih =>
    obtain ⟨t, links⟩ := chain
    obtain ⟨added, next, more, -, hmore, rfl⟩ := settleAll_cons_eq_some_iff.mp hs
    obtain ⟨hchain, hchains⟩ := List.forall_mem_cons.mp h
    exact List.forall_mem_append.mpr
      ⟨Chain.settle_over (.begin hchain.1 id) hchain.2, ih hchains hmore⟩

/-! ### Spaces -/

/-- A space that can be written and read back. -/
structure Space.Legible (s : Space) : Prop where
  name : IsName s.name
  iterators : ∀ i ∈ s.iterators, IsName i
  nodup : s.iterators.Nodup
  relations : ∀ r ∈ s.relations, r.Over (Term.Legible s.iterators)

theorem forall_mem_of_mapM {α β : Type} {f : α → Option β} {P : β → Prop} {as : List α}
    {bs : List β} (hf : ∀ a ∈ as, ∀ b, f a = some b → P b) (h : as.mapM f = some bs) :
    ∀ b ∈ bs, P b := by
  induction as generalizing bs with
  | nil =>
    cases h
    simp
  | cons a as ih =>
    simp only [List.mapM_cons, Option.bind_eq_bind, Option.bind_eq_some_iff, Option.pure_def,
      Option.some.injEq] at h
    obtain ⟨b, hb, cs, hcs, rfl⟩ := h
    obtain ⟨ha, has⟩ := List.forall_mem_cons.mp hf
    exact List.forall_mem_cons.mpr ⟨ha b hb, ih has hcs⟩

theorem isName_of_mapM_name? {es : List Expr} {names : List String} (h : ∀ e ∈ es, e.Proper)
    (hn : es.mapM Expr.name? = some names) : ∀ name ∈ names, IsName name := by
  refine forall_mem_of_mapM (fun e he name hname => ?_) hn
  cases h e he with
  | name _ hspelled =>
    cases hname
    exact hspelled
  | _ => cases hname

theorem isName_of_keyNames? {entries : List (Expr × Expr)} {names : List String}
    (h : ∀ entry ∈ entries, entry.1.Proper) (hn : keyNames? entries = some names) :
    ∀ name ∈ names, IsName name := by
  induction entries generalizing names with
  | nil =>
    cases hn
    simp
  | cons entry entries ih =>
    obtain ⟨key, value⟩ := entry
    obtain ⟨hkey, hkeys⟩ := List.forall_mem_cons.mp h
    cases hkey with
    | list _ hitems | tuple _ hitems =>
      simp only [keyNames?, Option.bind_eq_bind, Option.bind_eq_some_iff, Option.pure_def,
        Option.some.injEq] at hn
      obtain ⟨first, hfirst, more, hmore, rfl⟩ := hn
      exact List.forall_mem_append.mpr ⟨isName_of_mapM_name? hitems hfirst, ih hkeys hmore⟩
    | _ => simp [keyNames?] at hn

/-- The spaces of programs can be written and read back. -/
theorem Space.legible_of_spaceFrom? {s : Stmt} {space : Space} {id free : Nat} (h : s.Proper)
    (hs : s.spaceFrom? id = some (space, free)) : space.Legible := by
  unfold Stmt.spaceFrom? at hs
  split at hs
  · cases h with
    | assign _ htargets hvalue =>
      cases hvalue with
      | dict _ hkeys hvalues =>
        simp only [Option.bind_eq_bind, Option.bind_eq_some_iff, Option.pure_def,
          Option.some.injEq, Prod.mk.injEq] at hs
        obtain ⟨_, -, names, hnames, chains, hchains, ⟨rs, free⟩, hsettle, rfl, rfl⟩ := hs
        have hlegible := legible_of_chainsOf? _ (List.forall_mem_map.mpr hvalues) hchains
        refine ⟨?_, ?_, Names.nodup_distinct names, settleAll_over hlegible hsettle⟩
        · cases htargets _ List.mem_cons_self with
          | name _ h => exact h
        · intro i hi
          exact isName_of_keyNames? hkeys hnames i (Names.mem_distinct.mp hi)
  · cases hs

theorem Space.legible_of_space? {s : Stmt} {space : Space} (h : s.Proper)
    (hs : s.space? = some space) : space.Legible := by
  rw [s.space?_eq_map] at hs
  obtain ⟨⟨_, free⟩, hfrom, rfl⟩ := Option.map_eq_some_iff.mp hs
  exact legible_of_spaceFrom? h hfrom

/-! ### Spans -/

mutual

theorem Expr.term?_bare (iterators : List String) :
    ∀ e : Expr, e.bare.term? iterators = e.term? iterators
  | .name .. => by rw [Expr.bare, Expr.term?, Expr.term?]
  | .number .. => by rw [Expr.bare, Expr.term?, Expr.term?]
  | .binary _ left op right => by
    rw [Expr.bare, Expr.term?, Expr.term?, left.term?_bare, right.term?_bare]
  | .unary _ .neg operand => by
    by_cases hn : operand.form = .number
    · cases operand with
      | number => simp [Expr.bare, Expr.term?]
      | _ => simp [Expr.form] at hn
    · have hbare : operand.bare.form ≠ .number := by
        cases operand <;> simp_all [Expr.bare, Expr.form]
      rw [Expr.bare, Expr.term?_neg _ _ hbare, Expr.term?_neg _ _ hn, operand.term?_bare]
  | .unary _ .pos operand => by rw [Expr.bare, Expr.term?, Expr.term?, operand.term?_bare]
  | .unary _ .not _ | .unary _ .invert _ => by simp [Expr.bare, Expr.term?]
  | .call _ callee args => by rw [Expr.bare, Expr.term?, Expr.term?, termsOf?_bareAll]
  | .connect .. | .compare .. | .subscript .. | .tuple .. | .list .. | .dict .. => by
    simp [Expr.bare, Expr.term?]

theorem termsOf?_bareAll (iterators : List String) :
    ∀ es : List Expr, termsOf? iterators (bareAll es) = termsOf? iterators es
  | [] => by rw [bareAll]
  | e :: es => by rw [bareAll, termsOf?, termsOf?, e.term?_bare, termsOf?_bareAll]

end

theorem comparands?_bareLinks (iterators : List String) (links : List (CompareOp × Expr)) :
    comparands? iterators (bareLinks links) = comparands? iterators links := by
  fun_induction comparands? iterators links with
  | case1 => rw [bareLinks, comparands?]
  | case2 op span left right links ih =>
    rw [bareLinks, Expr.bare, comparands?, ih, left.term?_bare, right.term?_bare]
  | case3 op e links he ih =>
    have hbare : ∀ span left right, e.bare = .binary span left .bitXor right → False := by
      intro span left right h
      cases e with
      | binary =>
        rw [Expr.bare] at h
        cases h
        exact he _ _ _ rfl
      | _ => simp [Expr.bare] at h
    rw [bareLinks, comparands?.eq_3 _ _ _ _ hbare, ih, e.term?_bare]

mutual

theorem Expr.chains?_bare (iterators : List String) :
    ∀ e : Expr, e.bare.chains? iterators = e.chains? iterators
  | .compare _ left links => by
    rw [Expr.bare, Expr.chains?, Expr.chains?, left.term?_bare, comparands?_bareLinks]
  | .connect _ .and values => by rw [Expr.bare, Expr.chains?, Expr.chains?, chainsOf?_bareAll]
  | .connect _ .or _ | .name .. | .number .. | .binary .. | .unary .. | .call .. | .subscript ..
  | .tuple .. | .list .. | .dict .. => by
    simp [Expr.bare, Expr.chains?]

theorem chainsOf?_bareAll (iterators : List String) :
    ∀ es : List Expr, chainsOf? iterators (bareAll es) = chainsOf? iterators es
  | [] => by rw [bareAll]
  | e :: es => by rw [bareAll, chainsOf?, chainsOf?, e.chains?_bare, chainsOf?_bareAll]

end

theorem mapM_name?_bareAll (es : List Expr) :
    (bareAll es).mapM Expr.name? = es.mapM Expr.name? := by
  induction es with
  | nil => rw [bareAll]
  | cons e es ih =>
    have hname : e.bare.name? = e.name? := by cases e <;> simp [Expr.bare, Expr.name?]
    rw [bareAll, List.mapM_cons, List.mapM_cons, hname, ih]

theorem keyNames?_bareEntries (entries : List (Expr × Expr)) :
    keyNames? (bareEntries entries) = keyNames? entries := by
  induction entries with
  | nil => rw [bareEntries]
  | cons entry entries ih =>
    obtain ⟨key, value⟩ := entry
    cases key <;> simp [bareEntries, Expr.bare, keyNames?, ih, mapM_name?_bareAll]

theorem map_snd_bareEntries (entries : List (Expr × Expr)) :
    (bareEntries entries).map Prod.snd = bareAll (entries.map Prod.snd) := by
  induction entries with
  | nil => simp [bareEntries, bareAll]
  | cons entry entries ih => simp [bareEntries, bareAll, ih]

/-- The space of a header does not depend on its spans. -/
theorem Stmt.spaceFrom?_bare (id : Nat) (s : Stmt) : s.bare.spaceFrom? id = s.spaceFrom? id := by
  cases s with
  | augment => simp [bare, spaceFrom?]
  | eval => simp [bare, spaceFrom?]
  | assign span targets value =>
    rcases targets with _ | ⟨t, _ | ⟨u, us⟩⟩
    · simp [bare, bareAll, spaceFrom?]
    · cases t with
      | name _ name =>
        cases value with
        | dict _ entries =>
          simp [bare, bareAll, Expr.bare, spaceFrom?, keyNames?_bareEntries, map_snd_bareEntries,
            chainsOf?_bareAll]
        | _ => simp [bare, bareAll, Expr.bare, spaceFrom?]
      | _ => simp [bare, bareAll, Expr.bare, spaceFrom?]
    · simp [bare, bareAll, spaceFrom?]

theorem Stmt.space?_bare (s : Stmt) : s.bare.space? = s.space? := by
  rw [space?_eq_map, space?_eq_map, spaceFrom?_bare]

end LoopNest
