import LoopNest.Proofs.CReading
import LoopNest.Proofs.CWriting
import LoopNest.Proofs.ProperTrees

/-!
# The C text of an expression has the tree of the expression

By induction on the expressions of programs, each form is written with its tree. A tuple has no text
of its own and stands only in the brackets of a subscript, so the induction is about the indices that
an expression would be in such brackets. The grammar of C is unambiguous, hence the text of an
expression is read as its tree and as no other.
-/

namespace LoopNest

open Scan

theorem cTextAll_singleton (e : Expr) : cTextAll [e] = e.cText >>= fun t => pure [t] :=
  rfl

theorem Expr.cText_subscript (span : Span) (base index : Expr) :
    (Expr.subscript span base index).cText = do
      let b ← base.cText
      let ts ← cTextAll index.components
      return .subscript b ts := by
  cases index with
  | tuple => rfl
  | _ =>
    simp only [Expr.components, cTextAll_singleton, bind_assoc, pure_bind]
    rfl

theorem cTreesOf?_singleton (e : Expr) : cTreesOf? [e] = e.cTree? >>= fun t => pure [t] :=
  rfl

theorem Expr.cTree?_subscript (span : Span) (base index : Expr) :
    (Expr.subscript span base index).cTree? = do
      let b ← base.cTree?
      let ts ← cTreesOf? index.components
      return .subscript b ts := by
  cases index with
  | tuple => rfl
  | _ =>
    simp only [Expr.components, cTreesOf?_singleton, bind_assoc, pure_bind]
    rfl

theorem Expr.indexed_subscript (span : Span) (base index : Expr) :
    (Expr.subscript span base index).indexed =
      (base.indexed && !index.components.isEmpty && allIndexed index.components) := by
  cases index <;> simp [Expr.indexed, allIndexed, Expr.components]

/-- An expression whose C text, if it has one, is derived with the tree of the expression. -/
def Expr.Translates (e : Expr) : Prop :=
  ∀ t, e.indexed → e.cText = .ok t → ∃ s, e.cTree? = some s ∧ C.Writes t.level t.text s

theorem translated_bind {ε α β : Type} {x : Except ε α} {f : α → Except ε β} {b : β} :
    x >>= f = .ok b ↔ ∃ a, x = .ok a ∧ f a = .ok b := by
  cases x <;> simp [bind, Except.bind]

/-- A tuple has no text of its own. -/
theorem Expr.Translates.of_components {e : Expr} (h : ∀ i ∈ e.components, i.Translates) :
    e.Translates := by
  cases e with
  | tuple => exact fun t _ ht => nomatch ht
  | _ => exact h _ (List.mem_singleton.mpr rfl)

theorem cTextAll_eq_nil {es : List Expr} (h : cTextAll es = .ok []) : es = [] := by
  cases es with
  | nil => rfl
  | cons e es =>
    simp only [cTextAll, translated_bind] at h
    obtain ⟨_, _, _, _, hcons⟩ := h
    cases hcons

theorem cTextLinks_eq_nil {links : List (CompareOp × Expr)} (h : cTextLinks links = .ok []) :
    links = [] := by
  cases links with
  | nil => rfl
  | cons link links =>
    simp only [cTextLinks, translated_bind] at h
    obtain ⟨_, _, _, _, hcons⟩ := h
    cases hcons

theorem exists_of_mem_cTextAll {es : List Expr} {ts : List CText} (h : cTextAll es = .ok ts)
    {t : CText} (ht : t ∈ ts) : ∃ e ∈ es, e.cText = .ok t := by
  induction es generalizing ts with
  | nil =>
    cases h
    cases ht
  | cons e es ih =>
    simp only [cTextAll, translated_bind] at h
    obtain ⟨t', he, ts, hes, hcons⟩ := h
    cases hcons
    rcases List.mem_cons.mp ht with rfl | ht
    · exact ⟨e, List.mem_cons_self, he⟩
    · obtain ⟨e', he', htext⟩ := ih hes ht
      exact ⟨e', List.mem_cons_of_mem e he', htext⟩

theorem exists_of_mem_cTextLinks {links : List (CompareOp × Expr)} {ts : List (CompareOp × CText)}
    (h : cTextLinks links = .ok ts) {t : CompareOp × CText} (ht : t ∈ ts) :
    ∃ link ∈ links, link.2.cText = .ok t.2 := by
  induction links generalizing ts with
  | nil =>
    cases h
    cases ht
  | cons link links ih =>
    obtain ⟨op, e⟩ := link
    simp only [cTextLinks, translated_bind] at h
    obtain ⟨t', he, ts, hlinks, hcons⟩ := h
    cases hcons
    rcases List.mem_cons.mp ht with rfl | ht
    · exact ⟨_, List.mem_cons_self, he⟩
    · obtain ⟨link', hlink', htext⟩ := ih hlinks ht
      exact ⟨link', List.mem_cons_of_mem _ hlink', htext⟩

theorem writes_cTextAll {es : List Expr} {ts : List CText} (h : ∀ e ∈ es, e.Translates)
    (hi : allIndexed es) (ht : cTextAll es = .ok ts) :
    ∃ ss, cTreesOf? es = some ss ∧
      List.Forall₂ (fun t s => C.Writes t.level t.text s) ts ss := by
  induction es generalizing ts with
  | nil =>
    cases ht
    exact ⟨[], rfl, .nil⟩
  | cons e es ih =>
    obtain ⟨he, hes⟩ := List.forall_mem_cons.mp h
    rw [allIndexed, Bool.and_eq_true] at hi
    simp only [cTextAll, translated_bind] at ht
    obtain ⟨t, hte, ts, htes, hcons⟩ := ht
    cases hcons
    obtain ⟨s, hs, hwrites⟩ := he t hi.1 hte
    obtain ⟨ss, hss, hall⟩ := ih hes hi.2 htes
    exact ⟨s :: ss, by simp [cTreesOf?, hs, hss], .cons hwrites hall⟩

theorem writes_cTextLinks {links : List (CompareOp × Expr)} {ts : List (CompareOp × CText)}
    (h : ∀ link ∈ links, link.2.Translates) (hi : linksIndexed links)
    (ht : cTextLinks links = .ok ts) :
    ∃ ss, cLinksOf? links = some ss ∧
      List.Forall₂ (fun t s => t.1 = s.1 ∧ C.Writes t.2.level t.2.text s.2) ts ss := by
  induction links generalizing ts with
  | nil =>
    cases ht
    exact ⟨[], rfl, .nil⟩
  | cons link links ih =>
    obtain ⟨op, e⟩ := link
    obtain ⟨he, hlinks⟩ := List.forall_mem_cons.mp h
    rw [linksIndexed, Bool.and_eq_true] at hi
    simp only [cTextLinks, translated_bind] at ht
    obtain ⟨t, hte, ts, htlinks, hcons⟩ := ht
    cases hcons
    obtain ⟨s, hs, hwrites⟩ := he t hi.1 hte
    obtain ⟨ss, hss, hall⟩ := ih hlinks hi.2 htlinks
    exact ⟨(op, s) :: ss, by simp [cLinksOf?, hs, hss], .cons ⟨rfl, hwrites⟩ hall⟩

theorem isName_pow : IsName "pow" :=
  ⟨'p', ['o', 'w'], rfl, by decide, List.all_eq_true.mp (by decide), by decide⟩

/-- A binary operation that is not a power. -/
theorem C.Writes.arithmetic {op : BinaryOp} {symbol : String} {a b : CText} {s s' : C.Tree}
    (hpow : op ≠ .pow) (hsymbol : CText.symbolOf op = .ok symbol)
    (ha : C.Writes a.level a.text s) (hb : C.Writes b.level b.text s') :
    ∃ u, C.operation? s op s' = some u ∧
      C.Writes (.ofBinary op) (CText.binary (.ofBinary op) symbol a b).text u := by
  have hoperation : C.operation? s op s' = some (.binary s symbol s') ∧
      symbol ∈ C.operators (.ofBinary op) := by
    cases op with
    | pow => exact absurd rfl hpow
    | matMult => cases hsymbol
    | _ =>
      cases hsymbol
      exact ⟨rfl, by decide⟩
  exact ⟨_, hoperation.1, ha.binary hoperation.2 hb⟩

theorem Expr.cText_binary {span : Span} {left right : Expr} {op : BinaryOp} (h : op ≠ .pow) :
    (Expr.binary span left op right).cText = do
      let symbol ← CText.symbolOf op
      let l ← left.cText
      let r ← right.cText
      return .binary (.ofBinary op) symbol l r := by
  cases op with
  | pow => exact absurd rfl h
  | _ => rfl

theorem Expr.cTarget_eq_ok_iff {e : Expr} {t : String} :
    e.cTarget = .ok t ↔ e.form ≠ .tuple ∧ ∃ text, e.cText = .ok text ∧ text.text = t := by
  cases e with
  | tuple => simp [cTarget, form]
  | _ => simp [cTarget, form, translated_bind, pure, Except.pure]

theorem Stmt.cText_augment {span : Span} {target value : Expr} {op : BinaryOp} (h : op ≠ .pow) :
    (Stmt.augment span target op value).cText = do
      let t ← target.cTarget
      let v ← value.cText
      let symbol ← CText.symbolOf op
      return t ++ " " ++ symbol ++ "= " ++ v.text := by
  cases op with
  | pow => exact absurd rfl h
  | _ => rfl

theorem Expr.translates_binary {span : Span} {left right : Expr} {op : BinaryOp}
    (hl : left.Translates) (hr : right.Translates) :
    (Expr.binary span left op right).Translates := by
  intro t hi ht
  rw [Expr.indexed, Bool.and_eq_true] at hi
  by_cases hpow : op = .pow
  · subst hpow
    simp only [Expr.cText, translated_bind] at ht
    obtain ⟨l, hl', r, hr', hcall⟩ := ht
    cases hcall
    obtain ⟨s, hs, hwl⟩ := hl l hi.1 hl'
    obtain ⟨s', hs', hwr⟩ := hr r hi.2 hr'
    have hcall : C.Writes .postfixed (CText.call "pow" ([l, r].map (·.text))).text
        (.call (.name "pow") [s, s']) := .call isName_pow (.cons hwl (.cons hwr .nil))
    exact ⟨.call (.name "pow") [s, s'], by simp [Expr.cTree?, hs, hs', C.operation?], hcall⟩
  · simp only [Expr.cText_binary hpow, translated_bind] at ht
    obtain ⟨symbol, hsymbol, l, hl', r, hr', hbinary⟩ := ht
    cases hbinary
    obtain ⟨s, hs, hwl⟩ := hl l hi.1 hl'
    obtain ⟨s', hs', hwr⟩ := hr r hi.2 hr'
    obtain ⟨u, hu, hwrites⟩ := hwl.arithmetic hpow hsymbol hwr
    exact ⟨u, by simp [Expr.cTree?, hs, hs', hu], hwrites⟩

theorem Expr.Proper.translates {e : Expr} (h : e.Proper) : ∀ i ∈ e.components, i.Translates := by
  induction h with
  | name _ h =>
    refine List.forall_mem_singleton.mpr fun t _ ht => ?_
    cases ht
    exact ⟨_, rfl, .name h⟩
  | number _ h =>
    refine List.forall_mem_singleton.mpr fun t _ ht => ?_
    cases ht
    exact ⟨_, rfl, .number h⟩
  | binary _ op _ _ hl hr =>
    exact List.forall_mem_singleton.mpr (translates_binary (.of_components hl) (.of_components hr))
  | unary _ op _ h =>
    refine List.forall_mem_singleton.mpr fun t hi ht => ?_
    simp only [Expr.cText, translated_bind] at ht
    obtain ⟨t, ht, hunary⟩ := ht
    cases hunary
    obtain ⟨s, hs, hwrites⟩ := Translates.of_components h t hi ht
    exact ⟨_, by simp [Expr.cTree?, hs], hwrites.unary op⟩
  | connect _ op hne _ h =>
    refine List.forall_mem_singleton.mpr fun t hi ht => ?_
    simp only [Expr.cText, translated_bind] at ht
    obtain ⟨ts, hts, hconnect⟩ := ht
    cases hconnect
    obtain ⟨ss, hss, hall⟩ := writes_cTextAll (fun e he => .of_components (h e he)) hi hts
    have hne' : ts ≠ [] := fun hnil => hne (cTextAll_eq_nil (hnil ▸ hts))
    obtain ⟨s, hs, hwrites⟩ := C.Writes.connect op hall hne'
    exact ⟨s, by simp [Expr.cTree?, hss, hs], hwrites⟩
  | compare _ _ hne _ hl h =>
    refine List.forall_mem_singleton.mpr fun t hi ht => ?_
    rw [Expr.indexed, Bool.and_eq_true] at hi
    simp only [Expr.cText, translated_bind] at ht
    obtain ⟨l, hl', ts, hts, hcompare⟩ := ht
    cases hcompare
    obtain ⟨s, hs, hwl⟩ := Translates.of_components hl l hi.1 hl'
    obtain ⟨ss, hss, hall⟩ := writes_cTextLinks (fun e he => .of_components (h e he)) hi.2 hts
    have hne' : ts ≠ [] := fun hnil => hne (cTextLinks_eq_nil (hnil ▸ hts))
    obtain ⟨u, hu, hwrites⟩ := hwl.compare hall hne'
    exact ⟨u, by simp [Expr.cTree?, hs, hss, hu], hwrites⟩
  | call _ hc _ h =>
    refine List.forall_mem_singleton.mpr fun t hi ht => ?_
    simp only [Expr.cText, translated_bind] at ht
    obtain ⟨ts, hts, hcall⟩ := ht
    cases hcall
    obtain ⟨ss, hss, hall⟩ := writes_cTextAll (fun e he => .of_components (h e he)) hi hts
    exact ⟨_, by simp [Expr.cTree?, hss], .call hc hall⟩
  | subscript _ _ _ hb hindex =>
    refine List.forall_mem_singleton.mpr fun t hi ht => ?_
    simp only [Expr.indexed_subscript, Bool.and_eq_true] at hi
    simp only [Expr.cText_subscript, translated_bind] at ht
    obtain ⟨b, hb', ts, hts, hsubscript⟩ := ht
    cases hsubscript
    obtain ⟨s, hs, hwb⟩ := Translates.of_components hb b hi.1.1 hb'
    obtain ⟨ss, hss, hall⟩ := writes_cTextAll hindex hi.2 hts
    have hne : ts ≠ [] := by
      rintro rfl
      simp [cTextAll_eq_nil hts] at hi
    exact ⟨.subscript s ss, by simp [Expr.cTree?_subscript, hs, hss], hwb.subscript hall hne⟩
  | tuple _ _ h => exact fun e he => .of_components (h e he)
  | list | dict => exact List.forall_mem_singleton.mpr fun t _ ht => nomatch ht

/-- The C text of an expression of a program is read as one tree and no other, and that tree is the
one of the expression, up to the association of conjunctions and of disjunctions. -/
theorem Expr.reads_cText_iff {e : Expr} {t : CText} (hp : e.Proper) (hi : e.indexed)
    (h : e.cText = .ok t) :
    ∃ tree source, (∀ u, C.Reads t.text u ↔ u = tree) ∧ e.cTree? = some source ∧
      tree.Alike source := by
  obtain ⟨source, hsource, ws, tree, hspells, hderives, halike, -⟩ :=
    Translates.of_components hp.translates t hi h
  have hreads : C.lexer.Reads () t.text.toList ws () [] := by
    simpa using hspells () [] Lexer.bounded_nil
  have hlevel : C.Derives (.level .or) ws (.tree tree) :=
    hderives.loosen (C.rank_or_le _)
  refine ⟨tree, source, fun u => ⟨?_, ?_⟩, hsource, halike⟩
  · rintro ⟨vs, hvs, hu⟩
    obtain rfl := hreads.unique hvs
    exact hlevel.unique hu
  · rintro rfl
    exact ⟨ws, hreads, hlevel⟩

/-- The expression that a statement is, if it is one alone. -/
def Stmt.expression? : Stmt → Option Expr
  | .eval _ value => some value
  | _ => none

theorem Stmt.Proper.expression {s : Stmt} {e : Expr} (hs : s.Proper) (h : s.expression? = some e) :
    e.Proper := by
  cases hs with
  | eval _ he =>
    cases h
    exact he
  | assign | augment => cases h

/-- An expression whose parentheses are not those of its C text. -/
def mixedExpression : String :=
  "a and (not x & 1 == 0 and i < -(-j) <= n ** 2 // m[i, j % 2])"

theorem Expr.reads_cText_iff_mixed :
    ∃ p s e t, Program.parse mixedExpression = .ok p ∧ s ∈ p.body ∧ s.expression? = some e ∧
      e.Proper ∧ e.indexed ∧ e.cText = .ok t ∧
      t.text = "a && !((x & 1) == 0) && i < -(-j) && -(-j) <= pow(n, 2) / m[i, j % 2]" ∧
      ∃ tree source, (∀ u, C.Reads t.text u ↔ u = tree) ∧ e.cTree? = some source ∧
        tree.Alike source := by
  have hread : (Program.parse mixedExpression).toOption.any fun p => p.body.any fun s =>
      s.expression?.any fun e => e.indexed && e.cText.toOption.any fun t => t.text =
        "a && !((x & 1) == 0) && i < -(-j) && -(-j) <= pow(n, 2) / m[i, j % 2]" := by
    decide +kernel
  obtain ⟨p, s, hp, hs, hexpression⟩ := Program.exists_of_any hread
  obtain ⟨e, he, hcheck⟩ := (Option.any_eq_true ..).mp hexpression
  obtain ⟨hi, htranslated⟩ := Bool.and_eq_true_iff.mp hcheck
  obtain ⟨t, ht, htext⟩ := exists_ok_of_any htranslated
  have hproper : e.Proper := (Program.proper_of_parse hp s hs).expression he
  exact ⟨p, s, e, t, hp, hs, he, hproper, hi, ht, of_decide_eq_true htext,
    reads_cText_iff hproper hi ht⟩

end LoopNest
