import LoopNest.Proofs.Subexpressions
import LoopNest.Proofs.TreeParsing
import LoopNest.Proofs.UnitTexts

/-!
# Which statements have no C text

C has no lists, no dict displays, no matrix product and no tuples, but a tuple that is the index of a
subscript is written as its items. Nothing else keeps an expression from having a text, so an
expression has one exactly if nothing of this kind occurs in it, at any depth. A statement also needs
one target that is no tuple.
-/

namespace LoopNest

namespace Expr

/-- The children of an expression other than the index of a subscript. -/
def unindexed : Expr → List Expr
  | .subscript _ base _ => [base]
  | e => e.children

/-- Displays and matrix products have no C text wherever they stand. -/
def isForeign : Expr → Bool
  | .list .. | .dict .. | .binary _ _ .matMult _ => true
  | _ => false

/-- The expressions whose texts the text of an expression is made of. -/
def rendered : Expr → List Expr
  | .subscript _ base index => base :: index.components
  | e => e.children

def HasText (e : Expr) : Prop :=
  ∃ t, e.cText = .ok t

theorem unindexed_of_form {e : Expr} (h : e.form ≠ .subscript) : e.unindexed = e.children := by
  cases e with
  | subscript => exact absurd rfl h
  | _ => rfl

theorem rendered_of_form {e : Expr} (h : e.form ≠ .subscript) : e.rendered = e.children := by
  cases e with
  | subscript => exact absurd rfl h
  | _ => rfl

end Expr

/-! ### Expressions -/

section Except

variable {ε α β : Type} {x : Except ε α}

/-- Two steps succeed if both do, where the outcome of the second depends on no result. -/
theorem exists_bind_iff {f : α → Except ε β} {P : Prop} (hf : ∀ a, (∃ b, f a = .ok b) ↔ P) :
    (∃ b, x >>= f = .ok b) ↔ (∃ a, x = .ok a) ∧ P := by
  simp only [translated_bind]
  constructor
  · rintro ⟨b, a, ha, hb⟩
    exact ⟨⟨a, ha⟩, (hf a).mp ⟨b, hb⟩⟩
  · rintro ⟨⟨a, ha⟩, hP⟩
    obtain ⟨b, hb⟩ := (hf a).mpr hP
    exact ⟨b, a, ha, hb⟩

theorem exists_bind_pure_iff {f : α → β} :
    (∃ b, (x >>= fun a => pure (f a)) = .ok b) ↔ ∃ a, x = .ok a := by
  have hpure : ∀ a, (∃ b, (pure (f a) : Except ε β) = .ok b) ↔ True :=
    fun a => iff_true_intro ⟨f a, rfl⟩
  rw [exists_bind_iff hpure, and_true]

/-- What has no result fails. -/
theorem exists_error_iff : (∃ err, x = .error err) ↔ ¬ ∃ a, x = .ok a := by
  cases x <;> simp

end Except

theorem exists_cTextAll_iff {es : List Expr} :
    (∃ ts, cTextAll es = .ok ts) ↔ ∀ e ∈ es, e.HasText := by
  induction es with
  | nil => simp [cTextAll]
  | cons e es ih =>
    rw [List.forall_mem_cons, ← ih]
    exact exists_bind_iff fun t => exists_bind_pure_iff

theorem exists_cTextLinks_iff {links : List (CompareOp × Expr)} :
    (∃ ts, cTextLinks links = .ok ts) ↔ ∀ e ∈ links.map Prod.snd, e.HasText := by
  induction links with
  | nil => simp [cTextLinks]
  | cons link links ih =>
    rw [List.map_cons, List.forall_mem_cons, ← ih]
    exact exists_bind_iff fun t => exists_bind_pure_iff

theorem CText.exists_symbolOf_iff {op : BinaryOp} :
    (∃ symbol, symbolOf op = .ok symbol) ↔ op ≠ .matMult := by
  cases op <;> simp [symbolOf]

namespace Expr

theorem hasText_binary_iff {span : Span} {left right : Expr} {op : BinaryOp} :
    (Expr.binary span left op right).HasText ↔ op ≠ .matMult ∧ left.HasText ∧ right.HasText := by
  by_cases hpow : op = .pow
  · subst hpow
    rw [HasText, Expr.cText, exists_bind_iff fun l => exists_bind_pure_iff]
    simp [HasText]
  · rw [HasText, Expr.cText_binary hpow, ← CText.exists_symbolOf_iff]
    exact exists_bind_iff fun symbol => exists_bind_iff fun l => exists_bind_pure_iff

/-- An expression has a text if it is no tuple and not foreign and all that it is made of has one. -/
theorem hasText_iff {e : Expr} :
    e.HasText ↔ e.form ≠ .tuple ∧ e.isForeign = false ∧ ∀ part ∈ e.rendered, part.HasText := by
  cases e with
  | name | number => simp [HasText, cText, form, isForeign, rendered, children]
  | binary span left op right =>
    rw [hasText_binary_iff]
    cases op <;> simp [form, isForeign, rendered, children]
  | unary span op operand =>
    rw [HasText, cText, exists_bind_pure_iff]
    simp [form, isForeign, rendered, children, HasText]
  | connect span op values =>
    rw [HasText, cText, exists_bind_pure_iff, exists_cTextAll_iff]
    simp [form, isForeign, rendered, children]
  | compare span left links =>
    rw [HasText, cText, exists_bind_iff fun l => exists_bind_pure_iff, exists_cTextLinks_iff]
    simp [form, isForeign, rendered, children, HasText]
  | call span callee args =>
    rw [HasText, cText, exists_bind_pure_iff, exists_cTextAll_iff]
    simp [form, isForeign, rendered, children]
  | subscript span base index =>
    rw [HasText, cText_subscript, exists_bind_iff fun b => exists_bind_pure_iff,
      exists_cTextAll_iff]
    simp [form, isForeign, rendered, HasText]
  | tuple | list | dict => simp [HasText, cText, form, isForeign]

/-- Nothing foreign occurs in an expression, and no tuple in it is anything but an index. The
expression itself may be a tuple. -/
def Clean (e : Expr) : Prop :=
  ∀ inner : Expr, inner.Occurs e →
    inner.isForeign = false ∧ ∀ part ∈ inner.unindexed, part.form ≠ .tuple

theorem clean_iff {e : Expr} : e.Clean ↔
    (e.isForeign = false ∧ ∀ part ∈ e.unindexed, part.form ≠ .tuple) ∧
      ∀ child ∈ e.children, child.Clean :=
  forall_occurs_iff

theorem clean_subscript_iff {span : Span} {base index : Expr} :
    (Expr.subscript span base index).Clean ↔ base.form ≠ .tuple ∧ base.Clean ∧ index.Clean := by
  rw [clean_iff]
  simp [isForeign, unindexed, children]

/-- Outside of subscripts every child has to be clean and no tuple. -/
theorem clean_iff_of_form {e : Expr} (h : e.form ≠ .subscript) :
    e.Clean ↔ e.isForeign = false ∧ ∀ child ∈ e.children, child.form ≠ .tuple ∧ child.Clean := by
  rw [clean_iff, unindexed_of_form h, and_assoc, ← forall₂_and]

/-- What an expression is written as, on its own and in the brackets of a subscript. -/
theorem hasText_iff_clean (e : Expr) :
    (e.HasText ↔ e.form ≠ .tuple ∧ e.Clean) ∧ ((∀ i ∈ e.components, i.HasText) ↔ e.Clean) := by
  induction e using induction_on_children with
  | h e ih =>
    have hchildren : (∀ child ∈ e.children, child.HasText) ↔
        ∀ child ∈ e.children, child.form ≠ .tuple ∧ child.Clean :=
      forall₂_congr fun child hchild => (ih child hchild).1
    have hown : e.HasText ↔ e.form ≠ .tuple ∧ e.Clean := by
      rw [hasText_iff]
      cases e with
      | subscript span base index =>
        have hbase := (ih base (by simp [children])).1
        have hindex := (ih index (by simp [children])).2
        simp [clean_subscript_iff, rendered, isForeign, form, hbase, hindex, and_assoc]
      | _ =>
        rw [rendered_of_form (by simp [form]), clean_iff_of_form (by simp [form]), hchildren]
    refine ⟨hown, ?_⟩
    cases e with
    | tuple span items =>
      rw [clean_iff_of_form (by simp [form])]
      simpa [components, isForeign, children] using hchildren
    | _ => simpa [components, form] using hown

end Expr

/-! ### Statements -/

namespace Stmt

/-- A matrix product that is assigned to its first operand. -/
def isProduct : Stmt → Bool
  | .augment _ _ .matMult _ => true
  | _ => false

/-- An expression that stands in a statement elsewhere than as the index of a subscript. -/
def HasUnindexed (s : Stmt) (e : Expr) : Prop :=
  e ∈ s.children ∨ ∃ parent, s.Contains parent ∧ e ∈ parent.unindexed

/-- What keeps a statement from having a C text. -/
inductive Untranslatable (s : Stmt) : Prop where
  | targets (h : 1 < s.targets.length)
  | tupleTarget {target : Expr} (ht : target ∈ s.targets) (h : target.form = .tuple)
  | product (h : s.isProduct)
  | foreign {e : Expr} (he : s.Contains e) (h : e.isForeign)
  | tuple {e : Expr} (he : s.HasUnindexed e) (h : e.form = .tuple)

/-- Nothing keeps a statement from having a text if it has at most one target, assigns no matrix
product, and is made of clean expressions other than tuples. -/
theorem not_untranslatable_iff {s : Stmt} :
    ¬ s.Untranslatable ↔ s.targets.length ≤ 1 ∧ s.isProduct = false ∧
      ∀ e ∈ s.children, e.form ≠ .tuple ∧ e.Clean := by
  constructor
  · intro hs
    refine ⟨Nat.le_of_not_lt fun h => hs (.targets h), Bool.eq_false_iff.mpr fun h => hs (.product h),
      fun e he => ⟨fun h => hs (.tuple (.inl he) h), fun inner hinner => ⟨?_, ?_⟩⟩⟩
    · exact Bool.eq_false_iff.mpr fun h => hs (.foreign ⟨e, he, hinner⟩ h)
    · exact fun part hpart h => hs (.tuple (.inr ⟨inner, ⟨e, he, hinner⟩, hpart⟩) h)
  · rintro ⟨htargets, hproduct, hchildren⟩ hs
    cases hs with
    | targets h => exact Nat.not_lt.mpr htargets h
    | tupleTarget ht h => exact (hchildren _ (List.mem_append_left _ ht)).1 h
    | product h => exact Bool.eq_false_iff.mp hproduct h
    | foreign he h =>
      obtain ⟨root, hroot, hocc⟩ := he
      exact Bool.eq_false_iff.mp ((hchildren root hroot).2 _ hocc).1 h
    | tuple he h =>
      rcases he with he | ⟨parent, ⟨root, hroot, hocc⟩, he⟩
      · exact (hchildren _ he).1 h
      · exact ((hchildren root hroot).2 parent hocc).2 _ he h

theorem exists_cTarget_iff {e : Expr} : (∃ t, e.cTarget = .ok t) ↔ e.HasText := by
  simp only [Expr.cTarget_eq_ok_iff, Expr.HasText]
  constructor
  · rintro ⟨_, -, text, htext, rfl⟩
    exact ⟨text, htext⟩
  · rintro ⟨text, htext⟩
    exact ⟨text.text, (Expr.hasText_iff.mp ⟨text, htext⟩).1, text, htext, rfl⟩

/-- A statement with at least the target that it needs has a text if it has no other target, assigns
no matrix product, and all that it is made of has a text. -/
theorem exists_cText_iff {s : Stmt} (hs : ∀ span value, s ≠ .assign span [] value) :
    (∃ t, s.cText = .ok t) ↔
      s.targets.length ≤ 1 ∧ s.isProduct = false ∧ ∀ e ∈ s.children, e.HasText := by
  rw [forall_children_iff]
  cases s with
  | eval span value =>
    rw [cText, exists_bind_pure_iff]
    simp [targets, isProduct, Stmt.value, Expr.HasText]
  | augment span target op value =>
    by_cases hpow : op = .pow
    · subst hpow
      rw [cText, exists_bind_iff fun t => exists_bind_pure_iff, exists_cTarget_iff]
      simp [targets, isProduct, Stmt.value, Expr.HasText]
    · rw [cText_augment hpow, exists_bind_iff fun t => exists_bind_iff fun v => exists_bind_pure_iff,
        exists_cTarget_iff, CText.exists_symbolOf_iff]
      cases op <;> simp [targets, isProduct, Stmt.value, Expr.HasText]
  | assign span targets value =>
    rcases targets with _ | ⟨target, _ | ⟨other, rest⟩⟩
    · exact absurd rfl (hs span value)
    · rw [cText, exists_bind_iff fun t => exists_bind_pure_iff, exists_cTarget_iff]
      simp [Stmt.targets, isProduct, Stmt.value, Expr.HasText]
    · simp [cText, Stmt.targets]

end Stmt

theorem exists_cTextOfBody_iff {ss : List Stmt} :
    (∃ ts, cTextOfBody ss = .ok ts) ↔ ∀ s ∈ ss, ∃ t, s.cText = .ok t := by
  induction ss with
  | nil => simp [cTextOfBody]
  | cons s ss ih =>
    rw [List.forall_mem_cons, ← ih]
    exact exists_bind_iff fun t => exists_bind_pure_iff

theorem Program.exists_cText_iff {p : Program} :
    (∃ t, p.cText = .ok t) ↔ ∀ s ∈ p.body, ∃ t, s.cText = .ok t := by
  rw [← exists_cTextOfBody_iff, ← and_true (∃ ts, cTextOfBody p.body = .ok ts)]
  refine exists_bind_iff fun texts => ?_
  cases texts <;> simp [pure, Except.pure]

/-- The parser gives every assignment a target. -/
theorem Program.assigned_of_parse {source : String} {p : Program} (h : parse source = .ok p)
    {s : Stmt} (hs : s ∈ p.body) (span : Span) (value : Expr) : s ≠ .assign span [] value := by
  obtain ⟨m, -, rfl, hshaped⟩ := Node.Program.exists_shaped_of_parse h
  obtain ⟨s, hbody, rfl⟩ := List.mem_map.mp hs
  have hstmt : s.WellShaped := (hshaped s hbody).stmt
  cases s with
  | assign span targets value =>
    have hne : targets ≠ [] := List.length_pos_iff.mp hstmt.1
    simp [Node.Stmt.stmt, hne]
  | augment | eval => simp [Node.Stmt.stmt]

/-- A statement of a program fails to be translated exactly if something in it keeps it from having a
C text, and a program exactly if one of its statements does. -/
theorem Program.cText_eq_error_iff {source : String} {p : Program} (h : parse source = .ok p) :
    (∀ s ∈ p.body, (∃ err, s.cText = .error err) ↔ s.Untranslatable) ∧
      ((∃ err, p.cText = .error err) ↔ ∃ s ∈ p.body, ∃ err, s.cText = .error err) := by
  constructor
  · intro s hs
    rw [exists_error_iff, Stmt.exists_cText_iff (assigned_of_parse h hs), ← not_iff_not, not_not,
      Stmt.not_untranslatable_iff]
    simp only [(Expr.hasText_iff_clean _).1]
  · simp only [exists_error_iff, exists_cText_iff, not_forall, exists_prop]

/-- A statement with a tuple as an index and one with a list among the arguments of a call. -/
def untranslatableSource : String :=
  "a[i, j] = b ** c[-i] + (d < e)\nx = f(a[i], [j])"

theorem Program.cText_eq_error_iff_listed :
    ∃ p s s', parse untranslatableSource = .ok p ∧ s ∈ p.body ∧ s' ∈ p.body ∧ s.Untranslatable ∧
      ¬ s'.Untranslatable ∧ ∃ err, p.cText = .error err := by
  have hread : (parse untranslatableSource).toOption.any fun p =>
      (p.body.any fun s => s.cText.toOption.isNone) &&
        p.body.any fun s => s.cText.toOption.isSome := by
    decide +kernel
  obtain ⟨p, hp, htexts⟩ := exists_ok_of_any hread
  rw [Bool.and_eq_true, List.any_eq_true, List.any_eq_true] at htexts
  obtain ⟨⟨s, hs, hnone⟩, s', hs', hsome⟩ := htexts
  obtain ⟨hstmts, hprogram⟩ := cText_eq_error_iff hp
  have herr : ∃ err, s.cText = .error err := by
    cases htext : s.cText <;> simp_all [Except.toOption]
  have hok : ¬ ∃ err, s'.cText = .error err := by
    cases htext : s'.cText <;> simp_all [Except.toOption]
  exact ⟨p, s, s', hp, hs, hs', (hstmts s hs).mp herr, fun h => hok ((hstmts s' hs').mpr h),
    hprogram.mpr ⟨s, hs, herr⟩⟩

end LoopNest
