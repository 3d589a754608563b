import LoopNest.Proofs.ComputationReading
import LoopNest.Proofs.Relocation
import LoopNest.Proofs.UnitTexts

/-!
# What does not depend on spans

Spans are kept for messages only. The space of a header, the fields of a body and the C text of a
statement are the same wherever the statements stand in a text.
-/

namespace LoopNest

theorem Expr.name?_bare (e : Expr) : e.bare.name? = e.name? := by
  cases e <;> simp [bare, name?]

theorem Expr.form_bare (e : Expr) : e.bare.form = e.form := by
  cases e <;> simp [bare, form]

theorem Expr.components_bare (e : Expr) : e.bare.components = bareAll e.components := by
  cases e <;> simp [bare, components, bareAll]

theorem Expr.isTerm_bare : ∀ e : Expr, e.bare.isTerm = e.isTerm
  | .name .. | .number .. | .call .. | .connect .. | .compare .. | .tuple .. | .list .. | .dict .. => by
    simp [Expr.bare, Expr.isTerm]
  | .binary _ left op right => by
    simp [Expr.bare, Expr.isTerm, left.isTerm_bare, right.isTerm_bare]
  | .unary _ op operand => by
    cases op <;> simp [Expr.bare, Expr.isTerm, operand.isTerm_bare]
  | .subscript _ base _ => by simp [Expr.bare, Expr.isTerm, base.name?_bare]

theorem all_isTerm_bareAll (es : List Expr) :
    (bareAll es).all Expr.isTerm = es.all Expr.isTerm := by
  induction es with
  | nil => simp [bareAll]
  | cons e es ih => simp [bareAll, ih, e.isTerm_bare]

mutual

theorem Expr.value?_bare (iterators : List String) :
    ∀ e : Expr, e.bare.value? iterators = e.value? iterators
  | .name .. | .number .. => by simp [Expr.bare, Expr.value?]
  | .connect .. | .compare .. | .tuple .. | .list .. | .dict .. => by
    simp [Expr.bare, Expr.value?]
  | .binary _ left _ right => by
    simp [Expr.bare, Expr.value?, left.value?_bare, right.value?_bare]
  | .unary _ _ operand => by simp [Expr.bare, Expr.value?, operand.value?_bare]
  | .call _ _ args => by simp [Expr.bare, Expr.value?, valuesOf_bareAll iterators args]
  | .subscript _ base index => by
    have hindex := index.value?_bare iterators
    rw [Expr.bare, Expr.value?_subscript, Expr.value?_subscript, base.name?_bare,
      index.components_bare]
    cases index with
    | tuple _ items => simp [Expr.components, valuesOf_bareAll iterators items]
    | _ => simp [Expr.components, bareAll, valuesOf, hindex]

theorem valuesOf_bareAll (iterators : List String) :
    ∀ es : List Expr, valuesOf iterators (bareAll es) = valuesOf iterators es
  | [] => by simp [bareAll]
  | e :: es => by simp [bareAll, valuesOf, e.value?_bare, valuesOf_bareAll iterators es]

end

mutual

theorem Expr.readable_bare (inIndex : Bool) :
    ∀ e : Expr, e.bare.readable inIndex = e.readable inIndex
  | .name .. | .number .. => by simp [Expr.bare, Expr.readable]
  | .binary _ left _ right => by
    simp [Expr.bare, Expr.readable, left.readable_bare, right.readable_bare]
  | .unary _ _ operand => by simp [Expr.bare, Expr.readable, operand.readable_bare]
  | .connect _ _ values => by
    simp [Expr.bare, Expr.readable, readableAll_bareAll inIndex values]
  | .compare _ left links => by
    simp [Expr.bare, Expr.readable, left.readable_bare, readableLinks_bareLinks inIndex links]
  | .call _ _ args => by
    simp [Expr.bare, Expr.readable, readableAll_bareAll inIndex args, all_isTerm_bareAll]
  | .subscript _ base index => by
    have hindex := index.readable_bare true
    rw [Expr.bare, Expr.readable_subscript, Expr.readable_subscript, base.name?_bare,
      index.components_bare, all_isTerm_bareAll]
    cases index with
    | tuple _ items => simp [Expr.components, readableAll_bareAll true items]
    | _ => simp [Expr.components, bareAll, readableAll, hindex]
  | .tuple _ items | .list _ items => by
    simp [Expr.bare, Expr.readable, readableAll_bareAll inIndex items]
  | .dict _ entries => by
    simp [Expr.bare, Expr.readable, readableKeys_bareEntries inIndex entries,
      readableValues_bareEntries inIndex entries]

theorem readableAll_bareAll (inIndex : Bool) :
    ∀ es : List Expr, readableAll inIndex (bareAll es) = readableAll inIndex es
  | [] => by simp [bareAll]
  | e :: es => by simp [bareAll, readableAll, e.readable_bare, readableAll_bareAll inIndex es]

theorem readableLinks_bareLinks (inIndex : Bool) : ∀ links : List (CompareOp × Expr),
    readableLinks inIndex (bareLinks links) = readableLinks inIndex links
  | [] => by simp [bareLinks]
  | (_, e) :: links => by
    simp [bareLinks, readableLinks, e.readable_bare, readableLinks_bareLinks inIndex links]

theorem readableKeys_bareEntries (inIndex : Bool) : ∀ entries : List (Expr × Expr),
    readableKeys inIndex (bareEntries entries) = readableKeys inIndex entries
  | [] => by simp [bareEntries]
  | (key, _) :: entries => by
    simp [bareEntries, readableKeys, key.readable_bare, readableKeys_bareEntries inIndex entries]

theorem readableValues_bareEntries (inIndex : Bool) : ∀ entries : List (Expr × Expr),
    readableValues inIndex (bareEntries entries) = readableValues inIndex entries
  | [] => by simp [bareEntries]
  | (_, value) :: entries => by
    simp [bareEntries, readableValues, value.readable_bare,
      readableValues_bareEntries inIndex entries]

end

mutual

theorem Expr.mentions_bare (scope : Scope) (isWrite : Bool) :
    ∀ e : Expr, e.bare.mentions scope isWrite = e.mentions scope isWrite
  | .name .. | .number .. => by simp [Expr.bare, Expr.mentions]
  | .binary _ left _ right => by
    simp [Expr.bare, Expr.mentions, left.mentions_bare, right.mentions_bare]
  | .unary _ _ operand => by simp [Expr.bare, Expr.mentions, operand.mentions_bare]
  | .connect _ _ values => by simp [Expr.bare, Expr.mentions, mentionsOf_bareAll scope values]
  | .compare _ left links => by
    simp [Expr.bare, Expr.mentions, left.mentions_bare, mentionsOfLinks_bareLinks scope links]
  | .call _ _ args => by simp [Expr.bare, Expr.mentions, mentionsOf_bareAll scope args]
  | .subscript _ base index => by
    have hindex := index.mentions_bare scope false
    have hmentions : mentionsOf scope (bareAll index.components) =
        mentionsOf scope index.components := by
      cases index with
      | tuple _ items => simp [Expr.components, mentionsOf_bareAll scope items]
      | _ => simp [Expr.components, bareAll, mentionsOf, hindex]
    cases hname : base.name? with
    | some name =>
      rw [Expr.bare, Expr.mentions_subscript (base.name?_bare.trans hname),
        Expr.mentions_subscript hname, index.components_bare, hmentions, valuesOf_bareAll]
    | none =>
      have hbare := base.name?_bare.trans hname
      cases index <;> simp [Expr.bare, Expr.mentions, hname, hbare]
  | .tuple _ items | .list _ items => by
    simp [Expr.bare, Expr.mentions, mentionsOf_bareAll scope items]
  | .dict _ entries => by
    simp [Expr.bare, Expr.mentions, mentionsOfKeys_bareEntries scope entries,
      mentionsOfValues_bareEntries scope entries]

theorem mentionsOf_bareAll (scope : Scope) :
    ∀ es : List Expr, mentionsOf scope (bareAll es) = mentionsOf scope es
  | [] => by simp [bareAll]
  | e :: es => by simp [bareAll, mentionsOf, e.mentions_bare, mentionsOf_bareAll scope es]

theorem mentionsOfLinks_bareLinks (scope : Scope) : ∀ links : List (CompareOp × Expr),
    mentionsOfLinks scope (bareLinks links) = mentionsOfLinks scope links
  | [] => by simp [bareLinks]
  | (_, e) :: links => by
    simp [bareLinks, mentionsOfLinks, e.mentions_bare, mentionsOfLinks_bareLinks scope links]

theorem mentionsOfKeys_bareEntries (scope : Scope) : ∀ entries : List (Expr × Expr),
    mentionsOfKeys scope (bareEntries entries) = mentionsOfKeys scope entries
  | [] => by simp [bareEntries]
  | (key, _) :: entries => by
    simp [bareEntries, mentionsOfKeys, key.mentions_bare, mentionsOfKeys_bareEntries scope entries]

theorem mentionsOfValues_bareEntries (scope : Scope) : ∀ entries : List (Expr × Expr),
    mentionsOfValues scope (bareEntries entries) = mentionsOfValues scope entries
  | [] => by simp [bareEntries]
  | (_, value) :: entries => by
    simp [bareEntries, mentionsOfValues, value.mentions_bare,
      mentionsOfValues_bareEntries scope entries]

end

mutual

theorem Expr.cText_bare : ∀ (e : Expr) (t : CText), e.bare.cText = .ok t ↔ e.cText = .ok t
  | .name .., t | .number .., t => by simp [Expr.bare, Expr.cText]
  | .binary _ left op right, t => by
    cases op <;>
      simp only [Expr.bare, Expr.cText, translated_bind, left.cText_bare, right.cText_bare]
  | .unary _ _ operand, t => by
    simp only [Expr.bare, Expr.cText, translated_bind, operand.cText_bare]
  | .connect _ _ values, t => by
    simp only [Expr.bare, Expr.cText, translated_bind, cTextAll_bareAll values]
  | .compare _ left links, t => by
    simp only [Expr.bare, Expr.cText, translated_bind, left.cText_bare,
      cTextLinks_bareLinks links]
  | .call _ _ args, t => by
    simp only [Expr.bare, Expr.cText, translated_bind, cTextAll_bareAll args]
  | .subscript _ base index, t => by
    have hindex := index.cText_bare
    have hindices : ∀ ts, cTextAll index.bare.components = .ok ts ↔ cTextAll index.components = .ok ts := by
      cases index with
      | tuple _ items => simpa only [Expr.bare, Expr.components] using cTextAll_bareAll items
      | _ =>
        rw [Expr.bare] at hindex ⊢
        simp only [Expr.components, cTextAll_singleton, translated_bind, hindex, implies_true]
    simp only [Expr.bare, Expr.cText_subscript, translated_bind, base.cText_bare, hindices]
  | .tuple .., t | .list .., t | .dict .., t => by simp [Expr.bare, Expr.cText]

theorem cTextAll_bareAll : ∀ (es : List Expr) (ts : List CText),
    cTextAll (bareAll es) = .ok ts ↔ cTextAll es = .ok ts
  | [], ts => by simp only [bareAll]
  | e :: es, ts => by
    simp only [bareAll, cTextAll, translated_bind, e.cText_bare, cTextAll_bareAll es]

theorem cTextLinks_bareLinks : ∀ (links : List (CompareOp × Expr)) (ts : List (CompareOp × CText)),
    cTextLinks (bareLinks links) = .ok ts ↔ cTextLinks links = .ok ts
  | [], ts => by simp only [bareLinks]
  | (_, e) :: links, ts => by
    simp only [bareLinks, cTextLinks, translated_bind, e.cText_bare, cTextLinks_bareLinks links]

end

theorem Expr.cTarget_bare (e : Expr) (t : String) : e.bare.cTarget = .ok t ↔ e.cTarget = .ok t := by
  simp only [cTarget_eq_ok_iff, form_bare, cText_bare]

namespace Stmt

theorem readable_bare (s : Stmt) : s.bare.readable = s.readable := by
  cases s with
  | assign _ targets value =>
    rcases targets with _ | ⟨e, _ | ⟨u, us⟩⟩ <;>
      simp [bare, bareAll, readable, Expr.form_bare, Expr.readable_bare]
  | augment => simp [bare, readable, Expr.form_bare, Expr.readable_bare]
  | eval => simp [bare, readable, Expr.readable_bare]

theorem mentions_bare (scope : Scope) (s : Stmt) : s.bare.mentions scope = s.mentions scope := by
  cases s with
  | assign _ targets value =>
    rcases targets with _ | ⟨e, _ | ⟨u, us⟩⟩ <;>
      simp [bare, bareAll, mentions, Expr.mentions_bare]
  | augment => simp [bare, mentions, Expr.mentions_bare]
  | eval => simp [bare, mentions, Expr.mentions_bare]

theorem cText_bare (s : Stmt) (t : String) : s.bare.cText = .ok t ↔ s.cText = .ok t := by
  cases s with
  | assign _ targets value =>
    rcases targets with _ | ⟨e, _ | ⟨u, us⟩⟩
    · simp [bare, bareAll, cText]
    · simp only [bare, bareAll, cText, translated_bind, Expr.cTarget_bare, Expr.cText_bare]
    · simp [bare, bareAll, cText]
  | augment _ target op value =>
    simp only [bare, cText, translated_bind, Expr.cTarget_bare, Expr.cText_bare]
  | eval => simp only [bare, cText, translated_bind, Expr.cText_bare]

theorem isHeader_bare (s : Stmt) : s.bare.isHeader = s.isHeader := by
  cases s with
  | assign _ targets value => cases value <;> simp [bare, Expr.bare, isHeader]
  | _ => simp [bare, isHeader]

variable (f : Span → Span)

@[simp] theorem isHeader_relocate (s : Stmt) : (s.relocate f).isHeader = s.isHeader := by
  rw [← isHeader_bare, bare_relocate, isHeader_bare]

@[simp] theorem readable_relocate (s : Stmt) : (s.relocate f).readable = s.readable := by
  rw [← readable_bare, bare_relocate, readable_bare]

@[simp] theorem mentions_relocate (scope : Scope) (s : Stmt) :
    (s.relocate f).mentions scope = s.mentions scope := by
  rw [← mentions_bare, bare_relocate, mentions_bare]

@[simp] theorem cText_relocate (s : Stmt) (t : String) :
    (s.relocate f).cText = .ok t ↔ s.cText = .ok t := by
  rw [← cText_bare, bare_relocate, cText_bare]

@[simp] theorem spaceFrom?_relocate (id : Nat) (s : Stmt) :
    (s.relocate f).spaceFrom? id = s.spaceFrom? id := by
  rw [← spaceFrom?_bare, bare_relocate, spaceFrom?_bare]

end Stmt

end LoopNest
