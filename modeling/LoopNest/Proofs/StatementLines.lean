import LoopNest.Code.Define
import LoopNest.Proofs.CTranslation

/-!
# Statements on one line

The C text of a statement has no line break, however the statement was written: its names and numbers
have none, and no operator or bracket brings one in. Nor does putting iterators in parentheses, so that
the definition of a statement is one line.
-/

namespace LoopNest

open Scan

/-- A text without a line break. -/
def OneLine (text : String) : Prop :=
  '\n' ∉ text.toList

instance (text : String) : Decidable (OneLine text) :=
  inferInstanceAs (Decidable ('\n' ∉ text.toList))

namespace OneLine

@[simp] theorem append_iff {a b : String} : OneLine (a ++ b) ↔ OneLine a ∧ OneLine b := by
  simp [OneLine]

theorem intercalate {separator : String} {texts : List String} (hs : OneLine separator)
    (h : ∀ text ∈ texts, OneLine text) : OneLine (separator.intercalate texts) := by
  induction texts with
  | nil => simp [OneLine]
  | cons text texts ih =>
    obtain ⟨htext, hmore⟩ := List.forall_mem_cons.mp h
    cases texts with
    | nil => rwa [String.intercalate_singleton]
    | cons next texts =>
      rw [String.intercalate_cons_cons]
      exact append_iff.mpr ⟨append_iff.mpr ⟨htext, hs⟩, ih hmore⟩

theorem of_isName {text : String} (h : IsName text) : OneLine text := by
  intro hmem
  exact absurd (h.continues _ hmem) (by decide)

theorem not_mem_digits {cs : List Char} (h : ∀ c ∈ cs, c.isDigit) : '\n' ∉ cs := by
  intro hmem
  exact absurd (h _ hmem) (by decide)

theorem of_isNumeral {text : String} (h : IsNumeral text) : OneLine text := by
  obtain ⟨whole, point, exponent, htext, hwhole, hpoint, hexponent, -⟩ := h
  rw [OneLine, htext, List.mem_append, List.mem_append, not_or, not_or]
  refine ⟨not_mem_digits hwhole, ?_, ?_⟩
  · cases hpoint with
    | absent => simp
    | point ds h => simpa using not_mem_digits h.2
  · cases hexponent with
    | absent => simp
    | present head ds hhead h =>
      obtain ⟨e, rfl | rfl, rfl | rfl | rfl⟩ := hhead <;> simpa using not_mem_digits h.2

theorem toString_nat (k : Nat) : OneLine (toString k) := by
  apply not_mem_digits
  intro c hc
  apply Nat.isDigit_of_mem_toDigits (b := 10) (n := k) (by decide) (by decide)
  simpa [Nat.repr] using hc

/-! ### Expressions -/

variable {l r t : CText}

theorem operand (h : OneLine t.text) (rank : Nat) : OneLine (t.operand rank) := by
  unfold CText.operand
  split
  · rw [CText.grouped, append_iff, append_iff]
    exact ⟨⟨by decide, h⟩, by decide⟩
  · exact h

theorem call {callee : String} {args : List String} (hc : OneLine callee)
    (h : ∀ text ∈ args, OneLine text) : OneLine (CText.call callee args).text := by
  have hargs : OneLine (", ".intercalate args) := .intercalate (by decide) h
  simp only [CText.call, CText.atom, append_iff]
  exact ⟨⟨⟨hc, by decide⟩, hargs⟩, by decide⟩

theorem binary {symbol : String} (level : CLevel) (hs : OneLine symbol) (hl : OneLine l.text)
    (hr : OneLine r.text) : OneLine (CText.binary level symbol l r).text := by
  simp only [CText.binary, append_iff]
  exact ⟨⟨⟨⟨hl.operand _, by decide⟩, hs⟩, by decide⟩, hr.operand _⟩

theorem unary (op : UnaryOp) (h : OneLine t.text) : OneLine (CText.unary op t).text := by
  have hoperand := h.operand CLevel.unary.rank
  have hsign : OneLine (CText.signSymbol op) := by cases op <;> decide
  simp only [CText.unary, append_iff]
  refine ⟨hsign, ?_⟩
  split
  · rw [CText.grouped, append_iff, append_iff]
    exact ⟨⟨by decide, hoperand⟩, by decide⟩
  · exact hoperand

theorem connect (op : Connective) {ts : List CText} (h : ∀ t ∈ ts, OneLine t.text) :
    OneLine (CText.connect op ts).text := by
  apply intercalate
  · cases op <;> decide
  · rw [List.forall_mem_map]
    intro t ht
    exact (h t ht).operand _

theorem comparisons {links : List (CompareOp × CText)} (hl : OneLine l.text)
    (h : ∀ link ∈ links, OneLine link.2.text) :
    ∀ text ∈ CText.comparisons l links, OneLine text := by
  induction links generalizing l with
  | nil => simp [CText.comparisons]
  | cons link links ih =>
    obtain ⟨op, right⟩ := link
    obtain ⟨hlink, hlinks⟩ := List.forall_mem_cons.mp h
    have hsymbol : OneLine op.symbol := by cases op <;> decide
    rw [CText.comparisons, List.forall_mem_cons]
    exact ⟨binary (.ofCompare op) hsymbol hl hlink, ih hlink hlinks⟩

theorem compare {links : List (CompareOp × CText)} (hl : OneLine l.text)
    (h : ∀ link ∈ links, OneLine link.2.text) : OneLine (CText.compare l links).text :=
  intercalate (by decide) (hl.comparisons h)

theorem subscript {ts : List CText} (hb : OneLine t.text) (h : ∀ t ∈ ts, OneLine t.text) :
    OneLine (CText.subscript t ts).text := by
  have hindex : OneLine (", ".intercalate (ts.map (·.text))) :=
    .intercalate (by decide) (List.forall_mem_map.mpr h)
  simp only [CText.subscript, CText.atom, append_iff]
  exact ⟨⟨⟨hb.operand _, by decide⟩, hindex⟩, by decide⟩

theorem symbolOf {op : BinaryOp} {symbol : String} (h : CText.symbolOf op = .ok symbol) :
    OneLine symbol := by
  cases op with
  | matMult => cases h
  | _ =>
    cases h
    decide

end OneLine

/-- An expression whose C text, if it has one, is one line. -/
def Expr.Flat (e : Expr) : Prop :=
  ∀ t, e.cText = .ok t → OneLine t.text

theorem Expr.Flat.of_components {e : Expr} (h : ∀ i ∈ e.components, i.Flat) : e.Flat := by
  cases e with
  | tuple =>
    intro t ht
    cases ht
  | _ => exact h _ (List.mem_singleton.mpr rfl)

theorem oneLine_cTextAll {es : List Expr} {ts : List CText} (h : ∀ e ∈ es, e.Flat)
    (ht : cTextAll es = .ok ts) : ∀ t ∈ ts, OneLine t.text := by
  intro t hmem
  obtain ⟨e, he, hte⟩ := exists_of_mem_cTextAll ht hmem
  exact h e he t hte

theorem Expr.flat_binary {span : Span} {left right : Expr} {op : BinaryOp} (hl : left.Flat)
    (hr : right.Flat) : (Expr.binary span left op right).Flat := by
  intro t ht
  by_cases hpow : op = .pow
  · subst hpow
    simp only [cText, translated_bind] at ht
    obtain ⟨l, hl', r, hr', hcall⟩ := ht
    cases hcall
    apply OneLine.call (by decide)
    simpa using ⟨hl l hl', hr r hr'⟩
  · simp only [cText_binary hpow, translated_bind] at ht
    obtain ⟨symbol, hsymbol, l, hl', r, hr', hbinary⟩ := ht
    cases hbinary
    exact .binary _ (.symbolOf hsymbol) (hl l hl') (hr r hr')

/-- The induction is about the indices that an expression would be in a subscript, since a tuple has
no text of its own. -/
theorem Expr.Proper.flat_components {e : Expr} (h : e.Proper) : ∀ i ∈ e.components, i.Flat := by
  induction h with
  | name _ h =>
    refine List.forall_mem_singleton.mpr fun t ht => ?_
    cases ht
    exact .of_isName h
  | number _ h =>
    refine List.forall_mem_singleton.mpr fun t ht => ?_
    cases ht
    exact .of_isNumeral h
  | binary _ op _ _ hl hr =>
    exact List.forall_mem_singleton.mpr (flat_binary (.of_components hl) (.of_components hr))
  | unary _ op _ h =>
    refine List.forall_mem_singleton.mpr fun t ht => ?_
    simp only [cText, translated_bind] at ht
    obtain ⟨operand, ht, hunary⟩ := ht
    cases hunary
    exact .unary op (Flat.of_components h operand ht)
  | connect _ op _ _ h =>
    refine List.forall_mem_singleton.mpr fun t ht => ?_
    simp only [cText, translated_bind] at ht
    obtain ⟨ts, hts, hconnect⟩ := ht
    cases hconnect
    exact .connect op (oneLine_cTextAll (fun e he => .of_components (h e he)) hts)
  | compare _ _ _ _ hl h =>
    refine List.forall_mem_singleton.mpr fun t ht => ?_
    simp only [cText, translated_bind] at ht
    obtain ⟨l, hl', ts, hts, hcompare⟩ := ht
    cases hcompare
    apply OneLine.compare (Flat.of_components hl l hl')
    intro t hmem
    obtain ⟨link, hlink, htl⟩ := exists_of_mem_cTextLinks hts hmem
    exact Flat.of_components (h link hlink) t.2 htl
  | call _ hc _ h =>
    refine List.forall_mem_singleton.mpr fun t ht => ?_
    simp only [cText, translated_bind] at ht
    obtain ⟨ts, hts, hcall⟩ := ht
    cases hcall
    apply OneLine.call (.of_isName hc)
    rw [List.forall_mem_map]
    exact oneLine_cTextAll (fun e he => .of_components (h e he)) hts
  | subscript _ _ _ hb hi =>
    refine List.forall_mem_singleton.mpr fun t ht => ?_
    simp only [cText_subscript, translated_bind] at ht
    obtain ⟨b, hb', ts, hts, hsubscript⟩ := ht
    cases hsubscript
    exact .subscript (Flat.of_components hb b hb') (oneLine_cTextAll hi hts)
  | tuple _ _ h => exact fun e he => .of_components (h e he)
  | list | dict =>
    refine List.forall_mem_singleton.mpr fun t ht => ?_
    cases ht

theorem Expr.Proper.oneLine {e : Expr} (h : e.Proper) {t : CText} (ht : e.cText = .ok t) :
    OneLine t.text :=
  Flat.of_components h.flat_components t ht

/-! ### Statements and their definitions -/

theorem Stmt.Proper.oneLine {s : Stmt} (h : s.Proper) {text : String} (ht : s.cText = .ok text) :
    OneLine text := by
  cases h with
  | @assign _ targets value htargets hvalue =>
    rcases targets with _ | ⟨target, _ | ⟨target', targets⟩⟩
    · cases ht
    · simp only [cText, translated_bind] at ht
      obtain ⟨_, htarget, v, hv, htext⟩ := ht
      cases htext
      obtain ⟨-, t, ht, rfl⟩ := Expr.cTarget_eq_ok_iff.mp htarget
      simp only [OneLine.append_iff]
      exact ⟨⟨(htargets target List.mem_cons_self).oneLine ht, by decide⟩, hvalue.oneLine hv⟩
    · cases ht
  | @augment _ op target value hproper hvalue =>
    by_cases hpow : op = .pow
    · subst hpow
      simp only [cText, translated_bind] at ht
      obtain ⟨_, htarget, v, hv, htext⟩ := ht
      cases htext
      obtain ⟨-, t, ht, rfl⟩ := Expr.cTarget_eq_ok_iff.mp htarget
      have hcall : OneLine (CText.call "pow" [t.text, v.text]).text := by
        apply OneLine.call (by decide)
        simpa using ⟨hproper.oneLine ht, hvalue.oneLine hv⟩
      simp only [OneLine.append_iff]
      exact ⟨⟨hproper.oneLine ht, by decide⟩, hcall⟩
    · simp only [cText_augment hpow, translated_bind] at ht
      obtain ⟨_, htarget, v, hv, symbol, hsymbol, htext⟩ := ht
      cases htext
      obtain ⟨-, t, ht, rfl⟩ := Expr.cTarget_eq_ok_iff.mp htarget
      simp only [OneLine.append_iff]
      exact ⟨⟨⟨⟨hproper.oneLine ht, by decide⟩, .symbolOf hsymbol⟩, by decide⟩, hvalue.oneLine hv⟩
  | eval _ hvalue =>
    simp only [cText, translated_bind] at ht
    obtain ⟨v, hv, htext⟩ := ht
    cases htext
    exact hvalue.oneLine hv

namespace Text

theorem mem_of_wordHere? {names : List (List Char)} {before : Option Char} {cs name : List Char}
    (h : wordHere? names before cs = some name) : name ∈ names := by
  unfold wordHere? at h
  split at h
  · exact List.mem_of_find?_eq_some h
  · cases h

/-- Wrapping words brings in nothing but the names and what is put around them. -/
theorem not_mem_wrapFrom {names : List (List Char)} {left right : List Char} {x : Char}
    (hnames : ∀ name ∈ names, x ∉ name) (hleft : x ∉ left) (hright : x ∉ right)
    {before : Option Char} {skip : Nat} {ended : Bool} {cs : List Char} (h : x ∉ cs) :
    x ∉ wrapFrom names left right before skip ended cs := by
  fun_induction wrapFrom names left right before skip ended cs with
  | case1 _ _ _ c cs ih => exact ih (List.not_mem_of_not_mem_cons h)
  | case2 => exact h
  | case3 => exact h
  | case4 before ended name hword hended =>
    have hname := hnames name (mem_of_wordHere? hword)
    simp [hleft, hname, hright]
  | case5 => exact h
  | case6 before ended c cs hword ih =>
    rw [List.mem_cons, not_or] at h
    exact List.not_mem_cons_of_ne_of_not_mem h.1 (ih h.2)
  | case7 before c cs hword ih =>
    rw [List.mem_cons, not_or] at h
    exact List.not_mem_cons_of_ne_of_not_mem h.1 (ih h.2)
  | case8 before ended c cs hword hended ih =>
    rw [List.mem_cons, not_or] at h
    simp [hleft, hright, h.1, ih h.2]
  | case9 before ended c cs d name hword ih =>
    have hname := hnames (d :: name) (mem_of_wordHere? hword)
    have hrest := ih (List.not_mem_of_not_mem_cons h)
    simp_all

end Text

theorem OneLine.wrapWords {names : List String} {left right text : String}
    (hnames : ∀ name ∈ names, OneLine name) (hleft : OneLine left) (hright : OneLine right)
    (h : OneLine text) : OneLine (Text.wrapWords names left right text) := by
  rw [OneLine, Text.wrapWords, String.toList_ofList]
  exact Text.not_mem_wrapFrom (List.forall_mem_map.mpr hnames) hleft hright h

theorem OneLine.define {iterators pointers : List String} {text : String} (k : Nat)
    (hi : ∀ i ∈ iterators, OneLine i) (hp : ∀ p ∈ pointers, OneLine p) (h : OneLine text) :
    OneLine (Define.line k iterators pointers text) := by
  have hformals : OneLine (", ".intercalate iterators) := .intercalate (by decide) hi
  have hdereferenced : OneLine (Define.dereference pointers text) :=
    .wrapWords hp (by decide) (by decide) h
  have hprotected : OneLine (Define.protectIterators iterators (Define.dereference pointers text)) :=
    .wrapWords hi (by decide) (by decide) hdereferenced
  simp only [Define.line, Define.name, append_iff]
  exact ⟨⟨⟨⟨⟨⟨by decide, by decide, toString_nat k⟩, by decide⟩, hformals⟩, by decide⟩, hprotected⟩,
    by decide⟩

theorem OneLine.undefine (k : Nat) : OneLine (Define.undefLine k) := by
  simp only [Define.undefLine, Define.name, append_iff]
  exact ⟨by decide, by decide, toString_nat k⟩

end LoopNest
