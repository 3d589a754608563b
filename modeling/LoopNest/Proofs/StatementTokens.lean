import LoopNest.Proofs.CTranslation
import LoopNest.Proofs.FieldCollection
import LoopNest.Proofs.Identifiers
import LoopNest.Proofs.TextNames
import LoopNest.Proofs.WordWrapping

/-!
# The tokens of C statements

Whatever can be translated is a text that C reads to its end, a statement with an empty index
included. Its names that are not called are the names of the tree. Where the fields of a statement can
be read, these are iterators and constants of the space, or names of fields that it mentions.
-/

namespace LoopNest

open Scan

namespace C

def Token.name? : Token → Option String
  | .name text => some text
  | _ => none

def naming : Naming Token :=
  ⟨Token.name?, fun t => t = .symbol "(", Token.IsPlain⟩

theorem inert_symbol (symbol : String) : naming.Inert (.symbol symbol) :=
  ⟨rfl, trivial⟩

/-- Wrapping leaves no operands but those before, and the wrapped names. -/
theorem mem_operands_wrapIn {names : List String} {left right ws : List Token} {n : String}
    (hleft : ∀ w ∈ left, w.name? = none) (hright : ∀ w ∈ right, w.name? = none)
    (h : n ∈ naming.operands (ws.flatMap (Token.wrapIn names left right))) :
    n ∈ naming.operands ws ∨ n ∈ names := by
  induction ws with
  | nil => exact .inl h
  | cons w ws ih =>
    have hrest : n ∈ naming.operands (ws.flatMap (Token.wrapIn names left right)) →
        n ∈ naming.operands (w :: ws) ∨ n ∈ names :=
      fun h => (ih h).imp_left (List.mem_append_right _)
    rw [List.flatMap_cons] at h
    cases w with
    | name text =>
      by_cases hmem : text ∈ names
      · rw [Token.wrapIn, if_pos hmem] at h
        rcases Naming.mem_operands_append h with h | h
        · obtain ⟨w, hw, hname⟩ := Naming.exists_of_mem_operands h
          rw [List.mem_append, List.mem_cons] at hw
          rcases hw with hw | rfl | hw
          · cases (hleft w hw).symm.trans hname
          · cases hname
            exact .inr hmem
          · cases (hright w hw).symm.trans hname
        · exact hrest h
      · rw [Token.wrapIn, if_neg hmem, List.singleton_append, Naming.operands,
          List.mem_append] at h
        rcases h with h | h
        · refine .inl (List.mem_append_left _ ?_)
          -- A call that opens behind the name still opens behind the copied one.
          cases ws with
          | nil => exact h
          | cons v ws =>
            cases v with
            | symbol => exact h
            | name | number =>
              split at h
              · cases h
              · exact h
        · exact hrest h
    | number | symbol =>
      rcases Naming.mem_operands_cons h with h | h
      · cases h
      · exact hrest h

/-- Clean tokens stay clean if names are wrapped of which the property holds. -/
theorem clean_wrapIn {P : String → Prop} {names : List String} {left right ws : List Token}
    (h : naming.Clean P ws) (hnames : ∀ n ∈ names, P n) (hleft : ∀ w ∈ left, naming.Inert w)
    (hright : ∀ w ∈ right, naming.Inert w) :
    naming.Clean P (ws.flatMap (Token.wrapIn names left right)) where
  plain := isPlain_wrapIn (fun w hw => (hleft w hw).plain) (fun w hw => (hright w hw).plain) h.plain
  operands n hn := (mem_operands_wrapIn (fun w hw => (hleft w hw).name)
    (fun w hw => (hright w hw).name) hn).elim (h.operands n) (hnames n)

/-- The tokens of a definition: the pointers in a statement are dereferenced, then its iterators are
put in parentheses, and braces stand around it. -/
theorem exists_reads_definition {P : String → Prop} {iterators pointers : List String}
    {text : String} (hi : ∀ n ∈ iterators, Text.IsWord n.toList ∧ P n)
    (hp : ∀ n ∈ pointers, Text.IsWord n.toList ∧ P n) (h : lexer.Shows naming P text) :
    ∃ ws, lexer.Reads () ("\x7b " ++ Define.protectIterators iterators
      (Define.dereference pointers text) ++ "; \x7d").toList ws () [] ∧ naming.Clean P ws := by
  obtain ⟨ws, hspells, hclean⟩ := h
  have hreads : lexer.Reads () text.toList ws () [] := by
    simpa using hspells () [] Lexer.bounded_nil
  have hstars : naming.Clean P
      (ws.flatMap (Token.wrapIn pointers [.symbol "(", .symbol "*"] [.symbol ")"])) :=
    clean_wrapIn hclean (fun n hn => (hp n hn).2) (by simp [inert_symbol]) (by simp [inert_symbol])
  have hround := clean_wrapIn (P := P) hstars (fun n hn => (hi n hn).2)
    (List.forall_mem_singleton.mpr (inert_symbol "("))
    (List.forall_mem_singleton.mpr (inert_symbol ")"))
  have hdefined := reads_defined (fun n hn => (hi n hn).1) (fun n hn => (hp n hn).1) hreads
    hclean.plain
  have hclose : naming.Clean P [.symbol ";", .symbol "\x7d"] :=
    (Naming.clean_nil.cons (inert_symbol _)).cons (inert_symbol _)
  exact ⟨_, reads_braced hdefined, (hround.append hclose).cons (inert_symbol _)⟩

/-- A text that is read as clean tokens, and begins as an operand does. -/
structure Spelt (P : String → Prop) (text : String) : Prop where
  shows : lexer.Shows naming P text
  opens : Opens text

namespace Spelt

variable {P : String → Prop} {a b : String}

theorem name (h : IsName a) (hw : ∀ c ∈ a.toList, Text.isWordChar c) (hp : P a) : Spelt P a := by
  refine ⟨⟨[.name a], spells_name h, ?_, ?_⟩, opens_of_isName h⟩
  · exact List.forall_mem_singleton.mpr hw
  · simpa [Naming.operands, naming, Token.name?] using hp

theorem number (h : IsNumeral a) : Spelt P a := by
  refine ⟨⟨[.number a], spells_numeral h, ?_, ?_⟩, opens_of_isNumeral h⟩
  · exact List.forall_mem_singleton.mpr h
  · simp [Naming.operands, naming, Token.name?]

theorem separated {sep symbol : String} (ha : Spelt P a)
    (hsep : lexer.Separates sep (.symbol symbol)) (hb : Spelt P b) : Spelt P (a ++ sep ++ b) :=
  ⟨ha.shows.separated hsep (inert_symbol symbol) hb.shows, (ha.opens.append _).append _⟩

theorem grouped (ha : Spelt P a) : Spelt P (CText.grouped a) :=
  ⟨ha.shows.enclosed encloses_round (inert_symbol _) (inert_symbol _), '(', (a ++ ")").toList,
    by simp [CText.grouped], by decide⟩

theorem operand {t : CText} (h : Spelt P t.text) (rank : Nat) : Spelt P (t.operand rank) := by
  unfold CText.operand
  split
  · exact h.grouped
  · exact h

theorem binary {l r : CText} {level : CLevel} {symbol : String}
    (hsep : lexer.Separates (" " ++ symbol ++ " ") (.symbol symbol)) (hl : Spelt P l.text)
    (hr : Spelt P r.text) : Spelt P (CText.binary level symbol l r).text := by
  have hleft := hl.operand level.rank
  refine ⟨hleft.shows.operation hsep (inert_symbol symbol) (hr.operand _).shows, ?_⟩
  exact (((hleft.opens.append _).append _).append _).append _

theorem signed (op : UnaryOp) (h : Spelt P a) (hc : CText.clashes op a = false) :
    Spelt P (CText.signSymbol op ++ a) := by
  obtain ⟨⟨ws, hspells, hclean⟩, hopens⟩ := h
  refine ⟨⟨_, spells_sign hspells hopens hc, hclean.cons (inert_symbol _)⟩, ?_⟩
  cases op <;> exact ⟨_, a.toList, by rw [String.toList_append]; rfl, by decide⟩

theorem unary (op : UnaryOp) {t : CText} (h : Spelt P t.text) : Spelt P (CText.unary op t).text := by
  have hoperand := h.operand CLevel.unary.rank
  simp only [CText.unary]
  split
  · exact hoperand.grouped.signed op (by cases op <;> simp [CText.clashes, CText.grouped])
  · next hc => exact hoperand.signed op (by simpa using hc)

/-- Texts with separators between them, of which there is at least one. -/
theorem intercalate {sep symbol : String} (hsep : lexer.Separates sep (.symbol symbol))
    {texts : List String} (hne : texts ≠ []) (h : ∀ text ∈ texts, Spelt P text) :
    Spelt P (sep.intercalate texts) := by
  refine ⟨.intercalate hsep (inert_symbol symbol) fun text htext => (h text htext).shows, ?_⟩
  cases texts with
  | nil => exact absurd rfl hne
  | cons text texts =>
    have hopens := (h text List.mem_cons_self).opens
    cases texts with
    | nil => rwa [String.intercalate_singleton]
    | cons =>
      rw [String.intercalate_cons_cons]
      exact (hopens.append _).append _

/-- The arguments of a call and the indices of a subscript, of which there may be none. -/
theorem list {texts : List String} (h : ∀ text ∈ texts, Spelt P text) :
    lexer.Shows naming P (", ".intercalate texts) :=
  .intercalate separates_comma (inert_symbol _) fun text htext => (h text htext).shows

theorem call {callee : String} {texts : List String} (hc : IsName callee)
    (hw : ∀ c ∈ callee.toList, Text.isWordChar c) (h : ∀ text ∈ texts, Spelt P text) :
    Spelt P (CText.call callee texts).text := by
  refine ⟨.called (spells_name hc) hw encloses_round (inert_symbol _) ?_ (inert_symbol _) (list h),
    (((opens_of_isName hc).append _).append _).append _⟩
  simp [naming]

theorem subscript {base : CText} {index : List CText} (hb : Spelt P base.text)
    (h : ∀ t ∈ index, Spelt P t.text) : Spelt P (CText.subscript base index).text := by
  have hbase := hb.operand CLevel.postfixed.rank
  have hindex : lexer.Shows naming P (", ".intercalate (index.map (·.text))) :=
    list (by simpa using h)
  exact ⟨hbase.shows.applied encloses_square (inert_symbol _) (inert_symbol _) hindex,
    ((hbase.opens.append _).append _).append _⟩

theorem connect (op : Connective) {ts : List CText} (hne : ts ≠ [])
    (h : ∀ t ∈ ts, Spelt P t.text) : Spelt P (CText.connect op ts).text := by
  have hsymbol : CText.connectiveSymbol op ∈ operators (.ofConnective op) := by
    cases op <;> decide
  refine intercalate (separates_operator hsymbol) (by simpa using hne) ?_
  simpa using fun t ht => (h t ht).operand _

theorem comparisons {left : CText} {links : List (CompareOp × CText)} (hl : Spelt P left.text)
    (h : ∀ link ∈ links, Spelt P link.2.text) :
    ∀ text ∈ CText.comparisons left links, Spelt P text := by
  induction links generalizing left with
  | nil => simp [CText.comparisons]
  | cons link links ih =>
    obtain ⟨op, right⟩ := link
    obtain ⟨hlink, hlinks⟩ := List.forall_mem_cons.mp h
    exact List.forall_mem_cons.mpr
      ⟨hl.binary (separates_operator (compare_mem op)) hlink, ih hlink hlinks⟩

theorem compare {left : CText} {links : List (CompareOp × CText)} (hl : Spelt P left.text)
    (hne : links ≠ []) (h : ∀ link ∈ links, Spelt P link.2.text) :
    Spelt P (CText.compare left links).text := by
  have hand : "&&" ∈ operators .and := by decide
  refine intercalate (separates_operator hand) ?_ (hl.comparisons h)
  cases links with
  | nil => exact absurd rfl hne
  | cons => simp [CText.comparisons]

end Spelt

end C

/-! ### Expressions -/

mutual

/-- The names of an expression that are not called. -/
def Expr.uncalled : Expr → List String
  | .name _ text => [text]
  | .number .. => []
  | .binary _ left _ right => left.uncalled ++ right.uncalled
  | .unary _ _ operand => operand.uncalled
  | .connect _ _ values => uncalledOf values
  | .compare _ left links => left.uncalled ++ uncalledOfLinks links
  | .call _ _ args => uncalledOf args
  | .subscript _ base index => base.uncalled ++ index.uncalled
  | .tuple _ items => uncalledOf items
  | .list _ items => uncalledOf items
  | .dict _ entries => uncalledOfKeys entries ++ uncalledOfValues entries

def uncalledOf : List Expr → List String
  | [] => []
  | e :: es => e.uncalled ++ uncalledOf es

def uncalledOfLinks : List (CompareOp × Expr) → List String
  | [] => []
  | (_, e) :: links => e.uncalled ++ uncalledOfLinks links

def uncalledOfKeys : List (Expr × Expr) → List String
  | [] => []
  | (key, _) :: entries => key.uncalled ++ uncalledOfKeys entries

def uncalledOfValues : List (Expr × Expr) → List String
  | [] => []
  | (_, value) :: entries => value.uncalled ++ uncalledOfValues entries

end

def Stmt.uncalled : Stmt → List String
  | .assign _ targets value => uncalledOf targets ++ value.uncalled
  | .augment _ target _ value => target.uncalled ++ value.uncalled
  | .eval _ value => value.uncalled

theorem Expr.identifiersOf_components (e : Expr) : identifiersOf e.components = e.identifiers := by
  cases e <;> simp [components, identifiers, identifiersOf]

theorem Expr.uncalledOf_components (e : Expr) : uncalledOf e.components = e.uncalled := by
  cases e <;> simp [components, uncalled, uncalledOf]

/-- A name of word characters only. -/
def IsWordy (name : String) : Prop :=
  ∀ c ∈ name.toList, Text.isWordChar c

/-- An expression with names of word characters only, and with a property of the names that are not
called. -/
structure Expr.Fit (P : String → Prop) (e : Expr) : Prop where
  wordy : ∀ n ∈ e.identifiers, IsWordy n
  uncalled : ∀ n ∈ e.uncalled, P n

/-- An expression whose C text, if it has one, is read as clean tokens. -/
def Expr.Spoken (P : String → Prop) (e : Expr) : Prop :=
  e.Fit P → ∀ t, e.cText = .ok t → C.Spelt P t.text

section Spoken

variable {P : String → Prop}

theorem fit_of_all {es : List Expr} (hw : ∀ n ∈ identifiersOf es, IsWordy n)
    (hv : ∀ n ∈ uncalledOf es, P n) : ∀ e ∈ es, e.Fit P := by
  induction es with
  | nil => simp
  | cons e es ih =>
    rw [identifiersOf, List.forall_mem_append] at hw
    rw [uncalledOf, List.forall_mem_append] at hv
    exact List.forall_mem_cons.mpr ⟨⟨hw.1, hv.1⟩, ih hw.2 hv.2⟩

theorem fit_of_links {links : List (CompareOp × Expr)}
    (hw : ∀ n ∈ identifiersOfLinks links, IsWordy n)
    (hv : ∀ n ∈ uncalledOfLinks links, P n) : ∀ link ∈ links, link.2.Fit P := by
  induction links with
  | nil => simp
  | cons link links ih =>
    obtain ⟨op, e⟩ := link
    rw [identifiersOfLinks, List.forall_mem_append] at hw
    rw [uncalledOfLinks, List.forall_mem_append] at hv
    exact List.forall_mem_cons.mpr ⟨⟨hw.1, hv.1⟩, ih hw.2 hv.2⟩

theorem spelt_cTextAll {es : List Expr} {ts : List CText} (h : ∀ e ∈ es, e.Spoken P)
    (hf : ∀ e ∈ es, e.Fit P) (ht : cTextAll es = .ok ts) : ∀ t ∈ ts, C.Spelt P t.text := by
  intro t hmem
  obtain ⟨e, he, hte⟩ := exists_of_mem_cTextAll ht hmem
  exact h e he (hf e he) t hte

theorem spelt_cTextLinks {links : List (CompareOp × Expr)} {ts : List (CompareOp × CText)}
    (h : ∀ link ∈ links, link.2.Spoken P) (hf : ∀ link ∈ links, link.2.Fit P)
    (ht : cTextLinks links = .ok ts) : ∀ t ∈ ts, C.Spelt P t.2.text := by
  intro t hmem
  obtain ⟨link, hlink, htl⟩ := exists_of_mem_cTextLinks ht hmem
  exact h link hlink (hf link hlink) t.2 htl

theorem Expr.Spoken.of_components {e : Expr} (h : ∀ i ∈ e.components, i.Spoken P) : e.Spoken P := by
  cases e with
  | tuple =>
    intro _ t ht
    cases ht
  | _ => exact h _ (List.mem_singleton.mpr rfl)

theorem isWordy_pow : IsWordy "pow" :=
  List.all_eq_true.mp (by decide)

theorem separates_symbolOf {op : BinaryOp} {symbol : String} (hpow : op ≠ .pow)
    (h : CText.symbolOf op = .ok symbol) :
    C.lexer.Separates (" " ++ symbol ++ " ") (.symbol symbol) := by
  have hmem : symbol ∈ C.operators (.ofBinary op) := by
    cases op with
    | pow => exact absurd rfl hpow
    | matMult => cases h
    | _ =>
      cases h
      decide
  exact C.separates_operator hmem

theorem Expr.spoken_binary {span : Span} {left right : Expr} {op : BinaryOp}
    (hl : left.Spoken P) (hr : right.Spoken P) : (Expr.binary span left op right).Spoken P := by
  rintro ⟨hwordy, huncalled⟩ t ht
  rw [Expr.identifiers, List.forall_mem_append] at hwordy
  rw [Expr.uncalled, List.forall_mem_append] at huncalled
  have hfl : left.Fit P := ⟨hwordy.1, huncalled.1⟩
  have hfr : right.Fit P := ⟨hwordy.2, huncalled.2⟩
  by_cases hpow : op = .pow
  · subst hpow
    simp only [Expr.cText, translated_bind] at ht
    obtain ⟨l, hl', r, hr', hcall⟩ := ht
    cases hcall
    exact .call isName_pow isWordy_pow (by simpa using ⟨hl hfl l hl', hr hfr r hr'⟩)
  · simp only [Expr.cText_binary hpow, translated_bind] at ht
    obtain ⟨symbol, hsymbol, l, hl', r, hr', hbinary⟩ := ht
    cases hbinary
    exact .binary (separates_symbolOf hpow hsymbol) (hl hfl l hl') (hr hfr r hr')

theorem separates_assign : C.lexer.Separates " = " (.symbol "=") := by
  have hstep : ∀ tail, C.token? ("=".toList ++ ' ' :: tail) = some (.symbol "=", ' ' :: tail) :=
    fun _ => rfl
  exact C.separates_of_step hstep

theorem separates_augmented {op : BinaryOp} {symbol : String} (hpow : op ≠ .pow)
    (h : CText.symbolOf op = .ok symbol) :
    C.lexer.Separates (" " ++ (symbol ++ "=") ++ " ") (.symbol (symbol ++ "=")) := by
  refine C.separates_of_step fun tail => ?_
  cases op with
  | pow => exact absurd rfl hpow
  | matMult => cases h
  | _ =>
    cases h
    rfl

theorem Expr.Proper.spoken {e : Expr} (h : e.Proper) : ∀ i ∈ e.components, i.Spoken P := by
  induction h with
  | name _ h =>
    refine List.forall_mem_singleton.mpr ?_
    rintro ⟨hwordy, huncalled⟩ t ht
    cases ht
    exact .name h (hwordy _ (List.mem_singleton.mpr rfl)) (huncalled _ (List.mem_singleton.mpr rfl))
  | number _ h =>
    refine List.forall_mem_singleton.mpr fun _ t ht => ?_
    cases ht
    exact .number h
  | binary _ op _ _ hl hr =>
    exact List.forall_mem_singleton.mpr (spoken_binary (.of_components hl) (.of_components hr))
  | unary _ op _ h =>
    refine List.forall_mem_singleton.mpr ?_
    rintro ⟨hwordy, huncalled⟩ t ht
    simp only [Expr.cText, translated_bind] at ht
    obtain ⟨t, ht, hunary⟩ := ht
    cases hunary
    exact .unary op (Spoken.of_components h ⟨hwordy, huncalled⟩ t ht)
  | connect _ op hne _ h =>
    refine List.forall_mem_singleton.mpr ?_
    rintro ⟨hwordy, huncalled⟩ t ht
    simp only [Expr.cText, translated_bind] at ht
    obtain ⟨ts, hts, hconnect⟩ := ht
    cases hconnect
    have hne' : ts ≠ [] := fun hnil => hne (cTextAll_eq_nil (hnil ▸ hts))
    exact .connect op hne' (spelt_cTextAll (fun e he => .of_components (h e he))
      (fit_of_all hwordy huncalled) hts)
  | compare _ _ hne _ hl h =>
    refine List.forall_mem_singleton.mpr ?_
    rintro ⟨hwordy, huncalled⟩ t ht
    rw [Expr.identifiers, List.forall_mem_append] at hwordy
    rw [Expr.uncalled, List.forall_mem_append] at huncalled
    simp only [Expr.cText, translated_bind] at ht
    obtain ⟨l, hl', ts, hts, hcompare⟩ := ht
    cases hcompare
    have hne' : ts ≠ [] := fun hnil => hne (cTextLinks_eq_nil (hnil ▸ hts))
    have hleft := Spoken.of_components hl ⟨hwordy.1, huncalled.1⟩ l hl'
    exact hleft.compare hne' (spelt_cTextLinks (fun e he => .of_components (h e he))
      (fit_of_links hwordy.2 huncalled.2) hts)
  | call _ hcallee _ h =>
    refine List.forall_mem_singleton.mpr ?_
    rintro ⟨hwordy, huncalled⟩ t ht
    rw [Expr.identifiers, List.forall_mem_cons] at hwordy
    simp only [Expr.cText, translated_bind] at ht
    obtain ⟨ts, hts, hcall⟩ := ht
    cases hcall
    have hargs := spelt_cTextAll (fun e he => .of_components (h e he))
      (fit_of_all hwordy.2 huncalled) hts
    exact .call hcallee hwordy.1 (by simpa using hargs)
  | @subscript _ base index _ _ hb hindex =>
    refine List.forall_mem_singleton.mpr ?_
    rintro ⟨hwordy, huncalled⟩ t ht
    rw [Expr.identifiers, List.forall_mem_append, ← index.identifiersOf_components] at hwordy
    rw [Expr.uncalled, List.forall_mem_append, ← index.uncalledOf_components] at huncalled
    simp only [Expr.cText_subscript, translated_bind] at ht
    obtain ⟨b, hb', ts, hts, hsubscript⟩ := ht
    cases hsubscript
    have hbase := Spoken.of_components hb ⟨hwordy.1, huncalled.1⟩ b hb'
    exact hbase.subscript (spelt_cTextAll hindex (fit_of_all hwordy.2 huncalled.2) hts)
  | tuple _ _ h => exact fun e he => .of_components (h e he)
  | list | dict =>
    refine List.forall_mem_singleton.mpr fun _ t ht => ?_
    cases ht

/-- The target of an assignment. -/
theorem Expr.Proper.spelt_cTarget {e : Expr} {text : String} (h : e.Proper) (hf : e.Fit P)
    (ht : e.cTarget = .ok text) : C.Spelt P text := by
  obtain ⟨-, t, hcText, rfl⟩ := Expr.cTarget_eq_ok_iff.mp ht
  exact Spoken.of_components h.spoken hf t hcText

/-- The C text of a statement is read as clean tokens. -/
theorem Stmt.Proper.spelt_of_uncalled {s : Stmt} {text : String} (h : s.Proper)
    (hw : ∀ n ∈ s.identifiers, IsWordy n) (hv : ∀ n ∈ s.uncalled, P n)
    (ht : s.cText = .ok text) : C.Spelt P text := by
  cases h with
  | @assign _ targets value htargets hvalue =>
    rcases targets with _ | ⟨target, _ | ⟨target', targets⟩⟩
    · cases ht
    · simp only [Stmt.identifiers, identifiersOf, List.append_nil, List.forall_mem_append] at hw
      simp only [Stmt.uncalled, uncalledOf, List.append_nil, List.forall_mem_append] at hv
      simp only [Stmt.cText, translated_bind] at ht
      obtain ⟨t, ht, v, hv', htext⟩ := ht
      cases htext
      have htarget := (htargets target List.mem_cons_self).spelt_cTarget ⟨hw.1, hv.1⟩ ht
      have hvalue := Expr.Spoken.of_components hvalue.spoken ⟨hw.2, hv.2⟩ v hv'
      exact htarget.separated separates_assign hvalue
    · cases ht
  | @augment _ op target value htarget hvalue =>
    simp only [Stmt.identifiers, List.forall_mem_append] at hw
    simp only [Stmt.uncalled, List.forall_mem_append] at hv
    have htarget : ∀ t, target.cTarget = .ok t → C.Spelt P t := fun t ht =>
      htarget.spelt_cTarget ⟨hw.1, hv.1⟩ ht
    have hvalue := Expr.Spoken.of_components hvalue.spoken ⟨hw.2, hv.2⟩
    by_cases hpow : op = .pow
    · subst hpow
      simp only [Stmt.cText, translated_bind] at ht
      obtain ⟨t, ht, v, hv, htext⟩ := ht
      cases htext
      have hcall : C.Spelt P (CText.call "pow" [t, v.text]).text :=
        .call isName_pow isWordy_pow (by simpa using ⟨htarget t ht, hvalue v hv⟩)
      exact (htarget t ht).separated separates_assign hcall
    · simp only [Stmt.cText_augment hpow, translated_bind] at ht
      obtain ⟨t, ht, v, hv, symbol, hsymbol, htext⟩ := ht
      cases htext
      have hspelt := (htarget t ht).separated (separates_augmented hpow hsymbol) (hvalue v hv)
      rwa [show t ++ " " ++ symbol ++ "= " ++ v.text = t ++ (" " ++ (symbol ++ "=") ++ " ") ++ v.text
        by simp only [String.append_assoc]; rfl]
  | @eval _ value hvalue =>
    simp only [Stmt.cText, translated_bind] at ht
    obtain ⟨v, hv', htext⟩ := ht
    cases htext
    exact Expr.Spoken.of_components hvalue.spoken ⟨hw, hv⟩ v hv'

end Spoken

/-! ### Names of fields -/

theorem Expr.uncalled_eq_parts {e : Expr} (hname : e.form ≠ .name) (hsub : e.form ≠ .subscript) :
    e.uncalled = e.parts.flatMap uncalled := by
  have hall := eq_flatMap_map (f := uncalledOf) id rfl fun _ _ => rfl
  have hlinks := eq_flatMap_map (f := uncalledOfLinks) Prod.snd rfl fun _ _ => rfl
  have hkeys := eq_flatMap_map (f := uncalledOfKeys) Prod.fst rfl fun _ _ => rfl
  have hvalues := eq_flatMap_map (f := uncalledOfValues) Prod.snd rfl fun _ _ => rfl
  cases e with
  | name => exact absurd rfl hname
  | subscript => exact absurd rfl hsub
  | _ => simp [uncalled, parts, hall, hlinks, hkeys, hvalues]

section Mentions

variable {scope : Scope} {P : String → Prop} (hi : ∀ n ∈ scope.iterators, P n)
  (hc : ∀ n ∈ scope.constants, P n)

include hi hc

/-- A name that is not called is known to the scope, or it is the name of a field. -/
theorem Expr.forall_uncalled (e : Expr) :
    ∀ {inIndex isWrite : Bool}, e.readable inIndex →
      (∀ m ∈ e.mentions scope isWrite, P m.name) → ∀ n ∈ e.uncalled, P n := by
  induction e using induction_on_parts with
  | h e ih =>
    intro inIndex isWrite h hm
    have hparts : ∀ part ∈ e.parts, ∀ n ∈ part.uncalled, P n := by
      intro part hpart
      obtain ⟨inIndex, hreadable⟩ := readable_of_mem_parts h hpart
      have hmentions : ∀ m ∈ part.mentions scope false, P m.name := by
        intro m hmem
        apply hm m
        rw [mentions_eq h, List.mem_append, List.mem_append]
        exact .inl (.inr (List.mem_flatMap.mpr ⟨part, hpart, hmem⟩))
      exact ih part hpart hreadable hmentions
    cases e with
    | name span text =>
      refine List.forall_mem_singleton.mpr ?_
      by_cases hscope : text ∈ scope.iterators ∨ text ∈ scope.constants
      · exact hscope.elim (hi text) (hc text)
      · rw [Expr.mentions, if_neg hscope] at hm
        exact hm _ (List.mem_singleton.mpr rfl)
    | subscript span base index =>
      rw [readable_subscript, Bool.and_eq_true] at h
      obtain ⟨name, hname⟩ := Option.isSome_iff_exists.mp h.1
      have hbase : P name := by
        rw [mentions_subscript hname] at hm
        exact hm (.touch name) List.mem_cons_self
      cases base with
      | name =>
        cases hname
        rw [uncalled, List.forall_mem_append]
        exact ⟨List.forall_mem_singleton.mpr hbase, hparts index (List.mem_singleton.mpr rfl)⟩
      | _ => cases hname
    | _ =>
      rw [uncalled_eq_parts (by simp [form]) (by simp [form])]
      intro n hn
      obtain ⟨part, hpart, hn⟩ := List.mem_flatMap.mp hn
      exact hparts part hpart n hn

theorem Stmt.forall_uncalled {s : Stmt} (hr : s.readable)
    (hm : ∀ m ∈ s.mentions scope, P m.name) : ∀ n ∈ s.uncalled, P n := by
  cases s with
  | assign span targets value =>
    rcases targets with _ | ⟨target, _ | _⟩
    · cases hr
    · simp only [readable, Bool.and_eq_true] at hr
      simp only [mentions, List.forall_mem_append] at hm
      simp only [uncalled, uncalledOf, List.append_nil, List.forall_mem_append]
      exact ⟨target.forall_uncalled hi hc hr.1.2 hm.1, value.forall_uncalled hi hc hr.2 hm.2⟩
    · cases hr
  | augment span target op value =>
    simp only [readable, Bool.and_eq_true] at hr
    simp only [mentions, List.forall_mem_append] at hm
    simp only [uncalled, List.forall_mem_append]
    exact ⟨target.forall_uncalled hi hc hr.1.2 hm.1, value.forall_uncalled hi hc hr.2 hm.2⟩
  | eval span value => exact value.forall_uncalled hi hc hr hm

/-- The names in the C text of a statement that can be read are known to the scope, or they are names
of fields. -/
theorem Stmt.Proper.spelt_cText {s : Stmt} {text : String} (h : s.Proper) (hr : s.readable)
    (hw : ∀ n ∈ s.identifiers, IsWordy n) (hm : ∀ m ∈ s.mentions scope, P m.name)
    (ht : s.cText = .ok text) : C.Spelt P text :=
  h.spelt_of_uncalled hw (s.forall_uncalled hi hc hr hm) ht

end Mentions

end LoopNest
