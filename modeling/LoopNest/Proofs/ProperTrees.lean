import LoopNest.Proofs.ProgramGrammar
import LoopNest.Proofs.Spelling

/-!
# The trees of programs

Not every tree is read from a text: in the trees of programs names and numbers are spelled as such,
a connective joins something, and a comparison has a link at least. Derivations over words that are
spelled well give only such trees, and so does reading a program.
-/

namespace LoopNest

open Grammar Scan

/-- The expressions of programs. -/
inductive Expr.Proper : Expr → Prop where
  | name (span : Span) {text : String} (h : IsName text) : Proper (.name span text)
  | number (span : Span) {text : String} (h : IsNumeral text) : Proper (.number span text)
  | binary (span : Span) (op : BinaryOp) {left right : Expr} (hl : Proper left)
      (hr : Proper right) : Proper (.binary span left op right)
  | unary (span : Span) (op : UnaryOp) {operand : Expr} (h : Proper operand) :
      Proper (.unary span op operand)
  | connect (span : Span) (op : Connective) {values : List Expr} (hne : values ≠ [])
      (h : ∀ e ∈ values, Proper e) : Proper (.connect span op values)
  | compare (span : Span) {left : Expr} {links : List (CompareOp × Expr)} (hl : Proper left)
      (hne : links ≠ []) (h : ∀ link ∈ links, Proper link.2) : Proper (.compare span left links)
  | call (span : Span) {callee : String} {args : List Expr} (hc : IsName callee)
      (h : ∀ e ∈ args, Proper e) : Proper (.call span callee args)
  | subscript (span : Span) {base index : Expr} (hb : Proper base) (hi : Proper index) :
      Proper (.subscript span base index)
  | tuple (span : Span) {items : List Expr} (h : ∀ e ∈ items, Proper e) :
      Proper (.tuple span items)
  | list (span : Span) {items : List Expr} (h : ∀ e ∈ items, Proper e) : Proper (.list span items)
  | dict (span : Span) {entries : List (Expr × Expr)} (hk : ∀ entry ∈ entries, Proper entry.1)
      (hv : ∀ entry ∈ entries, Proper entry.2) : Proper (.dict span entries)

/-- The statements of programs. -/
inductive Stmt.Proper : Stmt → Prop where
  | assign (span : Span) {targets : List Expr} {value : Expr} (ht : ∀ e ∈ targets, e.Proper)
      (hv : value.Proper) : Proper (.assign span targets value)
  | augment (span : Span) (op : BinaryOp) {target value : Expr} (ht : target.Proper)
      (hv : value.Proper) : Proper (.augment span target op value)
  | eval (span : Span) {value : Expr} (h : value.Proper) : Proper (.eval span value)

namespace Grammar

/-- A phrase made of expressions of programs. -/
def Phrase.Proper : Phrase → Prop
  | .expr e => e.Proper
  | .exprs es => ∀ e ∈ es, e.Proper
  | .links ls => ∀ link ∈ ls, link.2.Proper
  | .entries es => (∀ entry ∈ es, entry.1.Proper) ∧ ∀ entry ∈ es, entry.2.Proper

/-- Words that are spelled well have only trees of programs. -/
theorem Derives.proper {symbol : Symbol} {ws : List Word} {phrase : Phrase}
    (h : Derives symbol ws phrase) (hws : ∀ w ∈ ws, Spelled w) : phrase.Proper := by
  induction h with
  | atom _ ih | primary _ ih | power _ ih | operand _ ih | uncompared _ ih | comparison _ ih
  | unconnected _ ih | single _ ih => exact ih hws
  | noLink | noPart | noItem | noEntry => simp [Phrase.Proper]
  | name text => exact Expr.Proper.name _ ((hws _ List.mem_cons_self).1 rfl)
  | number text hk => exact Expr.Proper.number _ ((hws _ List.mem_cons_self).2 hk)
  | unit => exact Expr.Proper.tuple _ (by simp)
  | group s t _ ih =>
    simp only [List.forall_mem_cons, List.forall_mem_append] at hws
    exact ih hws.2.1
  | list s t _ ih =>
    simp only [List.forall_mem_cons, List.forall_mem_append] at hws
    exact Expr.Proper.list _ (ih hws.2.1)
  | dict s t _ ih =>
    simp only [List.forall_mem_cons, List.forall_mem_append] at hws
    exact Expr.Proper.dict _ (ih hws.2.1).1 (ih hws.2.1).2
  | call s t _ _ ihead iargs =>
    simp only [List.forall_mem_cons, List.forall_mem_append] at hws
    cases ihead hws.1 with
    | name _ hname => exact Expr.Proper.call _ hname (iargs hws.2.2.1)
  | subscript s t _ _ ihead iindex =>
    simp only [List.forall_mem_cons, List.forall_mem_append] at hws
    exact Expr.Proper.subscript _ (ihead hws.1) (iindex hws.2.2.1)
  | pow s _ _ il ir | binary s _ _ _ il ir =>
    simp only [List.forall_mem_cons, List.forall_mem_append] at hws
    exact Expr.Proper.binary _ _ (il hws.1) (ir hws.2.2)
  | sign s _ _ ih | inversion s _ _ ih =>
    exact Expr.Proper.unary _ _ (ih (List.forall_mem_cons.mp hws).2)
  | link s _ _ ihead irest | part s _ _ _ ihead irest =>
    simp only [List.forall_mem_cons, List.forall_mem_append] at hws
    exact List.forall_mem_cons.mpr ⟨ihead hws.2.1, irest hws.2.2⟩
  | compared _ _ ihead irest =>
    obtain ⟨hhead, hrest⟩ := List.forall_mem_append.mp hws
    exact Expr.Proper.compare _ (ihead hhead) (by simp) (irest hrest)
  | connected _ _ ihead irest =>
    obtain ⟨hhead, hrest⟩ := List.forall_mem_append.mp hws
    exact Expr.Proper.connect _ _ (by simp) (List.forall_mem_cons.mpr ⟨ihead hhead, irest hrest⟩)
  | lastItem _ ih => exact List.forall_mem_cons.mpr ⟨ih hws, by simp⟩
  | item s _ _ ihead irest =>
    simp only [List.forall_mem_cons, List.forall_mem_append] at hws
    exact List.forall_mem_cons.mpr ⟨ihead hws.1, irest hws.2.2⟩
  | lastEntry s _ _ ikey ivalue =>
    simp only [List.forall_mem_cons, List.forall_mem_append] at hws
    exact ⟨List.forall_mem_cons.mpr ⟨ikey hws.1, by simp⟩,
      List.forall_mem_cons.mpr ⟨ivalue hws.2.2, by simp⟩⟩
  | entry s t _ _ _ ikey ivalue irest =>
    simp only [List.forall_mem_cons, List.forall_mem_append] at hws
    obtain ⟨hkeys, hvalues⟩ := irest hws.2.2.2.2
    exact ⟨List.forall_mem_cons.mpr ⟨ikey hws.1, hkeys⟩,
      List.forall_mem_cons.mpr ⟨ivalue hws.2.2.1, hvalues⟩⟩
  | tuple s _ _ ihead irest =>
    simp only [List.forall_mem_cons, List.forall_mem_append] at hws
    exact Expr.Proper.tuple _ (List.forall_mem_cons.mpr ⟨ihead hws.1, irest hws.2.2⟩)

theorem Targets.proper {ws : List Word} {targets : List Expr} (h : Targets ws targets)
    (hws : ∀ w ∈ ws, Spelled w) : ∀ e ∈ targets, e.Proper := by
  induction h with
  | nil => simp
  | cons s head _ _ ih =>
    simp only [List.forall_mem_cons, List.forall_mem_append] at hws
    exact List.forall_mem_cons.mpr ⟨head.proper hws.1, ih hws.2.2⟩

theorem Statement.proper {ws : List Word} {stmt : Stmt} (h : Statement ws stmt)
    (hws : ∀ w ∈ ws, Spelled w) : stmt.Proper := by
  cases h with
  | eval h => exact .eval _ (h.proper hws)
  | assign left right =>
    obtain ⟨hleft, hright⟩ := List.forall_mem_append.mp hws
    exact .assign _ (left.proper hleft) (right.proper hright)
  | augment s left _ right =>
    simp only [List.forall_mem_cons, List.forall_mem_append] at hws
    exact .augment _ _ (left.proper hws.1) (right.proper hws.2.2)

theorem Body.proper {ws : List Word} {ss : List Stmt} (h : Body ws ss)
    (hws : ∀ w ∈ ws, Spelled w) : ∀ s ∈ ss, s.Proper := by
  induction h with
  | nil => simp
  | skip s _ _ ih => exact ih (List.forall_mem_cons.mp hws).2
  | last h => exact List.forall_mem_cons.mpr ⟨h.proper hws, by simp⟩
  | cons s head _ _ ih =>
    simp only [List.forall_mem_cons, List.forall_mem_append] at hws
    exact List.forall_mem_cons.mpr ⟨head.proper hws.1, ih hws.2.2⟩

end Grammar

/-! ### Spans do not matter -/

mutual

theorem Expr.proper_of_bare : ∀ e : Expr, e.bare.Proper → e.Proper
  | .name span _, h => by
    cases h with
    | name _ h => exact .name span h
  | .number span _, h => by
    cases h with
    | number _ h => exact .number span h
  | .binary span left op right, h => by
    cases h with
    | binary _ _ hl hr => exact .binary span op (left.proper_of_bare hl) (right.proper_of_bare hr)
  | .unary span op operand, h => by
    cases h with
    | unary _ _ h => exact .unary span op (operand.proper_of_bare h)
  | .connect span op values, h => by
    cases h with
    | connect _ _ hne h =>
      refine .connect span op ?_ (proper_of_bareAll values h)
      rintro rfl
      exact hne rfl
  | .compare span left links, h => by
    cases h with
    | compare _ hl hne h =>
      refine .compare span (left.proper_of_bare hl) ?_ (proper_of_bareLinks links h)
      rintro rfl
      exact hne rfl
  | .call span callee args, h => by
    cases h with
    | call _ hc h => exact .call span hc (proper_of_bareAll args h)
  | .subscript span base index, h => by
    cases h with
    | subscript _ hb hi =>
      exact .subscript span (base.proper_of_bare hb) (index.proper_of_bare hi)
  | .tuple span items, h => by
    cases h with
    | tuple _ h => exact .tuple span (proper_of_bareAll items h)
  | .list span items, h => by
    cases h with
    | list _ h => exact .list span (proper_of_bareAll items h)
  | .dict span entries, h => by
    cases h with
    | dict _ hk hv =>
      have h := proper_of_bareEntries entries hk hv
      exact .dict span h.1 h.2

theorem proper_of_bareAll : ∀ es : List Expr, (∀ e ∈ bareAll es, e.Proper) → ∀ e ∈ es, e.Proper
  | [], _ => by simp
  | e :: es, h =>
    List.forall_mem_cons.mpr ⟨e.proper_of_bare (h _ List.mem_cons_self),
      proper_of_bareAll es fun e he => h e (List.mem_cons_of_mem _ he)⟩

theorem proper_of_bareLinks : ∀ links : List (CompareOp × Expr),
    (∀ link ∈ bareLinks links, link.2.Proper) → ∀ link ∈ links, link.2.Proper
  | [], _ => by simp
  | (_, e) :: links, h =>
    List.forall_mem_cons.mpr ⟨e.proper_of_bare (h (_, e.bare) List.mem_cons_self),
      proper_of_bareLinks links fun link hl => h link (List.mem_cons_of_mem _ hl)⟩

theorem proper_of_bareEntries : ∀ entries : List (Expr × Expr),
    (∀ entry ∈ bareEntries entries, entry.1.Proper) →
    (∀ entry ∈ bareEntries entries, entry.2.Proper) →
    (∀ entry ∈ entries, entry.1.Proper) ∧ ∀ entry ∈ entries, entry.2.Proper
  | [], _, _ => by simp
  | (key, value) :: entries, hk, hv => by
    have hrest := proper_of_bareEntries entries
      (fun entry he => hk entry (List.mem_cons_of_mem _ he))
      (fun entry he => hv entry (List.mem_cons_of_mem _ he))
    have hkey := key.proper_of_bare (hk (key.bare, value.bare) List.mem_cons_self)
    have hvalue := value.proper_of_bare (hv (key.bare, value.bare) List.mem_cons_self)
    exact ⟨List.forall_mem_cons.mpr ⟨hkey, hrest.1⟩, List.forall_mem_cons.mpr ⟨hvalue, hrest.2⟩⟩

end

theorem Stmt.proper_of_bare {s : Stmt} (h : s.bare.Proper) : s.Proper := by
  cases s with
  | assign span targets value =>
    cases h with
    | assign _ ht hv => exact .assign span (proper_of_bareAll targets ht) (value.proper_of_bare hv)
  | augment span target op value =>
    cases h with
    | augment _ _ ht hv =>
      exact .augment span op (target.proper_of_bare ht) (value.proper_of_bare hv)
  | eval span value =>
    cases h with
    | eval _ h => exact .eval span (value.proper_of_bare h)

/-- Reading a program gives only trees of programs. -/
theorem Program.proper_of_parse {source : String} {p : Program} (h : parse source = .ok p) :
    ∀ s ∈ p.body, s.Proper := by
  obtain ⟨ts, stop, htokens, -, hbody⟩ := exists_body_of_parse h
  have hspelled : ∀ w ∈ ts.map Token.word, Spelled w := by
    intro w hw
    obtain ⟨t, ht, rfl⟩ := List.mem_map.mp hw
    exact spelled_of_mem_tokens htokens (List.mem_append_left _ ht)
  intro s hs
  exact Stmt.proper_of_bare (hbody.proper hspelled _ (List.mem_map_of_mem hs))

/-! ### Checks on concrete programs -/

theorem exists_ok_of_any {ε α : Type} {x : Except ε α} {f : α → Bool} (h : x.toOption.any f) :
    ∃ a, x = .ok a ∧ f a := by
  cases x with
  | error => cases h
  | ok a => exact ⟨a, rfl, h⟩

/-- A check that holds of a statement in the program of a text. -/
theorem Program.exists_of_any {source : String} {f : Stmt → Bool}
    (h : (Program.parse source).toOption.any fun p => p.body.any f) :
    ∃ p s, Program.parse source = .ok p ∧ s ∈ p.body ∧ f s := by
  obtain ⟨p, hp, hbody⟩ := exists_ok_of_any h
  obtain ⟨s, hs, hf⟩ := List.any_eq_true.mp hbody
  exact ⟨p, s, hp, hs, hf⟩

end LoopNest
