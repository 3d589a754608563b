import LoopNest.Proofs.CursorReading
import LoopNest.Proofs.PlacedTrees

/-!
# Reading trees at their places

The items of a text follow one another, so the last token that a parser has read stands behind the
first one. From a cursor over such items a parser gives a result or an error at a place in the text,
and this is shown step by step along the parser. What has been read lies between a first span and the
last token, and a node keeps to that, from whatever spans its own is merged.
-/

namespace LoopNest

open LoopNest.Parser

/-! ### Cursors over items in order -/

/-- The place of an error of scanning or parsing. -/
def CompileError.span? : CompileError → Option Span
  | .scan e => some e.span
  | .parse e => some e.span
  | _ => none

namespace Cursor

def items (c : Cursor) : List Scan.Item :=
  .token c.current :: c.rest

/-- A cursor over items that stand in a text one behind the other, up to an empty one. -/
structure Ready (source : String) (c : Cursor) : Prop where
  places : ∀ item ∈ c.items, item.span.In source
  ordered : c.items.Pairwise fun a b => a.span.Before b.span
  stop : ∀ item ∈ c.items.getLast?, item.span.stop.offset ≤ item.span.start.offset

/-- A cursor between the last token that was read and the next one. -/
structure Between (source : String) (c : Cursor) : Prop where
  ready : c.Ready source
  last : c.last.In source
  before : c.last.Before c.current.span

/-- A cursor behind tokens of which the first has the given span. -/
structure Past (source : String) (first : Span) (c : Cursor) : Prop where
  between : c.Between source
  upto : first.Upto c.last

variable {source : String} {c c₁ c₂ : Cursor} {first : Span}

theorem Ready.place (h : c.Ready source) : c.current.span.In source :=
  h.places _ List.mem_cons_self

theorem Between.upto (h : c.Between source) : c.last.Upto c.current.span :=
  h.before.upto h.last h.ready.place

theorem Past.trans (h : c₁.Past source first) (h' : c₂.Past source c₁.last) :
    c₂.Past source first :=
  ⟨h'.between, h.upto.trans h'.upto⟩

/-- What has been read from the next token on has been read from the last one on. -/
theorem Past.of_current (h : c.Between source) (h' : c₁.Past source c.current.span) :
    c₁.Past source c.last :=
  ⟨h'.between, h.upto.trans h'.upto⟩

theorem Between.past (h : c.Between source) (hlast : c.last = first) : c.Past source first :=
  ⟨h, hlast ▸ .refl _⟩

end Cursor

/-! ### What parsers yield -/

namespace Parser

/-- From a cursor a parser yields a result as described, or an error at a place in the text. -/
def Gives {α : Type} (source : String) (Q : α → Cursor → Prop) (p : Parser α) (c : Cursor) : Prop :=
  match p c with
  | .ok (a, c') => Q a c'
  | .error e => ∃ span, e.span? = some span ∧ span.In source

namespace Gives

variable {α β : Type} {source : String} {P : α → Cursor → Prop} {Q : β → Cursor → Prop} {c : Cursor}

theorem pure {b : β} (h : Q b c) : Gives source Q (Pure.pure b) c := h

theorem bind {p : Parser α} {f : α → Parser β} (hp : Gives source P p c)
    (hf : ∀ a c₁, P a c₁ → Gives source Q (f a) c₁) : Gives source Q (p >>= f) c := by
  have hbind : (p >>= f) c = (p c).bind fun r => f r.1 r.2 := rfl
  unfold Gives at hp ⊢
  rw [hbind]
  cases hc : p c with
  | error e =>
    rw [hc] at hp
    exact hp
  | ok r =>
    rw [hc] at hp
    exact hf r.1 r.2 hp

/-- The same steps may be written in two ways. -/
theorem congr {p q : Parser β} (h : Gives source Q q c) (hp : p c = q c) : Gives source Q p c := by
  unfold Gives at h ⊢
  rwa [hp]

theorem get {f : Cursor → Parser β} (h : Gives source Q (f c) c) :
    Gives source Q (MonadState.get >>= f) c := h

theorem kind {f : Token.Kind → Parser β} (h : Gives source Q (f c.current.kind) c) :
    Gives source Q (Parser.kind >>= f) c := h

theorem here {f : Span → Parser β} (h : Gives source Q (f c.current.span) c) :
    Gives source Q (Parser.here >>= f) c := h

theorem last {f : Span → Parser β} (h : Gives source Q (f c.last) c) :
    Gives source Q (Parser.last >>= f) c := h

theorem remaining {f : Nat → Parser β} (h : Gives source Q (f c.rest.length) c) :
    Gives source Q (Parser.remaining >>= f) c := h

theorem fail {cause : ParseError.Cause} (h : c.Ready source) :
    Gives source Q (Parser.fail cause) c :=
  ⟨_, rfl, h.place⟩

theorem ite {φ : Prop} [Decidable φ] {p q : Parser β} (hyes : φ → Gives source Q p c)
    (hno : ¬ φ → Gives source Q q c) : Gives source Q (if φ then p else q) c := by
  split
  · exact hyes ‹_›
  · exact hno ‹_›

/-- Behind the current token the cursor is between that and the next one. -/
theorem advance {f : Unit → Parser β} (h : c.Ready source)
    (hf : ∀ c₁ : Cursor, c₁.Between source → c₁.last = c.current.span →
      Gives source Q (f ()) c₁) : Gives source Q (Parser.advance >>= f) c := by
  refine bind (P := fun _ c₁ => c₁.Between source ∧ c₁.last = c.current.span) ?_
    fun _ c₁ h₁ => hf c₁ h₁.1 h₁.2
  obtain ⟨current, last, rest⟩ := c
  obtain ⟨hplaces, hordered, hstop⟩ := h
  unfold Gives
  rw [advance_eq]
  rcases rest with _ | ⟨_ | e, rest⟩
  · have hempty := hstop (.token current) rfl
    exact ⟨⟨⟨hplaces, hordered, hstop⟩, hplaces _ List.mem_cons_self, hempty⟩, rfl⟩
  · obtain ⟨hplace, hplaces⟩ := List.forall_mem_cons.mp hplaces
    obtain ⟨hbefore, hordered⟩ := List.pairwise_cons.mp hordered
    exact ⟨⟨⟨hplaces, hordered, hstop⟩, hplace, hbefore _ List.mem_cons_self⟩, rfl⟩
  · exact ⟨_, rfl, hplaces (.fault e) (by simp [Cursor.items])⟩

theorem accept {f : Bool → Parser β} {k : Token.Kind} (h : c.Ready source)
    (hyes : ∀ c₁ : Cursor, c₁.Between source → c₁.last = c.current.span →
      Gives source Q (f true) c₁) (hno : Gives source Q (f false) c) :
    Gives source Q (Parser.accept k >>= f) c := by
  have hgo : Gives source Q (Parser.advance >>= fun _ => f true) c := advance h hyes
  by_cases hk : c.current.kind = k
  · exact hgo.congr (by rw [accept_bind, if_pos hk])
  · exact hno.congr (by rw [accept_bind, if_neg hk])

theorem expect {f : Unit → Parser β} {delimiter : Delimiter} (h : c.Ready source)
    (hf : ∀ c₁ : Cursor, c₁.Between source → c₁.last = c.current.span →
      Gives source Q (f ()) c₁) : Gives source Q (Parser.expect delimiter >>= f) c := by
  have hfail : Gives source Q (Parser.fail (.missing delimiter) >>= f) c :=
    bind (P := fun _ _ => False) (fail h) fun _ _ => False.elim
  by_cases hk : c.current.kind = delimiter.kind
  · exact (advance h hf).congr (by rw [expect_bind, if_pos hk])
  · exact hfail.congr (by rw [expect_bind, if_neg hk])

end Gives

end Parser

/-! ### What has been read -/

/-- A cursor behind expressions that have been read: they lie between an offset and the last token,
and none starts behind that token. -/
structure Cursor.Read (source : String) (first : Span) (lo : Nat) (es : List Expr) (c : Cursor) :
    Prop where
  past : c.Past source first
  laid : Laid source lo es c.last.stop.offset
  starts : ∀ e ∈ es, e.span.start.offset ≤ c.last.start.offset

namespace Cursor

variable {source : String} {c c₁ c₂ : Cursor} {first : Span} {lo lo' : Nat} {e d : Expr}
  {es ds : List Expr} {a b : Span}

/-- Going on from between two tokens. -/
theorem Between.advance (h : c.Between source) (h₁ : c₁.Between source)
    (hlast : c₁.last = c.current.span) : c₁.Past source c.last :=
  ⟨h₁, hlast ▸ h.upto⟩

namespace Read

theorem nil (h : c.Past source first) : c.Read source first first.stop.offset [] :=
  ⟨h, .nil h.upto.2, by simp⟩

theorem mono (h : c.Read source first lo es) (hlo : lo' ≤ lo) : c.Read source first lo' es :=
  ⟨h.past, h.laid.mono hlo (Nat.le_refl _), h.starts⟩

/-- Expressions behind others. -/
theorem append (h : c₁.Read source first lo es)
    (h' : c₂.Read source c₁.last c₁.last.stop.offset ds) : c₂.Read source first lo (es ++ ds) := by
  refine ⟨h.past.trans h'.past, h.laid.append h'.laid, List.forall_mem_append.mpr ⟨?_, h'.starts⟩⟩
  exact fun e he => Nat.le_trans (h.starts e he) h'.past.upto.1

/-- A token behind expressions. -/
theorem advance (h : c₁.Read source first lo es) (h₂ : c₂.Between source)
    (hlast : c₂.last = c₁.current.span) : c₂.Read source first lo es := by
  have hnil := nil (h.past.between.advance h₂ hlast)
  rw [← List.append_nil es]
  exact h.append hnil

/-- Expressions behind a token. -/
theorem of_current (h : c.Past source first)
    (h₁ : c₁.Read source c.current.span c.current.span.start.offset es) :
    c₁.Read source first first.stop.offset es :=
  ⟨h.trans (h₁.past.of_current h.between),
    h₁.laid.mono (Nat.le_trans h.upto.2 h.between.before) (Nat.le_refl _), h₁.starts⟩

/-- The last expression that has been read stops with the last token or before. -/
theorem single (h : c.Read source first lo [e]) : e.span.In source ∧ lo ≤ e.span.start.offset ∧
    e.span.Upto c.last ∧ Laid source e.span.start.offset [e] e.span.stop.offset := by
  obtain ⟨hplaced, hlo, hhi⟩ := Laid.singleton_iff.mp h.laid
  refine ⟨(hplaced e .here).place, hlo, ⟨h.starts e List.mem_cons_self, hhi⟩, ?_⟩
  exact Laid.singleton_iff.mpr ⟨hplaced, Nat.le_refl _, Nat.le_refl _⟩

/-- A node that is put together from a row of expressions between two spans. -/
theorem node_of_parts (hc : c.Past source first) (ha : a.In source) (hb : b.In source)
    (hab : a.Upto b) (hbc : b.Upto c.last) (hlo : lo ≤ a.start.offset)
    (h : Laid source a.start.offset es b.stop.offset) (hspan : d.span = a.merge b)
    (hchildren : ∀ child ∈ d.children, child ∈ es)
    (hordered : (d.form = .dict → d.keys.length ≤ 1) → d.children = es) :
    c.Read source first lo [d] := by
  refine ⟨hc, (h.node_of_parts ha hb hab hspan hchildren hordered).mono hlo hbc.2, ?_⟩
  rw [List.forall_mem_singleton, hspan, (ha.merge hb hab).2.1]
  exact Nat.le_trans hab.1 hbc.1

theorem node_between (hc : c.Past source first) (ha : a.In source) (hb : b.In source)
    (hab : a.Upto b) (hbc : b.Upto c.last) (hlo : lo ≤ a.start.offset)
    (h : Laid source a.start.offset d.children b.stop.offset) (hspan : d.span = a.merge b) :
    c.Read source first lo [d] :=
  node_of_parts hc ha hb hab hbc hlo h hspan (fun _ => id) fun _ => rfl

/-- A node from its first token to the last one. -/
theorem node (hfirst : first.In source) (h : c.Read source first first.start.offset d.children)
    (hspan : d.span = first.merge c.last) : c.Read source first first.start.offset [d] :=
  node_between h.past hfirst h.past.between.last h.past.upto (.refl _) (Nat.le_refl _) h.laid hspan

/-- A node of one token. -/
theorem leaf (hfirst : first.In source) (h : c.Past source first) (hspan : d.span = first)
    (hchildren : d.children = []) : c.Read source first first.start.offset [d] := by
  refine node_between h hfirst hfirst (.refl _) h.upto (Nat.le_refl _) ?_
    (hspan.trans first.merge_self.symm)
  rw [hchildren]
  exact .nil hfirst.le

/-- A node from an expression to the last token. -/
theorem suffix (h : c.Read source first lo [e])
    (h₁ : c₁.Read source c.last c.last.stop.offset es) (hspan : d.span = e.span.merge c₁.last)
    (hchildren : d.children = es ∨ d.children = e :: es) : c₁.Read source first lo [d] := by
  obtain ⟨he, hlo, hupto, hlaid⟩ := h.single
  have hrest : Laid source e.span.stop.offset es c₁.last.stop.offset :=
    h₁.laid.mono hupto.2 (Nat.le_refl _)
  refine node_between (h.past.trans h₁.past) he h₁.past.between.last (hupto.trans h₁.past.upto)
    (.refl _) hlo ?_ hspan
  rcases hchildren with hchildren | hchildren <;> rw [hchildren]
  · exact hrest.mono he.le (Nat.le_refl _)
  · exact hlaid.append hrest

/-- An operation from its left operand to its right one. -/
theorem join {left right : Expr} (h : c.Read source first lo [left])
    (h₁ : c₁.Read source c.last c.last.stop.offset [right]) (op : BinaryOp) :
    c₁.Read source first lo [left.join op right] := by
  obtain ⟨hl, hlo, hupto, hleft⟩ := h.single
  obtain ⟨hr, hbehind, hupto₁, hright⟩ := h₁.single
  have hbefore : left.span.Before right.span := Nat.le_trans hupto.2 hbehind
  refine node_between (h.past.trans h₁.past) hl hr (hbefore.upto hl hr) hupto₁ hlo ?_ rfl
  exact hleft.append (hright.mono hbefore (Nat.le_refl _))

/-- An operand with the token of a sign before it. -/
theorem sign {operand : Expr} (hfirst : first.In source)
    (h : c.Read source first first.stop.offset [operand])
    (hspan : d.span = first.merge operand.span) (hchildren : d.children = [operand]) :
    c.Read source first first.start.offset [d] := by
  obtain ⟨ho, hbehind, hupto, hoperand⟩ := h.single
  have hbefore : first.Before operand.span := hbehind
  refine node_between h.past hfirst ho (hbefore.upto hfirst ho) hupto (Nat.le_refl _) ?_ hspan
  rw [hchildren]
  exact hoperand.mono (Nat.le_trans hfirst.le hbefore) (Nat.le_refl _)

/-- The operands of one connective. -/
theorem connect (h : c.Read source first lo (e :: es)) (hne : es ≠ []) (op : Connective) :
    c.Read source first lo [.connect (spanOf e es) op (e :: es)] := by
  obtain ⟨init, last, rfl⟩ := (List.eq_nil_or_concat es).resolve_left hne
  rw [List.concat_eq_append] at h ⊢
  have hmem : last ∈ init ++ [last] := List.mem_append_right _ (List.mem_singleton_self _)
  have hmem' := List.mem_cons_of_mem e hmem
  have he := (h.laid.placed e List.mem_cons_self e .here).place
  have hl := (h.laid.placed last hmem' last .here).place
  -- the operands in a row from the first to the last of them
  obtain ⟨hlo, hle, hrow⟩ := h.laid.row
  have hall : Span.Row e.span.start.offset ((e :: (init ++ [last])).map Expr.span)
      c.last.stop.offset := ⟨Nat.le_refl _, hle, hrow⟩
  have hlast : last.span ∈ ((e :: (init ++ [last])).map Expr.span).getLast? := by
    rw [List.map_cons, List.map_append, ← List.cons_append]
    exact List.getLast?_concat
  obtain ⟨hbehind, hstop⟩ := hrow.within last.span (List.mem_map_of_mem hmem)
  have hbefore : e.span.Before last.span := hbehind
  refine node_between h.past he hl (hbefore.upto he hl) ⟨h.starts last hmem', hstop⟩ hlo
    ⟨h.laid.placed, hall.getLast hlast⟩ ?_
  simp [Expr.span, spanOf]

/-- The keys and values of a dict display as they are read. -/
theorem dict {entries : List (Expr × Expr)} (hfirst : first.In source)
    (h : c.Read source first first.start.offset
      (entries.flatMap fun entry => [entry.1, entry.2])) :
    c.Read source first first.start.offset [.dict (first.merge c.last) entries] := by
  refine node_of_parts h.past hfirst h.past.between.last h.past.upto (.refl _) (Nat.le_refl _)
    h.laid rfl ?_ ?_
  · intro child hchild
    simp only [Expr.children, List.mem_append, List.mem_map, List.mem_flatMap] at hchild ⊢
    rcases hchild with ⟨entry, hentry, rfl⟩ | ⟨entry, hentry, rfl⟩
    · exact ⟨entry, hentry, List.mem_cons_self⟩
    · exact ⟨entry, hentry, List.mem_cons_of_mem _ List.mem_cons_self⟩
  · intro hentries
    have hlength : entries.length ≤ 1 := by simpa [Expr.keys] using hentries rfl
    rcases entries with _ | ⟨entry, _ | ⟨other, entries⟩⟩
    · rfl
    · rfl
    · simp at hlength

end Read

end Cursor

end LoopNest
