import LoopNest.Proofs.PlacedReading
import LoopNest.Proofs.ProperTrees
import LoopNest.Proofs.ScanTiling

/-!
# The spans of a program

Every function of the parser builds its spans from tokens and expressions that it has read, and what
it reads lies between the token where it starts and the last token that it reads. So the spans in a
program nest and follow the text. Errors are met at items of the text or at expressions that have been
read.
-/

namespace LoopNest

open LoopNest.Parser

/-! ### Expressions -/

namespace Parser

variable {source : String} {expr : Parser Expr} {c : Cursor}

/-- Wherever a parser starts, it reads an expression between the token there and the last one that it
reads. -/
def Lays (source : String) (p : Parser Expr) : Prop :=
  ∀ ⦃c : Cursor⦄, c.Ready source →
    Gives source (fun e c' => c'.Read source c.current.span c.current.span.start.offset [e]) p c

section Lists

variable (hexpr : Lays source expr)
include hexpr

theorem listTail_gives (n : Nat) (h : c.Between source) :
    Gives source (fun es c' => c'.Read source c.last c.last.stop.offset es) (listTail expr n) c := by
  induction n generalizing c with
  | zero => exact .pure (.nil (h.past rfl))
  | succ n ih =>
    refine .accept h.ready (fun c₁ h₁ hlast => ?_) (.pure (.nil (h.past rfl)))
    have hpast := h.advance h₁ hlast
    refine .kind (.ite (fun _ => .pure (.nil hpast)) fun _ => ?_)
    refine .bind (hexpr h₁.ready) fun e c₂ h₂ => ?_
    refine .bind (ih h₂.past.between) fun es c₃ h₃ => .pure ?_
    exact (Cursor.Read.of_current hpast h₂).append h₃

theorem exprList_lays : Lays source (exprList expr) := by
  intro c h
  refine .here (.bind (hexpr h) fun first c₁ h₁ => ?_)
  refine .kind (.ite (fun _ => ?_) fun _ => .pure h₁)
  refine .remaining (.bind (listTail_gives hexpr _ h₁.past.between) fun others c₂ h₂ => ?_)
  exact .last (.pure (.node h.place (h₁.append h₂) rfl))

theorem sequence_gives (close : Token.Kind) (n : Nat) (h : c.Between source) :
    Gives source (fun es c' => c'.Read source c.last c.last.stop.offset es)
      (sequence expr close n) c := by
  induction n generalizing c with
  | zero => exact .pure (.nil (h.past rfl))
  | succ n ih =>
    refine .kind (.ite (fun _ => .pure (.nil (h.past rfl))) fun _ => ?_)
    refine .bind (hexpr h.ready) fun e c₁ h₁ => ?_
    have hitem := Cursor.Read.of_current (h.past rfl) h₁
    refine .accept h₁.past.between.ready (fun c₂ h₂ hlast => ?_) (.pure hitem)
    refine .bind (ih h₂) fun es c₃ h₃ => .pure ?_
    exact (hitem.advance h₂ hlast).append h₃

theorem entries_gives (n : Nat) (h : c.Between source) :
    Gives source (fun es c' => c'.Read source c.last c.last.stop.offset
      (es.flatMap fun entry => [entry.1, entry.2])) (entries expr n) c := by
  induction n generalizing c with
  | zero => exact .pure (.nil (h.past rfl))
  | succ n ih =>
    refine .kind (.ite (fun _ => .pure (.nil (h.past rfl))) fun _ => ?_)
    refine .bind (hexpr h.ready) fun key c₁ h₁ => ?_
    have hkey := Cursor.Read.of_current (h.past rfl) h₁
    refine .expect h₁.past.between.ready fun c₂ h₂ hcolon => ?_
    refine .bind (hexpr h₂.ready) fun value c₃ h₃ => ?_
    have hentry := (hkey.advance h₂ hcolon).append (.of_current (h₂.past rfl) h₃)
    refine .accept h₃.past.between.ready (fun c₄ h₄ hcomma => ?_) (.pure hentry)
    refine .bind (ih h₄) fun es c₅ h₅ => .pure ?_
    exact (hentry.advance h₄ hcomma).append h₅

/-- What a bracket opens is read up to the closing one. -/
theorem atom_lays : Lays source (atom expr) := by
  intro c h
  unfold atom
  refine .get ?_
  dsimp only
  split
  · exact .advance h fun c₁ h₁ hlast => .pure (.leaf h.place (h₁.past hlast) rfl rfl)
  · exact .advance h fun c₁ h₁ hlast => .pure (.leaf h.place (h₁.past hlast) rfl rfl)
  · exact .advance h fun c₁ h₁ hlast => .pure (.leaf h.place (h₁.past hlast) rfl rfl)
  · refine .advance h fun c₁ h₁ hlast => .accept h₁.ready (fun c₂ h₂ hclose => ?_) ?_
    · have hpast := (h₁.past hlast).trans (h₁.advance h₂ hclose)
      exact .last (.pure (.node h.place ((Cursor.Read.nil hpast).mono h.place.le) rfl))
    · refine .bind (exprList_lays hexpr h₁.ready) fun inner c₂ h₂ => ?_
      refine .expect h₂.past.between.ready fun c₃ h₃ hclose => .pure ?_
      exact ((Cursor.Read.of_current (h₁.past hlast) h₂).mono h.place.le).advance h₃ hclose
  · refine .advance h fun c₁ h₁ hlast => .remaining ?_
    refine .bind (sequence_gives hexpr _ _ h₁) fun items c₂ h₂ => ?_
    rw [hlast] at h₂
    refine .expect h₂.past.between.ready fun c₃ h₃ hclose => ?_
    exact .last (.pure (.node h.place ((h₂.mono h.place.le).advance h₃ hclose) rfl))
  · refine .advance h fun c₁ h₁ hlast => .remaining ?_
    refine .bind (entries_gives hexpr _ h₁) fun items c₂ h₂ => ?_
    rw [hlast] at h₂
    refine .expect h₂.past.between.ready fun c₃ h₃ hclose => ?_
    exact .last (.pure (.dict h.place ((h₂.mono h.place.le).advance h₃ hclose)))
  · exact .fail h

theorem trailers_gives (n : Nat) {first : Span} {lo : Nat} {e : Expr}
    (h : c.Read source first lo [e]) :
    Gives source (fun e' c' => c'.Read source first lo [e']) (trailers expr n e) c := by
  induction n generalizing c e with
  | zero => exact .pure h
  | succ n ih =>
    have hbetween := h.past.between
    unfold trailers
    refine .kind ?_
    split
    · split
      · refine .advance hbetween.ready fun c₁ h₁ hlast => .remaining ?_
        have hopen := Cursor.Read.nil (hbetween.advance h₁ hlast)
        refine .bind (sequence_gives hexpr _ _ h₁) fun args c₂ h₂ => ?_
        refine .expect h₂.past.between.ready fun c₃ h₃ hclose => .last (ih ?_)
        exact h.suffix ((hopen.append h₂).advance h₃ hclose) rfl (.inl rfl)
      · exact .fail hbetween.ready
    · refine .advance hbetween.ready fun c₁ h₁ hlast => ?_
      refine .bind (exprList_lays hexpr h₁.ready) fun index c₂ h₂ => ?_
      have hindex := Cursor.Read.of_current (hbetween.advance h₁ hlast) h₂
      refine .expect h₂.past.between.ready fun c₃ h₃ hclose => .last (ih ?_)
      exact h.suffix (hindex.advance h₃ hclose) rfl (.inr rfl)
    · exact .pure h

theorem primary_lays : Lays source (primary expr) :=
  fun _ h => .bind (atom_lays hexpr h) fun _ _ h₁ => .remaining (trailers_gives hexpr _ h₁)

theorem factor_lays (n : Nat) : Lays source (factor expr n) := by
  induction n with
  | zero => exact fun _ h => .fail h
  | succ n ih =>
    intro c h
    unfold factor
    refine .here (.kind ?_)
    split
    · refine .advance h fun c₁ h₁ hlast => .bind (ih h₁.ready) fun operand c₂ h₂ => .pure ?_
      exact .sign h.place (.of_current (h₁.past hlast) h₂) rfl rfl
    · refine .bind (primary_lays hexpr h) fun base c₁ h₁ => ?_
      have hbetween := h₁.past.between
      refine .accept hbetween.ready (fun c₂ h₂ hlast => ?_) (.pure h₁)
      refine .bind (ih h₂.ready) fun exponent c₃ h₃ => .pure ?_
      exact h₁.join (.of_current (hbetween.advance h₂ hlast) h₃) _

end Lists

section Operators

variable {operand : Parser Expr} (hoperand : Lays source operand)
include hoperand

theorem operations_gives (level : Level) (n : Nat) {first : Span} {lo : Nat} {left : Expr}
    (h : c.Read source first lo [left]) :
    Gives source (fun e c' => c'.Read source first lo [e]) (operations level operand n left) c := by
  induction n generalizing c left with
  | zero => exact .pure h
  | succ n ih =>
    have hbetween := h.past.between
    unfold operations
    refine .kind ?_
    split
    · refine .advance hbetween.ready fun c₁ h₁ hlast => ?_
      refine .bind (hoperand h₁.ready) fun right c₂ h₂ => ih ?_
      exact h.join (.of_current (hbetween.advance h₁ hlast) h₂) _
    · exact .pure h

theorem leftAssociative_lays (level : Level) : Lays source (leftAssociative level operand) :=
  fun _ h => .bind (hoperand h) fun _ _ h₁ => .remaining (operations_gives hoperand level _ h₁)

theorem foldl_leftAssociative_lays (levels : List Level) :
    Lays source (levels.foldl (fun operand level => leftAssociative level operand) operand) := by
  induction levels generalizing operand with
  | nil => exact hoperand
  | cons level levels ih => exact ih (leftAssociative_lays hoperand level)

theorem chain_gives (n : Nat) (h : c.Between source) :
    Gives source (fun links c' => c'.Read source c.last c.last.stop.offset (links.map Prod.snd))
      (chain operand n) c := by
  induction n generalizing c with
  | zero => exact .pure (.nil (h.past rfl))
  | succ n ih =>
    unfold chain
    refine .kind ?_
    split
    · refine .advance h.ready fun c₁ h₁ hlast => ?_
      refine .bind (hoperand h₁.ready) fun e c₂ h₂ => ?_
      refine .bind (ih h₂.past.between) fun links c₃ h₃ => .pure ?_
      exact (Cursor.Read.of_current (h.advance h₁ hlast) h₂).append h₃
    · exact .pure (.nil (h.past rfl))

theorem operands_gives (op : Connective) (n : Nat) (h : c.Between source) :
    Gives source (fun es c' => c'.Read source c.last c.last.stop.offset es)
      (operands op operand n) c := by
  induction n generalizing c with
  | zero => exact .pure (.nil (h.past rfl))
  | succ n ih =>
    refine .kind (.ite (fun _ => ?_) fun _ => .pure (.nil (h.past rfl)))
    refine .advance h.ready fun c₁ h₁ hlast => ?_
    refine .bind (hoperand h₁.ready) fun e c₂ h₂ => ?_
    refine .bind (ih h₂.past.between) fun es c₃ h₃ => .pure ?_
    exact (Cursor.Read.of_current (h.advance h₁ hlast) h₂).append h₃

theorem connected_lays (op : Connective) : Lays source (connected op operand) := by
  intro c h
  refine .bind (hoperand h) fun first c₁ h₁ => .remaining ?_
  refine .bind (operands_gives hoperand op _ h₁.past.between) fun others c₂ h₂ => ?_
  have hall := h₁.append h₂
  split
  · exact .pure hall
  · next hne => exact .pure (hall.connect hne op)

end Operators

section Layers

variable (hexpr : Lays source expr)
include hexpr

theorem arithmetic_lays : Lays source (arithmetic expr) := by
  have hsigned : Lays source (do factor expr ((← remaining) + 1)) :=
    fun _ h => .remaining (factor_lays hexpr _ h)
  exact foldl_leftAssociative_lays hsigned _

theorem comparison_lays : Lays source (comparison expr) := by
  intro c h
  refine .bind (arithmetic_lays hexpr h) fun left c₁ h₁ => .remaining ?_
  refine .bind (chain_gives (arithmetic_lays hexpr) _ h₁.past.between) fun links c₂ h₂ => ?_
  split
  · exact .pure (h₁.append h₂)
  · exact .last (.pure (h₁.suffix h₂ rfl (.inr rfl)))

theorem negation_lays (n : Nat) : Lays source (negation expr n) := by
  induction n with
  | zero => exact fun _ h => .fail h
  | succ n ih =>
    intro c h
    refine .here (.kind (.ite (fun _ => ?_) fun _ => comparison_lays hexpr h))
    refine .advance h fun c₁ h₁ hlast => .bind (ih h₁.ready) fun operand c₂ h₂ => .pure ?_
    exact .sign h.place (.of_current (h₁.past hlast) h₂) rfl rfl

theorem layer_lays : Lays source (layer expr) := by
  have hnegated : Lays source (do negation expr ((← remaining) + 1)) :=
    fun _ h => .remaining (negation_lays hexpr _ h)
  exact connected_lays (connected_lays hnegated .and) .or

end Layers

theorem expression_lays (source : String) (n : Nat) : Lays source (expression n) := by
  induction n with
  | zero => exact fun _ h => .fail h
  | succ n ih => exact layer_lays ih

/-! ### Statements -/

theorem firstUnassignable?_eq (es : List Expr) :
    firstUnassignable? es = es.findSome? unassignable? := by
  induction es with
  | nil => rfl
  | cons e es ih =>
    rw [firstUnassignable?, List.findSome?_cons, ih]
    cases unassignable? e <;> rfl

/-- What cannot be assigned to is the target or a part of it. -/
theorem occurs_of_unassignable? {e bad : Expr} (h : unassignable? e = some bad) :
    bad.Occurs e := by
  induction e using Expr.induction_on_children with
  | h e ih =>
    cases e with
    | name | subscript => cases h
    | tuple span items =>
      rw [unassignable?, firstUnassignable?_eq] at h
      obtain ⟨item, hitem, hbad⟩ := List.exists_of_findSome?_eq_some h
      exact .inside hitem (ih item hitem hbad)
    | _ =>
      cases h
      exact .here

theorem Gives.checkTargets {β : Type} {Q : β → Cursor → Prop} {targets : List Expr}
    {f : Unit → Parser β} (h : ∀ target ∈ targets, target.Placed source)
    (hf : Gives source Q (f ()) c) : Gives source Q (Parser.checkTargets targets >>= f) c := by
  unfold Parser.checkTargets
  split
  · exact hf
  · next bad hbad =>
    rw [firstUnassignable?_eq] at hbad
    obtain ⟨target, htarget, hbad⟩ := List.exists_of_findSome?_eq_some hbad
    exact ⟨_, rfl, (h target htarget bad (occurs_of_unassignable? hbad)).place⟩

end Parser

/-- How a statement and its parts stand in a text. -/
structure Stmt.WellPlaced (source : String) (s : Stmt) : Prop where
  place : s.span.In source
  somewhere : s.span.isNowhere = false
  within : ∀ child ∈ s.children, child.span.Within s.span
  ordered : s.children.Pairwise fun a b => a.span.Before b.span

/-- A statement that is placed well with everything in it. -/
def Stmt.Placed (source : String) (s : Stmt) : Prop :=
  s.WellPlaced source ∧ ∀ e, s.Contains e → e.WellPlaced source

/-- A cursor behind a statement. -/
structure Cursor.Stated (source : String) (first : Span) (s : Stmt) (c : Cursor) : Prop where
  past : c.Past source first
  placed : s.Placed source
  row : Span.Row first.start.offset [s.span] c.last.stop.offset

theorem Cursor.Stated.of_read {source : String} {c : Cursor} {first : Span} {s : Stmt}
    (hfirst : first.In source) (h : c.Read source first first.start.offset s.children)
    (hspan : s.span = first.merge c.last) : c.Stated source first s := by
  have hlast := h.past.between.last
  obtain ⟨hplace, hstart, hstop⟩ := hfirst.merge hlast h.past.upto
  obtain ⟨hwithin, hpairwise⟩ := h.laid.around hfirst hlast h.past.upto
  rw [← hspan] at hplace hstart hstop hwithin
  refine ⟨h.past, ⟨⟨hplace, hplace.isReal.isNowhere, hwithin, hpairwise⟩, ?_⟩, ?_⟩
  · rintro e ⟨root, hroot, hocc⟩
    exact h.laid.placed root hroot e hocc
  · exact ⟨Nat.le_of_eq hstart.symm, hplace.le, Nat.le_of_eq hstop⟩

namespace Parser

variable {source : String} {expr : Parser Expr} {c : Cursor} (hexpr : Lays source expr)
include hexpr

theorem values_gives (n : Nat) (h : c.Between source) :
    Gives source (fun es c' => c'.Read source c.last c.last.stop.offset es) (values expr n) c := by
  induction n generalizing c with
  | zero => exact .pure (.nil (h.past rfl))
  | succ n ih =>
    refine .accept h.ready (fun c₁ h₁ hlast => ?_) (.pure (.nil (h.past rfl)))
    refine .bind (exprList_lays hexpr h₁.ready) fun e c₂ h₂ => ?_
    refine .bind (ih h₂.past.between) fun es c₃ h₃ => .pure ?_
    exact (Cursor.Read.of_current (h.advance h₁ hlast) h₂).append h₃

theorem statement_gives (h : c.Ready source) :
    Gives source (fun s c' => c'.Stated source c.current.span s) (statement expr) c := by
  unfold statement
  refine .here (.bind (exprList_lays hexpr h) fun first c₁ h₁ => .kind ?_)
  have hbetween := h₁.past.between
  split
  · refine .checkTargets h₁.laid.placed (.advance hbetween.ready fun c₂ h₂ hlast => ?_)
    refine .bind (hexpr h₂.ready) fun value c₃ h₃ => .last (.pure ?_)
    exact .of_read h.place (h₁.append (.of_current (hbetween.advance h₂ hlast) h₃)) rfl
  · refine .remaining (.bind (values_gives hexpr _ hbetween) fun values c₂ h₂ => ?_)
    have hall := h₁.append h₂
    split
    · exact .last (.pure (.of_read h.place hall rfl))
    · next v vs =>
      have hvalue : (first :: v :: vs).getLast (by simp) = vs.getLastD v := by
        rw [List.getLast_cons (by simp), List.getLast_eq_getLastD]
      have hchildren : (first :: v :: vs).dropLast ++ [vs.getLastD v] = first :: v :: vs := by
        rw [← hvalue]
        exact List.dropLast_concat_getLast _
      refine .checkTargets (fun target ht => hall.laid.placed target (List.dropLast_subset _ ht))
        (.last (.pure (.of_read h.place ?_ rfl)))
      rw [Stmt.children, Stmt.targets, Stmt.value, hchildren]
      exact hall

end Parser

/-! ### Programs -/

/-- A cursor between statements: it has read from the first token on, and neither the last token nor
the next one stands before the offset where the last statement stops. -/
structure Cursor.Begun (source : String) (first : Span) (lo : Nat) (c : Cursor) : Prop where
  ready : c.Ready source
  last : c.last.In source
  upto : first.Upto c.last
  ahead : first.Upto c.current.span
  le_last : lo ≤ c.last.stop.offset
  le_current : lo ≤ c.current.span.start.offset

namespace Cursor.Begun

variable {source : String} {first : Span} {lo : Nat} {c c₁ : Cursor}

theorem advance (h : c.Begun source first lo) (h₁ : c₁.Between source)
    (hlast : c₁.last = c.current.span) : c₁.Begun source first lo := by
  have hle := h.ready.place.le
  have hbefore : c.current.span.Before c₁.current.span := hlast ▸ h₁.before
  have hstop : lo ≤ c.current.span.stop.offset := Nat.le_trans h.le_current hle
  refine ⟨h₁.ready, h₁.last, ?_, ?_, ?_, ?_⟩
  · rw [hlast]
    exact h.ahead
  · exact h.ahead.trans (hbefore.upto h.ready.place h₁.ready.place)
  · rwa [hlast]
  · exact Nat.le_trans hstop hbefore

theorem stated {s : Stmt} (h : c.Begun source first lo) (h₁ : c₁.Stated source c.current.span s) :
    c₁.Begun source first s.span.stop.offset := by
  obtain ⟨⟨hbetween, hpast⟩, -, -, -, hstop⟩ := h₁
  exact ⟨hbetween.ready, hbetween.last, h.ahead.trans hpast,
    h.ahead.trans (hpast.trans hbetween.upto), hstop, Nat.le_trans hstop hbetween.before⟩

end Cursor.Begun

/-- A cursor behind the statements of a program. -/
structure Cursor.Finished (source : String) (first : Span) (lo : Nat) (ss : List Stmt) (c : Cursor) :
    Prop where
  last : c.last.In source
  upto : first.Upto c.last
  placed : ∀ s ∈ ss, s.Placed source
  row : Span.Row lo (ss.map Stmt.span) c.last.stop.offset

/-- How a program and its statements stand in a text. -/
structure Program.WellPlaced (source : String) (p : Program) : Prop where
  place : p.span.In source
  somewhere : p.span.isNowhere = false
  within : ∀ s ∈ p.body, s.span.Within p.span
  ordered : p.body.Pairwise fun a b => a.span.Before b.span

namespace Parser

variable {source : String} {expr : Parser Expr} {first : Span} {lo : Nat} {c : Cursor}

theorem skipTerminators_gives (n : Nat) (h : c.Begun source first lo) :
    Gives source (fun _ c' => c'.Begun source first lo) (skipTerminators n) c := by
  induction n generalizing c with
  | zero => exact .pure h
  | succ n ih =>
    refine .kind (.ite (fun _ => ?_) fun _ => .pure h)
    exact .advance h.ready fun c₁ h₁ hlast => ih (h.advance h₁ hlast)

theorem statements_gives (hexpr : Lays source expr) (n : Nat) (h : c.Begun source first lo) :
    Gives source (fun ss c' => c'.Finished source first lo ss) (statements expr n) c := by
  induction n generalizing c lo with
  | zero => exact .pure ⟨h.last, h.upto, by simp, h.le_last⟩
  | succ n ih =>
    refine .remaining (.bind (skipTerminators_gives _ h) fun _ c₁ h₁ => ?_)
    refine .kind (.ite (fun _ => .pure ⟨h₁.last, h₁.upto, by simp, h₁.le_last⟩) fun _ => ?_)
    refine .bind (statement_gives hexpr h₁.ready) fun s c₂ h₂ => ?_
    have hbegun := h₁.stated h₂
    refine .kind (.ite (fun _ => ?_) fun _ => .fail hbegun.ready)
    refine .bind (ih hbegun) fun ss c₃ h₃ => .pure ?_
    obtain ⟨hstart, hle, -⟩ := h₂.row
    exact ⟨h₃.last, h₃.upto, List.forall_mem_cons.mpr ⟨h₂.placed, h₃.placed⟩,
      Nat.le_trans h₁.le_current hstart, hle, h₃.row⟩

theorem program_gives (h : c.Ready source) (hlast : c.last = c.current.span) :
    Gives source (fun p _ => p.WellPlaced source ∧ ∀ s ∈ p.body, s.Placed source) program c := by
  have hplace := h.place
  have hbegun : c.Begun source c.current.span c.current.span.start.offset :=
    ⟨h, hlast ▸ hplace, hlast ▸ .refl _, .refl _, hlast ▸ hplace.le, Nat.le_refl _⟩
  refine .here (.remaining (.bind (statements_gives (expression_lays ..) _ hbegun) ?_))
  intro body c₁ h₁
  obtain ⟨hspan, hstart, hstop⟩ := hplace.merge h₁.last h₁.upto
  refine .last (.pure ⟨⟨hspan, hspan.isReal.isNowhere, ?_, ?_⟩, h₁.placed⟩)
  · intro s hs
    rw [Span.Within, hstart, hstop]
    exact h₁.row.within s.span (List.mem_map_of_mem hs)
  · exact List.pairwise_map.mp h₁.row.pairwise

end Parser

namespace Scan

theorem place_call (source : String) (n : Nat) : (call source n).span.In source := by
  obtain ⟨before, hreached⟩ := exists_reached source n
  obtain ⟨gap, text, htakes⟩ := Scanner.exists_takes ((Scanner.ofText source.toList).behind n)
  have hstop := Location.in_start_after (hreached.next htakes).text
  rw [Location.after_append _ (before ++ gap)] at hstop
  rw [call, hreached.span_eq htakes]
  exact ⟨Location.in_start_after (hreached.source_eq htakes), hstop, Location.offset_le_after ..⟩

theorem pairwise_calls (source : String) (n : Nat) :
    (calls source n).Pairwise fun a b => a.span.Before b.span := by
  induction n with
  | zero => exact .nil
  | succ n ih =>
    rw [calls_succ, List.pairwise_append]
    refine ⟨ih, List.pairwise_singleton .., fun other hother item hitem => ?_⟩
    cases List.mem_singleton.mp hitem
    exact (tile_call source n).ordered other hother

/-- The items of a text follow one another up to the end of the input, which is empty. -/
theorem items_ordered (source : String) :
    (∀ item ∈ items source, item.span.In source) ∧
      ((items source).Pairwise fun a b => a.span.Before b.span) ∧
      ∀ item ∈ (items source).getLast?, item.span.stop.offset ≤ item.span.start.offset := by
  obtain ⟨n, -, hend, -, hitems⟩ := exists_items_eq source
  rw [hitems]
  refine ⟨?_, pairwise_calls source (n + 1), ?_⟩
  · intro item hitem
    obtain ⟨k, -, rfl⟩ := List.mem_map.mp hitem
    exact place_call source k
  · rw [calls_succ, List.getLast?_concat]
    intro item hitem
    cases Option.some.inj hitem
    obtain ⟨hstart, hstop⟩ := (tile_call source n).atEnd hend
    rw [hstart, hstop]

end Scan

namespace Program

/-- The spans of a program nest and follow the text, and an error of scanning or parsing is placed in
the text. -/
theorem spans_of_parse (source : String) :
    (∀ p, parse source = .ok p → p.WellPlaced source ∧
      ∀ s ∈ p.body, s.WellPlaced source ∧ ∀ e, s.Contains e → e.WellPlaced source) ∧
    ∀ err, parse source = .error err → ∃ span, err.span? = some span ∧ span.In source := by
  obtain ⟨hplaces, hordered, hstop⟩ := Scan.items_ordered source
  have hended := Scan.items_ended source
  unfold parse
  generalize Scan.items source = items at hplaces hordered hstop hended ⊢
  rcases items with _ | ⟨t | e, rest⟩
  · exact False.elim hended
  · have hprogram := program_gives (c := ⟨t, t.span, rest⟩) ⟨hplaces, hordered, hstop⟩ rfl
    unfold Gives at hprogram
    rw [ofItems, StateT.run]
    cases hrun : program ⟨t, t.span, rest⟩ with
    | error err =>
      rw [hrun] at hprogram
      refine ⟨fun p hp => (by cases hp), fun err' herr => ?_⟩
      cases herr
      exact hprogram
    | ok r =>
      rw [hrun] at hprogram
      refine ⟨fun p hp => ?_, fun err herr => (by cases herr)⟩
      cases hp
      exact hprogram
  · refine ⟨fun p hp => (by cases hp), fun err herr => ?_⟩
    cases herr
    exact ⟨e.span, rfl, hplaces _ List.mem_cons_self⟩

/-- Statements with parentheses, displays and operators of all levels over two lines. -/
def nestedSource : String :=
  "s = \x7b[i, j]: 0 <= (i) < n\x7d  # header\ny[(i), j], z = -f((a + b), c)[i] ** 2 or not (d)"

/-- A group that is not closed. -/
def openSource : String :=
  "a = b\nc = (d +\n  e"

theorem spans_of_parse_nested :
    (∃ p, parse nestedSource = .ok p ∧ p.body.length = 2 ∧ p.WellPlaced nestedSource ∧
      ∀ s ∈ p.body, s.WellPlaced nestedSource ∧
        ∀ e, s.Contains e → e.WellPlaced nestedSource) ∧
    ∃ err span, parse openSource = .error err ∧ err.span? = some span ∧ span.In openSource := by
  constructor
  · have hread : (parse nestedSource).toOption.any fun p => p.body.length = 2 := by decide +kernel
    obtain ⟨p, hp, hlength⟩ := exists_ok_of_any hread
    exact ⟨p, hp, of_decide_eq_true hlength, (spans_of_parse nestedSource).1 p hp⟩
  · have hread : (parse openSource).toOption.isNone := by decide +kernel
    cases hparse : parse openSource with
    | ok p =>
      rw [hparse] at hread
      cases hread
    | error err =>
      obtain ⟨span, hspan, hplace⟩ := (spans_of_parse openSource).2 err hparse
      exact ⟨err, span, rfl, hspan, hplace⟩

end Program

end LoopNest
