import LoopNest.Proofs.ProgramGrammar
import LoopNest.Proofs.Relocation

/-!
# Reading a program as a part of another

A text is spliced into another one: its tokens stand there at other places, and where its input ended
another terminator stands, with items behind it. Whatever a function of the parser reads in the text
it reads in the other one too, relocated, since it looks at no token behind the end of a statement.
Each function has one statement, for two cursors at corresponding tokens. The loops take their number
of steps from the items that are left, of which there are more in the longer text.
-/

namespace LoopNest

/-! ### Loops that stop -/

namespace Parser

variable {expr : Parser Expr} {n : Nat} {c : Cursor}

theorem listTail_stop (h : c.current.kind ≠ .comma) :
    listTail expr n c = (pure [] : Parser (List Expr)) c := by
  cases n with
  | zero => rfl
  | succ n =>
    rw [listTail, accept_bind, if_neg h]
    rfl

theorem operations_of_none {level : Level} {e : Expr} (h : level.op? c.current.kind = none) :
    operations level expr n e c = (pure e : Parser Expr) c := by
  cases n with
  | zero => rfl
  | succ n => rw [operations, kind_bind, h]

theorem chain_of_none (h : comparisonOf? c.current.kind = none) :
    chain expr n c = (pure [] : Parser (List (CompareOp × Expr))) c := by
  cases n with
  | zero => rfl
  | succ n => rw [chain, kind_bind, h]

theorem operands_of_false {op : Connective} (h : isConnective op c.current.kind = false) :
    operands op expr n c = (pure [] : Parser (List Expr)) c := by
  cases n with
  | zero => rfl
  | succ n => rw [operands, kind_bind, if_neg (by simp [h])]

theorem values_of_ne (h : c.current.kind ≠ .equal) :
    values expr n c = (pure [] : Parser (List Expr)) c := by
  cases n with
  | zero => rfl
  | succ n =>
    rw [values, accept_bind, if_neg h]
    rfl

/-- A statement behind its first expression list, by the word that follows. -/
def statementTail (expr : Parser Expr) (start : Span) (first : Expr) : Token.Kind → Parser Stmt
  | .augmented op => do
    checkTargets [first]
    advance
    let value ← expr
    return .augment (start.merge (← last)) first op value
  | _ => do
    match ← values expr (← remaining) with
    | [] => return .eval (start.merge (← last)) first
    | v :: vs =>
      checkTargets (first :: v :: vs).dropLast
      return .assign (start.merge (← last)) (first :: v :: vs).dropLast (vs.getLastD v)

theorem statement_eq (expr : Parser Expr) : statement expr = (do
    let start ← here
    let first ← exprList expr
    statementTail expr start first (← kind)) := by
  funext c
  rw [statement, here_bind, here_bind]
  refine congrArg (fun f => (exprList expr >>= f) c) (funext fun first => ?_)
  refine congrArg (fun f => kind >>= f) (funext fun k => ?_)
  cases k <;> rfl

theorem statementTail_of_ne {start : Span} {first : Expr} {k : Token.Kind}
    (h : ∀ op, k ≠ .augmented op) :
    statementTail expr start first k = statementTail expr start first .newline := by
  cases k with
  | augmented op => exact absurd rfl (h op)
  | _ => rfl

end Parser

open LoopNest.Parser Grammar

/-- How a text stands in another one: where its spans are there, and the token in the place of its
end with the items behind. -/
structure Splice where
  move : Span → Span
  stop : Token
  more : List Scan.Item
  keepsMerge : Span.KeepsMerge move
  terminates : stop.kind = .newline ∨ stop.kind = .endOfInput

namespace Splice

variable (σ : Splice)

/-- The items of a text, and those from the same place on in the text it is spliced into. -/
inductive Tracks : List Scan.Item → List Scan.Item → Prop where
  | stop {t : Token} (ht : t.kind = .endOfInput) : Tracks [.token t] (.token σ.stop :: σ.more)
  | token {t : Token} {is js : List Scan.Item} (ht : t.kind ≠ .endOfInput)
      (hreal : t.span.IsReal) (rest : Tracks is js) :
      Tracks (.token t :: is) (.token (t.relocate σ.move) :: js)

/-- Two cursors before corresponding tokens. -/
def Meets (c d : Cursor) : Prop :=
  σ.Tracks (.token c.current :: c.rest) (.token d.current :: d.rest)

/-- Two cursors between corresponding tokens. -/
structure Linked (c d : Cursor) : Prop where
  meets : σ.Meets c d
  isReal : c.last.IsReal
  last_eq : d.last = σ.move c.last

variable {σ}

theorem Tracks.length {is js : List Scan.Item} (h : σ.Tracks is js) :
    js.length = is.length + σ.more.length := by
  induction h with
  | stop ht =>
    simp only [List.length_cons, List.length_nil]
    omega
  | token ht hreal rest ih =>
    simp only [List.length_cons, ih]
    omega

namespace Meets

variable {c d : Cursor} (h : σ.Meets c d)
include h

theorem length : d.rest.length = c.rest.length + σ.more.length := by
  have hlen := Tracks.length h
  simp only [List.length_cons] at hlen
  omega

theorem le : c.rest.length ≤ d.rest.length := by
  rw [h.length]
  exact Nat.le_add_right ..

/-- Where input ended the spliced text goes on. -/
theorem of_end (hk : c.current.kind = .endOfInput) : d.current = σ.stop ∧ d.rest = σ.more := by
  obtain ⟨t, last, rest⟩ := c
  obtain ⟨t', last', rest'⟩ := d
  unfold Meets at h
  cases h with
  | stop _ => exact ⟨rfl, rfl⟩
  | token ht => exact absurd hk ht

/-- Before a token both cursors can go on. -/
theorem of_token (hk : c.current.kind ≠ .endOfInput) :
    c.current.span.IsReal ∧ d.current = c.current.relocate σ.move ∧
      ∃ c₁ d₁, c.next? = some c₁ ∧ d.next? = some d₁ ∧ σ.Linked c₁ d₁ := by
  obtain ⟨t, last, rest⟩ := c
  obtain ⟨t', last', rest'⟩ := d
  unfold Meets at h
  cases h with
  | stop ht => exact absurd ht hk
  | token _ hreal htail =>
    refine ⟨hreal, rfl, ?_⟩
    have hrest := htail
    cases htail with
    | stop ht => exact ⟨_, _, rfl, rfl, hrest, hreal, rfl⟩
    | token ht _ _ => exact ⟨_, _, rfl, rfl, hrest, hreal, rfl⟩

theorem rest_pos (hk : c.current.kind ≠ .endOfInput) : 0 < c.rest.length := by
  obtain ⟨-, -, c₁, -, hn, -, -⟩ := h.of_token hk
  rw [Cursor.length_of_next? hn]
  omega

/-- A loop that may still go on has a step left. -/
theorem exists_fuel {n : Nat} (hk : c.current.kind ≠ .endOfInput) (hn : c.rest.length ≤ n) :
    ∃ k, n = k + 1 :=
  Nat.exists_eq_succ_of_ne_zero (Nat.ne_of_gt (Nat.lt_of_lt_of_le (h.rest_pos hk) hn))

theorem eq_end (hnil : c.rest.length ≤ 0) : c.current.kind = .endOfInput :=
  Decidable.byContradiction fun hk => Nat.not_lt_of_le hnil (h.rest_pos hk)

theorem ne_end (hpos : 0 < c.rest.length) : c.current.kind ≠ .endOfInput := by
  obtain ⟨t, last, rest⟩ := c
  obtain ⟨t', last', rest'⟩ := d
  unfold Meets at h
  cases h with
  | stop _ => cases hpos
  | token ht => exact ht

/-- What does not tell an ended input from an ended line is the same at both cursors. -/
theorem kind_congr {α : Type} (φ : Token.Kind → α) (hφ : φ .newline = φ .endOfInput) :
    φ d.current.kind = φ c.current.kind := by
  by_cases hk : c.current.kind = .endOfInput
  · rw [(h.of_end hk).1, hk]
    rcases σ.terminates with hs | hs
    · rw [hs, hφ]
    · rw [hs]
  · rw [(h.of_token hk).2.1]
    rfl

theorem kind_iff {k : Token.Kind} (hnewline : k ≠ .newline) (hend : k ≠ .endOfInput) :
    c.current.kind = k ↔ d.current.kind = k := by
  have hφ := h.kind_congr (fun l => decide (l = k)) (by simp [hnewline.symm, hend.symm])
  simpa using hφ.symm

end Meets

/-! ### Following a parser -/

section Carries

variable {α α' β β' : Type} {P : α → α' → Prop} {Q : β → β' → Prop} {c d : Cursor} {m : Nat}

/-- From two cursors the second parser follows the first: if that has a result, so has this, the two
are related, and both stop between corresponding tokens with less than `m` items left. -/
def Carries (σ : Splice) (Q : β → β' → Prop) (m : Nat) (p : Parser β) (p' : Parser β')
    (c d : Cursor) : Prop :=
  ∀ ⦃b : β⦄ ⦃c' : Cursor⦄, p c = .ok (b, c') →
    ∃ b' d', p' d = .ok (b', d') ∧ Q b b' ∧ σ.Linked c' d' ∧ c'.rest.length < m

namespace Carries

theorem pure {b : β} {b' : β'} (hl : σ.Linked c d) (hQ : Q b b') (hm : c.rest.length < m) :
    σ.Carries Q m (Pure.pure b) (Pure.pure b') c d := by
  intro a c' h
  obtain ⟨rfl, rfl⟩ := pure_eq_ok.mp h
  exact ⟨b', d, rfl, hQ, hl, hm⟩

theorem of_fail {cause : ParseError.Cause} {p' : Parser β'} :
    σ.Carries Q m (fail cause) p' c d :=
  fun _ _ h => absurd h fail_ne_ok

/-- The same steps may be written in two ways. -/
theorem congr {p q : Parser β} {p' q' : Parser β'} (h : σ.Carries Q m q q' c d)
    (hp : p c = q c) (hp' : p' d = q' d) : σ.Carries Q m p p' c d := by
  intro b c' hb
  rw [hp] at hb
  rw [hp']
  exact h hb

/-- Both parsers may stop where they are. -/
theorem stop {p : Parser β} {p' : Parser β'} {b : β} {b' : β'} (hl : σ.Linked c d) (hQ : Q b b')
    (hp : p c = (Pure.pure b : Parser β) c) (hp' : p' d = (Pure.pure b' : Parser β') d) :
    σ.Carries Q (c.rest.length + 1) p p' c d :=
  (pure hl hQ (Nat.lt_succ_self _)).congr hp hp'

theorem mono {l : Nat} {p : Parser β} {p' : Parser β'} (h : σ.Carries Q l p p' c d) (hle : l ≤ m) :
    σ.Carries Q m p p' c d := by
  intro b c' hb
  obtain ⟨b', d', hb', hQ, hl, hlt⟩ := h hb
  exact ⟨b', d', hb', hQ, hl, Nat.lt_of_lt_of_le hlt hle⟩

theorem bind {l : Nat} {p : Parser α} {p' : Parser α'} {f : α → Parser β} {f' : α' → Parser β'}
    (hp : σ.Carries P l p p' c d)
    (hf : ∀ a a' c₁ d₁, P a a' → σ.Linked c₁ d₁ → c₁.rest.length < l →
      σ.Carries Q m (f a) (f' a') c₁ d₁) :
    σ.Carries Q m (p >>= f) (p' >>= f') c d := by
  intro b c' h
  obtain ⟨a, c₁, ha, h⟩ := bind_eq_ok.mp h
  obtain ⟨a', d₁, ha', hP, hl, hlt⟩ := hp ha
  obtain ⟨b', d', hb, hrest⟩ := hf a a' c₁ d₁ hP hl hlt h
  exact ⟨b', d', by rw [bind_of_ok ha', hb], hrest⟩

theorem get {f : Cursor → Parser β} {f' : Cursor → Parser β'} (h : σ.Carries Q m (f c) (f' d) c d) :
    σ.Carries Q m (MonadState.get >>= f) (MonadState.get >>= f') c d := h

theorem kind {f : Token.Kind → Parser β} {f' : Token.Kind → Parser β'}
    (h : σ.Carries Q m (f c.current.kind) (f' d.current.kind) c d) :
    σ.Carries Q m (Parser.kind >>= f) (Parser.kind >>= f') c d := h

theorem here {f : Span → Parser β} {f' : Span → Parser β'}
    (h : σ.Carries Q m (f c.current.span) (f' d.current.span) c d) :
    σ.Carries Q m (Parser.here >>= f) (Parser.here >>= f') c d := h

theorem last {f : Span → Parser β} {f' : Span → Parser β'}
    (h : σ.Carries Q m (f c.last) (f' d.last) c d) :
    σ.Carries Q m (Parser.last >>= f) (Parser.last >>= f') c d := h

theorem remaining {f : Nat → Parser β} {f' : Nat → Parser β'}
    (h : σ.Carries Q m (f c.rest.length) (f' d.rest.length) c d) :
    σ.Carries Q m (Parser.remaining >>= f) (Parser.remaining >>= f') c d := h

theorem ite {φ φ' : Prop} [Decidable φ] [Decidable φ'] {p q : Parser β} {p' q' : Parser β'}
    (hφ : φ ↔ φ') (hyes : φ → σ.Carries Q m p p' c d) (hno : ¬ φ → σ.Carries Q m q q' c d) :
    σ.Carries Q m (if φ then p else q) (if φ' then p' else q') c d := by
  by_cases h : φ
  · rw [if_pos h, if_pos (hφ.mp h)]
    exact hyes h
  · rw [if_neg h, if_neg (mt hφ.mpr h)]
    exact hno h

theorem advance {f : Unit → Parser β} {f' : Unit → Parser β'} (h : σ.Meets c d)
    (hk : c.current.kind ≠ .endOfInput)
    (hf : ∀ c₁ d₁, σ.Linked c₁ d₁ → c₁.rest.length < c.rest.length →
      σ.Carries Q m (f ()) (f' ()) c₁ d₁) :
    σ.Carries Q m (Parser.advance >>= f) (Parser.advance >>= f') c d := by
  obtain ⟨-, -, c₁, d₁, hc, hd, hl⟩ := h.of_token hk
  have hlt : c₁.rest.length < c.rest.length := by
    rw [Cursor.length_of_next? hc]
    omega
  intro b c' h
  rw [advance_bind_of_next? hc] at h
  rw [advance_bind_of_next? hd]
  exact hf c₁ d₁ hl hlt h

theorem accept {f : Bool → Parser β} {f' : Bool → Parser β'} {k : Token.Kind} (h : σ.Meets c d)
    (hnewline : k ≠ .newline) (hend : k ≠ .endOfInput)
    (hyes : ∀ c₁ d₁, σ.Linked c₁ d₁ → c₁.rest.length < c.rest.length →
      σ.Carries Q m (f true) (f' true) c₁ d₁)
    (hno : σ.Carries Q m (f false) (f' false) c d) :
    σ.Carries Q m (Parser.accept k >>= f) (Parser.accept k >>= f') c d := by
  have hiff := h.kind_iff hnewline hend
  by_cases hk : c.current.kind = k
  · have hgo : σ.Carries Q m (Parser.advance >>= fun _ => f true)
        (Parser.advance >>= fun _ => f' true) c d := advance h (hk ▸ hend) hyes
    exact hgo.congr (by rw [accept_bind, if_pos hk]) (by rw [accept_bind, if_pos (hiff.mp hk)])
  · exact hno.congr (by rw [accept_bind, if_neg hk])
      (by rw [accept_bind, if_neg (mt hiff.mpr hk)])

theorem expect {f : Unit → Parser β} {f' : Unit → Parser β'} {delimiter : Delimiter}
    (h : σ.Meets c d)
    (hf : ∀ c₁ d₁, σ.Linked c₁ d₁ → c₁.rest.length < c.rest.length →
      σ.Carries Q m (f ()) (f' ()) c₁ d₁) :
    σ.Carries Q m (Parser.expect delimiter >>= f) (Parser.expect delimiter >>= f') c d := by
  have hend : delimiter.kind ≠ .endOfInput := by cases delimiter <;> simp [Delimiter.kind]
  have hnewline : delimiter.kind ≠ .newline := by cases delimiter <;> simp [Delimiter.kind]
  by_cases hk : c.current.kind = delimiter.kind
  · have hk' := (h.kind_iff hnewline hend).mp hk
    exact (advance h (hk ▸ hend) hf).congr (by rw [expect_bind, if_pos hk])
      (by rw [expect_bind, if_pos hk'])
  · intro b c' hb
    rw [expect_bind, if_neg hk] at hb
    obtain ⟨_, _, hfail, -⟩ := bind_eq_ok.mp hb
    exact absurd hfail fail_ne_ok

end Carries

end Carries

/-- An expression and the same one where the splice has it. -/
def Moved (σ : Splice) (e e' : Expr) : Prop :=
  e' = e.relocate σ.move ∧ e.span.IsReal

/-- Wherever the first parser reads an expression, the second one reads the same. -/
def Follows (σ : Splice) (p p' : Parser Expr) : Prop :=
  ∀ ⦃c d : Cursor⦄, σ.Meets c d → σ.Carries σ.Moved c.rest.length p p' c d

/-- The span from a token to the last one read. -/
theorem Linked.merge {c d : Cursor} (h : σ.Linked c d) {start : Span} (hreal : start.IsReal) :
    (σ.move start).merge d.last = σ.move (start.merge c.last) := by
  rw [h.last_eq, σ.keepsMerge _ _ hreal h.isReal]

section Lists

variable {expr expr' : Parser Expr} (hexpr : σ.Follows expr expr')

theorem listTail_stops {n n' : Nat} {c d : Cursor} (hl : σ.Linked c d)
    (hk : c.current.kind ≠ .comma) :
    σ.Carries (fun es es' => es' = relocateAll σ.move es) (c.rest.length + 1) (listTail expr n)
      (listTail expr' n') c d :=
  .stop hl rfl (listTail_stop hk)
    (listTail_stop (mt (hl.meets.kind_iff (by simp) (by simp)).mpr hk))

include hexpr

theorem listTail_carries {n n' : Nat} {c d : Cursor} (hl : σ.Linked c d)
    (hn : c.rest.length ≤ n) (hn' : c.rest.length ≤ n') :
    σ.Carries (fun es es' => es' = relocateAll σ.move es) (c.rest.length + 1) (listTail expr n)
      (listTail expr' n') c d := by
  induction n generalizing n' c d with
  | zero => exact listTail_stops hl (by simp [hl.meets.eq_end hn])
  | succ n ih =>
    by_cases hk : c.current.kind = .comma
    · obtain ⟨n', rfl⟩ := hl.meets.exists_fuel (by simp [hk]) hn'
      refine .accept hl.meets (by simp) (by simp) (fun c₁ d₁ hl₁ hlt₁ => ?_)
        (.pure hl rfl (Nat.lt_succ_self _))
      have hends : endsList c₁.current.kind = true ↔ endsList d₁.current.kind = true := by
        rw [hl₁.meets.kind_congr endsList rfl]
      refine .kind (.ite hends (fun _ => .pure hl₁ rfl (by omega)) fun _ => ?_)
      refine .bind (hexpr hl₁.meets) ?_
      rintro e _ c₂ d₂ ⟨rfl, -⟩ hl₂ hlt₂
      refine .bind (ih hl₂ (by omega) (by omega)) ?_
      rintro es _ c₃ d₃ rfl hl₃ hlt₃
      exact .pure hl₃ (by rw [relocateAll]) (by omega)
    · exact listTail_stops hl hk

theorem exprList_follows : σ.Follows (exprList expr) (exprList expr') := by
  intro c d hm
  refine .here (.bind (hexpr hm) ?_)
  rintro first _ c₁ d₁ ⟨rfl, hreal⟩ hl hlt
  obtain ⟨hstart, hcur, -⟩ := hm.of_token (hm.ne_end (by omega))
  refine .kind (.ite (hl.meets.kind_iff (by simp) (by simp)) (fun _ => ?_)
    fun _ => .pure hl ⟨rfl, hreal⟩ hlt)
  refine .remaining (.bind (listTail_carries hexpr hl (Nat.le_refl _) hl.meets.le) ?_)
  rintro others _ c₂ d₂ rfl hl₂ hlt₂
  refine .last (.pure hl₂ ⟨?_, hstart.merge hl₂.isReal⟩ (by omega))
  rw [hcur, Expr.relocate, relocateAll, ← hl₂.merge hstart]
  rfl

theorem sequence_carries {n n' : Nat} {c d : Cursor} {close : Token.Kind}
    (hnewline : close ≠ .newline) (hend : close ≠ .endOfInput) (hl : σ.Linked c d)
    (hn : c.rest.length < n) (hn' : c.rest.length < n') :
    σ.Carries (fun es es' => es' = relocateAll σ.move es) (c.rest.length + 1)
      (sequence expr close n) (sequence expr' close n') c d := by
  induction n generalizing n' c d with
  | zero => omega
  | succ n ih =>
    obtain ⟨n', rfl⟩ := Nat.exists_eq_succ_of_ne_zero (Nat.ne_zero_of_lt hn')
    refine .kind (.ite (hl.meets.kind_iff hnewline hend) (fun _ => .pure hl rfl (by omega))
      fun _ => ?_)
    refine .bind (hexpr hl.meets) ?_
    rintro e _ c₁ d₁ ⟨rfl, -⟩ hl₁ hlt₁
    refine .accept hl₁.meets (by simp) (by simp) (fun c₂ d₂ hl₂ hlt₂ => ?_)
      (.pure hl₁ rfl (by omega))
    refine .bind (ih hl₂ (by omega) (by omega)) ?_
    rintro es _ c₃ d₃ rfl hl₃ hlt₃
    exact .pure hl₃ rfl (by omega)

theorem entries_carries {n n' : Nat} {c d : Cursor} (hl : σ.Linked c d) (hn : c.rest.length < n)
    (hn' : c.rest.length < n') :
    σ.Carries (fun es es' => es' = relocateEntries σ.move es) (c.rest.length + 1)
      (entries expr n) (entries expr' n') c d := by
  induction n generalizing n' c d with
  | zero => omega
  | succ n ih =>
    obtain ⟨n', rfl⟩ := Nat.exists_eq_succ_of_ne_zero (Nat.ne_zero_of_lt hn')
    refine .kind (.ite (hl.meets.kind_iff (by simp) (by simp)) (fun _ => .pure hl rfl (by omega))
      fun _ => ?_)
    refine .bind (hexpr hl.meets) ?_
    rintro key _ c₁ d₁ ⟨rfl, -⟩ hl₁ hlt₁
    refine .expect hl₁.meets fun c₂ d₂ hl₂ hlt₂ => .bind (hexpr hl₂.meets) ?_
    rintro value _ c₃ d₃ ⟨rfl, -⟩ hl₃ hlt₃
    refine .accept hl₃.meets (by simp) (by simp) (fun c₄ d₄ hl₄ hlt₄ => ?_)
      (.pure hl₃ rfl (by omega))
    refine .bind (ih hl₄ (by omega) (by omega)) ?_
    rintro es _ c₅ d₅ rfl hl₅ hlt₅
    exact .pure hl₅ rfl (by omega)

end Lists

/-! ### The ladder of precedences -/

section Ladder

variable {expr expr' : Parser Expr} (hexpr : σ.Follows expr expr')
include hexpr

theorem atom_follows : σ.Follows (atom expr) (atom expr') := by
  intro c d hm
  by_cases hend : c.current.kind = .endOfInput
  · intro e c' h
    rw [atom, get_bind, hend] at h
    exact absurd h fail_ne_ok
  obtain ⟨hstart, hcur, -⟩ := hm.of_token hend
  refine .get ?_
  rw [hcur]
  simp only [Token.relocate]
  cases hk : c.current.kind with
  | identifier =>
    exact .advance hm hend fun c₁ d₁ hl hlt => .pure hl ⟨by rw [Expr.relocate], hstart⟩ hlt
  | integer | float =>
    exact .advance hm hend fun c₁ d₁ hl hlt => .pure hl ⟨by rw [Expr.relocate], hstart⟩ hlt
  | left b =>
    cases b with
    | round =>
      refine .advance hm hend fun c₁ d₁ hl hlt => ?_
      refine .accept hl.meets (by simp) (by simp) (fun c₂ d₂ hl₂ hlt₂ => ?_) ?_
      · refine .last (.pure hl₂ ⟨?_, hstart.merge hl₂.isReal⟩ (by omega))
        rw [hl₂.merge hstart, Expr.relocate, relocateAll]
      · refine .bind (exprList_follows hexpr hl.meets) ?_
        intro e e' c₂ d₂ he hl₂ hlt₂
        exact .expect hl₂.meets fun c₃ d₃ hl₃ hlt₃ => .pure hl₃ he (by omega)
    | square =>
      refine .advance hm hend fun c₁ d₁ hl hlt => .remaining (.bind
        (sequence_carries hexpr (by simp) (by simp) hl (Nat.lt_succ_self _)
          (Nat.lt_succ_of_le hl.meets.le)) ?_)
      rintro es _ c₂ d₂ rfl hl₂ hlt₂
      refine .expect hl₂.meets fun c₃ d₃ hl₃ hlt₃ =>
        .last (.pure hl₃ ⟨?_, hstart.merge hl₃.isReal⟩ (by omega))
      rw [hl₃.merge hstart, Expr.relocate]
    | curly =>
      refine .advance hm hend fun c₁ d₁ hl hlt => .remaining (.bind
        (entries_carries hexpr hl (Nat.lt_succ_self _) (Nat.lt_succ_of_le hl.meets.le)) ?_)
      rintro es _ c₂ d₂ rfl hl₂ hlt₂
      refine .expect hl₂.meets fun c₃ d₃ hl₃ hlt₃ =>
        .last (.pure hl₃ ⟨?_, hstart.merge hl₃.isReal⟩ (by omega))
      rw [hl₃.merge hstart, Expr.relocate]
  | _ => exact .of_fail

theorem trailers_carries {n n' : Nat} {c d : Cursor} {e : Expr} (hl : σ.Linked c d)
    (hreal : e.span.IsReal) (hn : c.rest.length < n) (hn' : c.rest.length < n') :
    σ.Carries σ.Moved (c.rest.length + 1) (trailers expr n e)
      (trailers expr' n' (e.relocate σ.move)) c d := by
  induction n generalizing n' c d e with
  | zero => omega
  | succ n ih =>
    obtain ⟨n', rfl⟩ := Nat.exists_eq_succ_of_ne_zero (Nat.ne_zero_of_lt hn')
    have hstop : σ.Carries σ.Moved (c.rest.length + 1) (pure e) (pure (e.relocate σ.move)) c d :=
      .pure hl ⟨rfl, hreal⟩ (Nat.lt_succ_self _)
    by_cases hg : grip c.current.kind < 11
    · exact hstop.congr (trailers_stop hg)
        (trailers_stop (by rwa [hl.meets.kind_congr grip rfl]))
    have hend : c.current.kind ≠ .endOfInput := by
      intro hk
      simp [hk, grip] at hg
    obtain ⟨-, hcur, -⟩ := hl.meets.of_token hend
    have hkind : d.current.kind = c.current.kind := by rw [hcur]; rfl
    refine .kind ?_
    rw [hkind]
    cases hk : c.current.kind with
    | left b =>
      cases b with
      | round =>
        cases e with
        | name span callee =>
          refine .advance hl.meets hend fun c₁ d₁ hl₁ hlt₁ => .remaining (.bind
            (sequence_carries hexpr (by simp) (by simp) hl₁ (Nat.lt_succ_self _)
              (Nat.lt_succ_of_le hl₁.meets.le)) ?_)
          rintro args _ c₂ d₂ rfl hl₂ hlt₂
          refine .expect hl₂.meets fun c₃ d₃ hl₃ hlt₃ => .last ?_
          have hcall : σ.Carries σ.Moved (c₃.rest.length + 1)
              (trailers expr n (.call (span.merge c₃.last) callee args)) (trailers expr' n'
                ((Expr.call (span.merge c₃.last) callee args).relocate σ.move)) c₃ d₃ :=
            ih hl₃ (hreal.merge hl₃.isReal) (by omega) (by omega)
          have hspan : span.IsReal := hreal
          rw [Expr.relocate, ← hl₃.merge hspan] at hcall
          exact hcall.mono (by omega)
        | _ => exact .of_fail
      | square =>
        refine .advance hl.meets hend fun c₁ d₁ hl₁ hlt₁ =>
          .bind (exprList_follows hexpr hl₁.meets) ?_
        rintro index _ c₂ d₂ ⟨rfl, -⟩ hl₂ hlt₂
        refine .expect hl₂.meets fun c₃ d₃ hl₃ hlt₃ => .last ?_
        have hindexed : σ.Carries σ.Moved (c₃.rest.length + 1)
            (trailers expr n (.subscript (e.span.merge c₃.last) e index)) (trailers expr' n'
              ((Expr.subscript (e.span.merge c₃.last) e index).relocate σ.move)) c₃ d₃ :=
          ih hl₃ (hreal.merge hl₃.isReal) (by omega) (by omega)
        rw [Expr.relocate, ← hl₃.merge hreal] at hindexed
        rw [Expr.span_relocate]
        exact hindexed.mono (by omega)
      | curly => exact hstop
    | _ => exact hstop

theorem primary_follows : σ.Follows (primary expr) (primary expr') := by
  intro c d hm
  refine .bind (atom_follows hexpr hm) ?_
  rintro e _ c₁ d₁ ⟨rfl, hreal⟩ hl hlt
  exact .remaining ((trailers_carries hexpr hl hreal (Nat.lt_succ_self _)
    (Nat.lt_succ_of_le hl.meets.le)).mono hlt)

theorem factor_follows {n n' : Nat} (hn : n ≤ n') :
    σ.Follows (factor expr n) (factor expr' n') := by
  induction n generalizing n' with
  | zero => exact fun c d hm => .of_fail
  | succ n ih =>
    obtain ⟨n', rfl⟩ := Nat.exists_eq_succ_of_ne_zero (Nat.ne_zero_of_lt hn)
    have hle : n ≤ n' := Nat.le_of_succ_le_succ hn
    intro c d hm
    refine .here (.kind ?_)
    rw [hm.kind_congr signOf? rfl]
    cases hsign : signOf? c.current.kind with
    | some op =>
      have hend : c.current.kind ≠ .endOfInput := by
        intro hk
        simp [hk, signOf?] at hsign
      obtain ⟨hstart, hcur, -⟩ := hm.of_token hend
      refine .advance hm hend fun c₁ d₁ hl₁ hlt₁ => .bind (ih hle hl₁.meets) ?_
      rintro e _ c₂ d₂ ⟨rfl, hreal⟩ hl₂ hlt₂
      refine .pure hl₂ ⟨?_, hstart.merge hreal⟩ (by omega)
      rw [hcur, Expr.relocate, σ.keepsMerge _ _ hstart hreal, Expr.span_relocate]
      rfl
    | none =>
      refine .bind (primary_follows hexpr hm) ?_
      rintro base _ c₁ d₁ ⟨rfl, hbase⟩ hl₁ hlt₁
      refine .accept hl₁.meets (by simp) (by simp) (fun c₂ d₂ hl₂ hlt₂ => ?_)
        (.pure hl₁ ⟨rfl, hbase⟩ hlt₁)
      refine .bind (ih hle hl₂.meets) ?_
      rintro e _ c₃ d₃ ⟨rfl, hreal⟩ hl₃ hlt₃
      exact .pure hl₃ ⟨(Expr.relocate_join σ.keepsMerge .pow hbase hreal).symm,
        hbase.merge hreal⟩ (by omega)

end Ladder

section Operators

variable {operand operand' : Parser Expr} {level : Level}

theorem operations_stops {n n' : Nat} {c d : Cursor} {e : Expr} (hl : σ.Linked c d)
    (hreal : e.span.IsReal) (hop : level.op? c.current.kind = none) :
    σ.Carries σ.Moved (c.rest.length + 1) (operations level operand n e)
      (operations level operand' n' (e.relocate σ.move)) c d :=
  .stop hl ⟨rfl, hreal⟩ (operations_of_none hop)
    (operations_of_none (by rwa [hl.meets.kind_congr level.op? (by cases level <;> rfl)]))

theorem chain_stops {n n' : Nat} {c d : Cursor} (hl : σ.Linked c d)
    (hk : comparisonOf? c.current.kind = none) :
    σ.Carries (fun ls ls' => ls' = relocateLinks σ.move ls) (c.rest.length + 1) (chain operand n)
      (chain operand' n') c d :=
  .stop hl rfl (chain_of_none hk)
    (chain_of_none (by rwa [hl.meets.kind_congr comparisonOf? rfl]))

/-- Operands and the same ones where the splice has them. -/
def MovedAll (σ : Splice) (es es' : List Expr) : Prop :=
  es' = relocateAll σ.move es ∧ ∀ e ∈ es, e.span.IsReal

theorem operands_stops {n n' : Nat} {c d : Cursor} {op : Connective} (hl : σ.Linked c d)
    (hk : isConnective op c.current.kind = false) :
    σ.Carries σ.MovedAll (c.rest.length + 1) (operands op operand n) (operands op operand' n')
      c d :=
  .stop hl ⟨rfl, by simp⟩ (operands_of_false hk)
    (operands_of_false (by rwa [hl.meets.kind_congr (isConnective op) (by cases op <;> rfl)]))

/-- The span of connected operands moves as a whole. -/
theorem move_spanOf (σ : Splice) {first : Expr} {others : List Expr} (hfirst : first.span.IsReal)
    (hothers : ∀ e ∈ others, e.span.IsReal) :
    (spanOf first others).IsReal ∧
      spanOf (first.relocate σ.move) (relocateAll σ.move others) =
        σ.move (spanOf first others) := by
  have hlast : (others.getLast?.getD first).span.IsReal := by
    cases hl : others.getLast? with
    | none => exact hfirst
    | some e => exact hothers e (List.mem_of_getLast? hl)
  refine ⟨hfirst.merge hlast, ?_⟩
  unfold spanOf
  rw [σ.keepsMerge _ _ hfirst hlast, relocateAll_eq_map, List.getLast?_map, Expr.span_relocate]
  cases others.getLast? <;> simp

variable (hoperand : σ.Follows operand operand')
include hoperand

theorem operations_carries {n n' : Nat} {c d : Cursor} {e : Expr} (hl : σ.Linked c d)
    (hreal : e.span.IsReal) (hn : c.rest.length ≤ n) (hn' : c.rest.length ≤ n') :
    σ.Carries σ.Moved (c.rest.length + 1) (operations level operand n e)
      (operations level operand' n' (e.relocate σ.move)) c d := by
  induction n generalizing n' c d e with
  | zero =>
    exact operations_stops hl hreal (by rw [hl.meets.eq_end hn]; cases level <;> rfl)
  | succ n ih =>
    cases hop : level.op? c.current.kind with
    | none => exact operations_stops hl hreal hop
    | some op =>
      have hend : c.current.kind ≠ .endOfInput := by
        intro hk
        rw [hk] at hop
        cases level <;> cases hop
      obtain ⟨n', rfl⟩ := hl.meets.exists_fuel hend hn'
      refine .kind ?_
      rw [hl.meets.kind_congr level.op? (by cases level <;> rfl), hop]
      refine .advance hl.meets hend fun c₁ d₁ hl₁ hlt₁ => .bind (hoperand hl₁.meets) ?_
      rintro right _ c₂ d₂ ⟨rfl, hright⟩ hl₂ hlt₂
      have hjoined : (e.join op right).span.IsReal := hreal.merge hright
      rw [← Expr.relocate_join σ.keepsMerge op hreal hright]
      exact (ih hl₂ hjoined (by omega) (by omega)).mono (by omega)

theorem leftAssociative_follows :
    σ.Follows (leftAssociative level operand) (leftAssociative level operand') := by
  intro c d hm
  refine .bind (hoperand hm) ?_
  rintro e _ c₁ d₁ ⟨rfl, hreal⟩ hl hlt
  exact .remaining ((operations_carries hoperand hl hreal (Nat.le_refl _)
    hl.meets.le).mono hlt)

theorem chain_carries {n n' : Nat} {c d : Cursor} (hl : σ.Linked c d) (hn : c.rest.length ≤ n)
    (hn' : c.rest.length ≤ n') :
    σ.Carries (fun ls ls' => ls' = relocateLinks σ.move ls) (c.rest.length + 1) (chain operand n)
      (chain operand' n') c d := by
  induction n generalizing n' c d with
  | zero => exact chain_stops hl (by rw [hl.meets.eq_end hn]; rfl)
  | succ n ih =>
    cases hop : comparisonOf? c.current.kind with
    | none => exact chain_stops hl hop
    | some op =>
      have hend : c.current.kind ≠ .endOfInput := by
        intro hk
        rw [hk] at hop
        cases hop
      obtain ⟨n', rfl⟩ := hl.meets.exists_fuel hend hn'
      refine .kind ?_
      rw [hl.meets.kind_congr comparisonOf? rfl, hop]
      refine .advance hl.meets hend fun c₁ d₁ hl₁ hlt₁ => .bind (hoperand hl₁.meets) ?_
      rintro e _ c₂ d₂ ⟨rfl, -⟩ hl₂ hlt₂
      refine .bind (ih hl₂ (by omega) (by omega)) ?_
      rintro ls _ c₃ d₃ rfl hl₃ hlt₃
      exact .pure hl₃ (by rw [relocateLinks]) (by omega)

theorem operands_carries {n n' : Nat} {c d : Cursor} {op : Connective} (hl : σ.Linked c d)
    (hn : c.rest.length ≤ n) (hn' : c.rest.length ≤ n') :
    σ.Carries σ.MovedAll (c.rest.length + 1) (operands op operand n) (operands op operand' n')
      c d := by
  induction n generalizing n' c d with
  | zero => exact operands_stops hl (by rw [hl.meets.eq_end hn]; cases op <;> rfl)
  | succ n ih =>
    cases hop : isConnective op c.current.kind with
    | false => exact operands_stops hl hop
    | true =>
      have hend : c.current.kind ≠ .endOfInput := by
        intro hk
        rw [hk] at hop
        cases op <;> cases hop
      obtain ⟨n', rfl⟩ := hl.meets.exists_fuel hend hn'
      refine .kind ?_
      rw [hl.meets.kind_congr (isConnective op) (by cases op <;> rfl), hop]
      refine .advance hl.meets hend fun c₁ d₁ hl₁ hlt₁ => .bind (hoperand hl₁.meets) ?_
      rintro e _ c₂ d₂ ⟨rfl, hreal⟩ hl₂ hlt₂
      refine .bind (ih hl₂ (by omega) (by omega)) ?_
      rintro es _ c₃ d₃ ⟨rfl, hreals⟩ hl₃ hlt₃
      exact .pure hl₃ ⟨by rw [relocateAll], List.forall_mem_cons.mpr ⟨hreal, hreals⟩⟩ (by omega)

theorem connected_follows (op : Connective) :
    σ.Follows (connected op operand) (connected op operand') := by
  intro c d hm
  refine .bind (hoperand hm) ?_
  rintro first _ c₁ d₁ ⟨rfl, hfirst⟩ hl hlt
  refine .remaining (.bind (operands_carries hoperand hl (Nat.le_refl _) hl.meets.le) ?_)
  rintro others _ c₂ d₂ ⟨rfl, hothers⟩ hl₂ hlt₂
  obtain ⟨hreal, hspan⟩ := σ.move_spanOf hfirst hothers
  cases others with
  | nil => exact .pure hl₂ ⟨rfl, hfirst⟩ (by omega)
  | cons e es =>
    refine .pure hl₂ ⟨?_, hreal⟩ (by omega)
    rw [Expr.relocate, ← hspan]
    simp only [relocateAll]

end Operators

section Ladder

variable {expr expr' : Parser Expr} (hexpr : σ.Follows expr expr')
include hexpr

theorem arithmetic_follows : σ.Follows (arithmetic expr) (arithmetic expr') := by
  have hsigned : σ.Follows (do factor expr ((← remaining) + 1))
      (do factor expr' ((← remaining) + 1)) := by
    intro c d hm
    exact .remaining (factor_follows hexpr (Nat.succ_le_succ hm.le) hm)
  have hproduct : σ.Follows (leftAssociative .product _) _ := leftAssociative_follows hsigned
  have hsum : σ.Follows (leftAssociative .sum _) _ := leftAssociative_follows hproduct
  have hshift : σ.Follows (leftAssociative .shift _) _ := leftAssociative_follows hsum
  have hand : σ.Follows (leftAssociative .bitAnd _) _ := leftAssociative_follows hshift
  have hxor : σ.Follows (leftAssociative .bitXor _) _ := leftAssociative_follows hand
  have hor : σ.Follows (leftAssociative .bitOr _) _ := leftAssociative_follows hxor
  exact hor

theorem comparison_follows : σ.Follows (comparison expr) (comparison expr') := by
  intro c d hm
  refine .bind (arithmetic_follows hexpr hm) ?_
  rintro left _ c₁ d₁ ⟨rfl, hleft⟩ hl hlt
  refine .remaining (.bind
    (chain_carries (arithmetic_follows hexpr) hl (Nat.le_refl _) hl.meets.le) ?_)
  rintro links _ c₂ d₂ rfl hl₂ hlt₂
  cases links with
  | nil => exact .pure hl₂ ⟨rfl, hleft⟩ (by omega)
  | cons l ls =>
    refine .last (.pure hl₂ ⟨?_, hleft.merge hl₂.isReal⟩ (by omega))
    rw [Expr.relocate, Expr.span_relocate, hl₂.merge hleft, relocateLinks]

theorem negation_follows {n n' : Nat} (hn : n ≤ n') :
    σ.Follows (negation expr n) (negation expr' n') := by
  induction n generalizing n' with
  | zero => exact fun c d hm => .of_fail
  | succ n ih =>
    obtain ⟨n', rfl⟩ := Nat.exists_eq_succ_of_ne_zero (Nat.ne_zero_of_lt hn)
    have hle : n ≤ n' := Nat.le_of_succ_le_succ hn
    intro c d hm
    have hnot : isNot c.current.kind = true ↔ isNot d.current.kind = true := by
      rw [hm.kind_congr isNot rfl]
    refine .here (.kind (.ite hnot (fun hk => ?_) fun _ => comparison_follows hexpr hm))
    have hend : c.current.kind ≠ .endOfInput := by
      intro h
      rw [h] at hk
      cases hk
    obtain ⟨hstart, hcur, -⟩ := hm.of_token hend
    refine .advance hm hend fun c₁ d₁ hl₁ hlt₁ => .bind (ih hle hl₁.meets) ?_
    rintro e _ c₂ d₂ ⟨rfl, hreal⟩ hl₂ hlt₂
    refine .pure hl₂ ⟨?_, hstart.merge hreal⟩ (by omega)
    rw [hcur, Expr.relocate, σ.keepsMerge _ _ hstart hreal, Expr.span_relocate]
    rfl

theorem layer_follows : σ.Follows (layer expr) (layer expr') := by
  have hinner : σ.Follows (do negation expr ((← remaining) + 1))
      (do negation expr' ((← remaining) + 1)) := by
    intro c d hm
    exact .remaining (negation_follows hexpr (Nat.succ_le_succ hm.le) hm)
  exact connected_follows (connected_follows hinner .and) .or

end Ladder

/-- An expression is read in the longer text as it is read alone. -/
theorem expression_follows {n n' : Nat} (hn : n ≤ n') :
    σ.Follows (expression n) (expression n') := by
  induction n generalizing n' with
  | zero => exact fun c d hm => .of_fail
  | succ n ih =>
    obtain ⟨n', rfl⟩ := Nat.exists_eq_succ_of_ne_zero (Nat.ne_zero_of_lt hn)
    exact layer_follows (ih (Nat.le_of_succ_le_succ hn))

/-! ### Statements -/

section Statements

variable {expr expr' : Parser Expr}

theorem values_stops {n n' : Nat} {c d : Cursor} (hl : σ.Linked c d)
    (hk : c.current.kind ≠ .equal) :
    σ.Carries (fun es es' => es' = relocateAll σ.move es) (c.rest.length + 1) (values expr n)
      (values expr' n') c d :=
  .stop hl rfl (values_of_ne hk)
    (values_of_ne (mt (hl.meets.kind_iff (by simp) (by simp)).mpr hk))

/-- Targets can be assigned to wherever they stand. -/
theorem Carries.checkTargets {β β' : Type} {Q : β → β' → Prop} {m : Nat} {c d : Cursor}
    {targets : List Expr} {f : Unit → Parser β} {f' : Unit → Parser β'}
    (h : σ.Carries Q m (f ()) (f' ()) c d) :
    σ.Carries Q m (Parser.checkTargets targets >>= f)
      (Parser.checkTargets (relocateAll σ.move targets) >>= f') c d := by
  intro b c' hb
  obtain ⟨hnone, hb⟩ := checkTargets_bind_eq_ok.mp hb
  have hassign := assignable_of_firstUnassignable? hnone
  rw [checkTargets_bind (by rwa [bareAll_relocateAll])]
  exact h hb

variable (hexpr : σ.Follows expr expr')
include hexpr

theorem values_carries {n n' : Nat} {c d : Cursor} (hl : σ.Linked c d) (hn : c.rest.length ≤ n)
    (hn' : c.rest.length ≤ n') :
    σ.Carries (fun es es' => es' = relocateAll σ.move es) (c.rest.length + 1) (values expr n)
      (values expr' n') c d := by
  induction n generalizing n' c d with
  | zero => exact values_stops hl (by simp [hl.meets.eq_end hn])
  | succ n ih =>
    by_cases hk : c.current.kind = .equal
    · obtain ⟨n', rfl⟩ := hl.meets.exists_fuel (by simp [hk]) hn'
      refine .accept hl.meets (by simp) (by simp) (fun c₁ d₁ hl₁ hlt₁ => ?_)
        (.pure hl rfl (Nat.lt_succ_self _))
      refine .bind (exprList_follows hexpr hl₁.meets) ?_
      rintro e _ c₂ d₂ ⟨rfl, -⟩ hl₂ hlt₂
      refine .bind (ih hl₂ (by omega) (by omega)) ?_
      rintro es _ c₃ d₃ rfl hl₃ hlt₃
      exact .pure hl₃ (by rw [relocateAll]) (by omega)
    · exact values_stops hl hk

theorem augment_carries {c d : Cursor} {start : Span} {first : Expr} {op : BinaryOp}
    (hl : σ.Linked c d) (hstart : start.IsReal) (hk : c.current.kind ≠ .endOfInput) :
    σ.Carries (fun s s' => s' = s.relocate σ.move) (c.rest.length + 1)
      (statementTail expr start first (.augmented op))
      (statementTail expr' (σ.move start) (first.relocate σ.move) (.augmented op)) c d := by
  have htarget : relocateAll σ.move [first] = [first.relocate σ.move] := by simp [relocateAll]
  unfold statementTail
  rw [← htarget]
  refine .checkTargets (.advance hl.meets hk fun c₁ d₁ hl₁ hlt₁ => .bind (hexpr hl₁.meets) ?_)
  rintro value _ c₂ d₂ ⟨rfl, -⟩ hl₂ hlt₂
  refine .last (.pure hl₂ ?_ (by omega))
  rw [hl₂.merge hstart, Stmt.relocate]

theorem assign_carries {c d : Cursor} {start : Span} {first : Expr} (hl : σ.Linked c d)
    (hstart : start.IsReal) :
    σ.Carries (fun s s' => s' = s.relocate σ.move) (c.rest.length + 1)
      (statementTail expr start first .newline)
      (statementTail expr' (σ.move start) (first.relocate σ.move) .newline) c d := by
  unfold statementTail
  refine .remaining (.bind (values_carries hexpr hl (Nat.le_refl _) hl.meets.le) ?_)
  rintro es _ c₁ d₁ rfl hl₁ hlt₁
  cases es with
  | nil =>
    refine .last (.pure hl₁ ?_ hlt₁)
    rw [hl₁.merge hstart, Stmt.relocate]
  | cons v vs =>
    have htargets : (first.relocate σ.move :: v.relocate σ.move :: relocateAll σ.move vs).dropLast =
        relocateAll σ.move (first :: v :: vs).dropLast := by
      simp [relocateAll_eq_map, List.map_dropLast]
    have hvalue : (relocateAll σ.move vs).getLastD (v.relocate σ.move) =
        (vs.getLastD v).relocate σ.move := by
      simp [relocateAll_eq_map]
    rw [relocateAll]
    simp only [htargets, hvalue]
    refine .checkTargets (.last (.pure hl₁ ?_ hlt₁))
    rw [hl₁.merge hstart, Stmt.relocate]

theorem statement_carries {c d : Cursor} (hm : σ.Meets c d) :
    σ.Carries (fun s s' => s' = s.relocate σ.move) c.rest.length (statement expr)
      (statement expr') c d := by
  rw [statement_eq, statement_eq]
  refine .here (.bind (exprList_follows hexpr hm) ?_)
  rintro first _ c₁ d₁ ⟨rfl, -⟩ hl hlt
  obtain ⟨hstart, hcur, -⟩ := hm.of_token (hm.ne_end (by omega))
  refine .kind ?_
  rw [hcur]
  by_cases haug : ∃ op, c₁.current.kind = .augmented op
  · obtain ⟨op, hk⟩ := haug
    have hk' : d₁.current.kind = .augmented op := (hl.meets.kind_iff (by simp) (by simp)).mp hk
    rw [hk, hk']
    exact (augment_carries hexpr hl hstart (by simp [hk])).mono hlt
  · have hne : ∀ op, c₁.current.kind ≠ .augmented op := fun op hk => haug ⟨op, hk⟩
    have hne' : ∀ op, d₁.current.kind ≠ .augmented op :=
      fun op => mt (hl.meets.kind_iff (by simp) (by simp)).mpr (hne op)
    rw [statementTail_of_ne hne, statementTail_of_ne hne']
    exact (assign_carries hexpr hl hstart).mono hlt

omit hexpr in
/-- Where a statement begins it is read, and then those behind it. -/
theorem statements_eq_ok {n : Nat} {c c' : Cursor} {ss : List Stmt}
    (hsep : ¬ IsSeparator c.current.kind) (hend : c.current.kind ≠ .endOfInput) :
    statements expr (n + 1) c = .ok (ss, c') ↔ ∃ s rest c₁, statement expr c = .ok (s, c₁) ∧
      c₁.current.kind.isTerminator ∧ statements expr n c₁ = .ok (rest, c') ∧ ss = s :: rest := by
  rw [statements, remaining_bind, bind_of_ok (skipTerminators_stop hsep), kind_bind, if_neg hend,
    bind_eq_ok]
  constructor
  · rintro ⟨s, c₁, hs, h⟩
    rw [kind_bind] at h
    split at h
    · next hk =>
      obtain ⟨rest, c₂, hrest, h⟩ := bind_eq_ok.mp h
      obtain ⟨rfl, rfl⟩ := pure_eq_ok.mp h
      exact ⟨s, rest, c₁, hs, hk, hrest, rfl⟩
    · exact absurd h fail_ne_ok
  · rintro ⟨s, rest, c₁, hs, hk, hrest, rfl⟩
    refine ⟨s, c₁, hs, ?_⟩
    rw [kind_bind, if_pos hk, bind_of_ok hrest]
    rfl

/-- The statements of a text are those read first in the text it is spliced into. -/
theorem statements_carries {n n' : Nat} {c d c' : Cursor} {ss behind : List Stmt}
    (hm : σ.Meets c d) (hn : c.rest.length < n) (hn' : d.rest.length < n')
    (h : statements expr n c = .ok (ss, c'))
    (hbehind : ∀ d₁ m, d₁.current = σ.stop → d₁.rest = σ.more → σ.more.length < m →
      ∃ d₂, statements expr' m d₁ = .ok (behind, d₂)) :
    ∃ d', statements expr' n' d = .ok (ss.map (Stmt.relocate σ.move) ++ behind, d') := by
  -- A separator takes an item but no step, so the induction is on the items that are left.
  induction hlen : c.rest.length using Nat.strongRecOn generalizing n n' c d ss with
  | ind l ih =>
    subst hlen
    by_cases hend : c.current.kind = .endOfInput
    · rw [statements_end hend] at h
      cases h
      obtain ⟨hstop, hmore⟩ := hm.of_end hend
      exact hbehind d n' hstop hmore (by rwa [← hmore])
    obtain ⟨-, hcur, c₁, d₁, hc, hd, hl⟩ := hm.of_token hend
    obtain ⟨n, rfl⟩ := Nat.exists_eq_succ_of_ne_zero (Nat.ne_zero_of_lt hn)
    obtain ⟨n', rfl⟩ := Nat.exists_eq_succ_of_ne_zero (Nat.ne_zero_of_lt hn')
    have hlength := hm.length
    have hkind : d.current.kind = c.current.kind := by rw [hcur]; rfl
    by_cases hsep : IsSeparator c.current.kind
    · have hc' := Cursor.length_of_next? hc
      have hd' := Cursor.length_of_next? hd
      rw [statements_separator hsep hc] at h
      rw [statements_separator (hkind ▸ hsep) hd]
      exact ih c₁.rest.length (by omega) hl.meets (by omega) (by omega) h rfl
    · obtain ⟨s, rest, c₂, hs, hterm, hrest, rfl⟩ := (statements_eq_ok hsep hend).mp h
      obtain ⟨s', d₂, hs', rfl, hl₂, hlt⟩ := statement_carries hexpr hm hs
      have hlength₂ := hl₂.meets.length
      have hfuel : d₂.rest.length < n' := by omega
      obtain ⟨d', hrest'⟩ := ih c₂.rest.length hlt hl₂.meets (by omega) hfuel hrest rfl
      refine ⟨d', (statements_eq_ok (hkind ▸ hsep) (hkind ▸ hend)).mpr
        ⟨_, _, d₂, hs', ?_, hrest', rfl⟩⟩
      rwa [hl₂.meets.kind_congr Token.Kind.isTerminator rfl]

end Statements

end Splice

end LoopNest
