import LoopNest.Proofs.CursorReading

/-!
# Reading follows the grammar

Whatever the parser returns is the tree of a derivation of the words it has read. Each function of
the parser has the statement for its symbol. The loops that gather operators to the left carry the
words of what they have gathered so far.
-/

namespace LoopNest.Parser

open Grammar

variable {α β : Type}

/-- The results of a parser are related to the words it reads. -/
def Sound (p : Parser α) (P : List Word → α → Prop) : Prop :=
  ∀ ⦃c : Cursor⦄ ⦃a : α⦄ ⦃c' : Cursor⦄, c.Closed → p c = .ok (a, c') →
    ∃ ws, c.Reads ws c' ∧ P ws a

/-- The results of a parser are trees of a symbol. -/
abbrev SoundFor (p : Parser Expr) (symbol : Symbol) : Prop :=
  Sound p fun ws e => Derives symbol ws (.expr e.bare)

theorem Sound.bind_eq_ok {p : Parser α} {P : List Word → α → Prop} (hp : Sound p P)
    {f : α → Parser β} {b : β} {c c' : Cursor} (hc : c.Closed) (h : (p >>= f) c = .ok (b, c')) :
    ∃ ws a c₁, c.Reads ws c₁ ∧ P ws a ∧ c₁.Closed ∧ f a c₁ = .ok (b, c') := by
  obtain ⟨a, c₁, hpa, hf⟩ := Parser.bind_eq_ok.mp h
  obtain ⟨ws, hr, hP⟩ := hp hc hpa
  exact ⟨ws, a, c₁, hr, hP, hc.reads hr, hf⟩

/-- Going on from a word that is not the end reads that word. -/
theorem advance_reads {f : Unit → Parser α} {a : α} {c c' : Cursor} {k : Token.Kind}
    (hc : c.Closed) (hk : c.current.kind = k) (hend : k ≠ .endOfInput)
    (h : (advance >>= f) c = .ok (a, c')) :
    ∃ c₁, c.Reads [(k, c.current.lexeme)] c₁ ∧ c₁.Closed ∧ f () c₁ = .ok (a, c') := by
  obtain ⟨c₁, hn, hf⟩ := (advance_bind_eq_ok hc (hk ▸ hend)).mp h
  exact ⟨c₁, ⟨by rw [Token.word, hk], c₁, hn, rfl⟩, hc.next hn, hf⟩

theorem expect_reads {f : Unit → Parser α} {a : α} {c c' : Cursor} {d : Delimiter}
    (hc : c.Closed) (h : (expect d >>= f) c = .ok (a, c')) :
    ∃ c₁, c.Reads [(d.kind, c.current.lexeme)] c₁ ∧ c₁.Closed ∧ f () c₁ = .ok (a, c') := by
  rw [expect_bind] at h
  split at h
  · next hk => exact advance_reads hc hk (by cases d <;> simp [Delimiter.kind]) h
  · obtain ⟨_, _, hfail, -⟩ := Parser.bind_eq_ok.mp h
    exact absurd hfail fail_ne_ok

section Lists

variable {expr : Parser Expr} (hexpr : SoundFor expr .expr)
include hexpr

/-- What stands behind the first expression of a list: nothing, or a comma and more items. -/
theorem listTail_sound (n : Nat) {c c' : Cursor} {es : List Expr} (hc : c.Closed)
    (h : listTail expr n c = .ok (es, c')) :
    (es = [] ∧ c = c' ∧ (n = 0 ∨ c.current.kind ≠ .comma)) ∨
      ∃ s ws, c.Reads ((.comma, s) :: ws) c' ∧ Derives .items ws (.exprs (bareAll es)) := by
  induction n generalizing c es with
  | zero =>
    obtain ⟨rfl, rfl⟩ := pure_eq_ok.mp h
    exact .inl ⟨rfl, rfl, .inl rfl⟩
  | succ n ih =>
    rw [listTail, accept_bind] at h
    split at h
    · next hk =>
      refine .inr ⟨c.current.lexeme, ?_⟩
      obtain ⟨c₁, hr₁, hc₁, h⟩ := advance_reads hc hk (by simp) h
      rw [if_pos rfl, kind_bind] at h
      split at h
      · obtain ⟨rfl, rfl⟩ := pure_eq_ok.mp h
        exact ⟨[], hr₁, .noItem⟩
      · obtain ⟨ws, e, c₂, hr₂, he, hc₂, h⟩ := hexpr.bind_eq_ok hc₁ h
        obtain ⟨es', c₃, htail, h⟩ := Parser.bind_eq_ok.mp h
        obtain ⟨rfl, rfl⟩ := pure_eq_ok.mp h
        rw [bareAll]
        rcases ih hc₂ htail with ⟨rfl, rfl, -⟩ | ⟨s, vs, hr₃, hes⟩
        · exact ⟨ws, hr₁.append hr₂, by rw [bareAll]; exact .lastItem he⟩
        · exact ⟨ws ++ (.comma, s) :: vs, hr₁.append (hr₂.append hr₃), .item s he hes⟩
    · next hk =>
      rw [if_neg (by simp)] at h
      obtain ⟨rfl, rfl⟩ := pure_eq_ok.mp h
      exact .inl ⟨rfl, rfl, .inr hk⟩

theorem exprList_sound : SoundFor (exprList expr) .exprList := by
  intro c e c' hc h
  rw [exprList, here_bind] at h
  obtain ⟨ws, first, c₁, hr₁, hfirst, hc₁, h⟩ := hexpr.bind_eq_ok hc h
  rw [kind_bind] at h
  split at h
  · next hk =>
    rw [remaining_bind] at h
    obtain ⟨others, c₂, htail, h⟩ := Parser.bind_eq_ok.mp h
    rw [last_bind] at h
    obtain ⟨rfl, rfl⟩ := pure_eq_ok.mp h
    rcases listTail_sound hexpr _ hc₁ htail with ⟨-, -, h0 | hne⟩ | ⟨s, vs, hr₂, hothers⟩
    · exact absurd (List.length_eq_zero_iff.mp h0) (hc₁.rest_ne_nil (by simp [hk]))
    · exact absurd hk hne
    · exact ⟨ws ++ (.comma, s) :: vs, hr₁.append hr₂, .tuple s hfirst hothers⟩
  · obtain ⟨rfl, rfl⟩ := pure_eq_ok.mp h
    exact ⟨ws, hr₁, .single hfirst⟩

theorem sequence_sound (close : Token.Kind) (n : Nat) :
    Sound (sequence expr close n) fun ws es => Derives .items ws (.exprs (bareAll es)) := by
  induction n with
  | zero =>
    intro c es c' hc h
    obtain ⟨rfl, rfl⟩ := pure_eq_ok.mp h
    exact ⟨[], rfl, .noItem⟩
  | succ n ih =>
    intro c es c' hc h
    rw [sequence, kind_bind] at h
    split at h
    · obtain ⟨rfl, rfl⟩ := pure_eq_ok.mp h
      exact ⟨[], rfl, .noItem⟩
    · obtain ⟨ws, e, c₁, hr₁, he, hc₁, h⟩ := hexpr.bind_eq_ok hc h
      rw [accept_bind] at h
      split at h
      · next hk =>
        obtain ⟨c₂, hr₂, hc₂, h⟩ := advance_reads hc₁ hk (by simp) h
        rw [if_pos rfl] at h
        obtain ⟨vs, es', c₃, hr₃, hes, -, h⟩ := ih.bind_eq_ok hc₂ h
        obtain ⟨rfl, rfl⟩ := pure_eq_ok.mp h
        exact ⟨_, hr₁.append (hr₂.append hr₃), .item _ he hes⟩
      · rw [if_neg (by simp)] at h
        obtain ⟨rfl, rfl⟩ := pure_eq_ok.mp h
        exact ⟨ws, hr₁, .lastItem he⟩

theorem entries_sound (n : Nat) :
    Sound (entries expr n) fun ws es => Derives .entries ws (.entries (bareEntries es)) := by
  induction n with
  | zero =>
    intro c es c' hc h
    obtain ⟨rfl, rfl⟩ := pure_eq_ok.mp h
    exact ⟨[], rfl, .noEntry⟩
  | succ n ih =>
    intro c es c' hc h
    rw [entries, kind_bind] at h
    split at h
    · obtain ⟨rfl, rfl⟩ := pure_eq_ok.mp h
      exact ⟨[], rfl, .noEntry⟩
    · obtain ⟨ws, key, c₁, hr₁, hkey, hc₁, h⟩ := hexpr.bind_eq_ok hc h
      obtain ⟨c₂, hr₂, hc₂, h⟩ := expect_reads hc₁ h
      obtain ⟨vs, value, c₃, hr₃, hvalue, hc₃, h⟩ := hexpr.bind_eq_ok hc₂ h
      have hr := hr₁.append (hr₂.append hr₃)
      rw [accept_bind] at h
      split at h
      · next hk =>
        obtain ⟨c₄, hr₄, hc₄, h⟩ := advance_reads hc₃ hk (by simp) h
        rw [if_pos rfl] at h
        obtain ⟨us, es', c₅, hr₅, hes, -, h⟩ := ih.bind_eq_ok hc₄ h
        obtain ⟨rfl, rfl⟩ := pure_eq_ok.mp h
        refine ⟨_, hr.append (hr₄.append hr₅), ?_⟩
        simpa [bareEntries, Delimiter.kind] using Derives.entry _ _ hkey hvalue hes
      · rw [if_neg (by simp)] at h
        obtain ⟨rfl, rfl⟩ := pure_eq_ok.mp h
        exact ⟨_, hr, .lastEntry _ hkey hvalue⟩

end Lists

theorem mem_signs_of_signOf? {k : Token.Kind} {op : UnaryOp} (h : signOf? k = some op) :
    (k, op) ∈ signs := by
  unfold signOf? at h
  split at h <;> cases h <;> decide

theorem mem_operators_of_op? {level : Level} {k : Token.Kind} {op : BinaryOp}
    (h : level.op? k = some op) : k = .binary op ∧ op ∈ operators level := by
  unfold Level.op? at h
  split at h <;> cases h <;> decide

/-- The operators of a level extend the words of what stands before them. -/
theorem operations_sound {level : Level} {operand : Parser Expr}
    (hoperand : SoundFor operand (.operand level)) (n : Nat) {ws : List Word} {e e' : Expr}
    {c c' : Cursor} (hc : c.Closed) (he : Derives (.level level) ws (.expr e.bare))
    (h : operations level operand n e c = .ok (e', c')) :
    ∃ vs, c.Reads vs c' ∧ Derives (.level level) (ws ++ vs) (.expr e'.bare) := by
  induction n generalizing c e ws with
  | zero =>
    obtain ⟨rfl, rfl⟩ := pure_eq_ok.mp h
    exact ⟨[], rfl, by simpa using he⟩
  | succ n ih =>
    rw [operations, kind_bind] at h
    cases hop : level.op? c.current.kind with
    | some op =>
      simp only [hop] at h
      obtain ⟨hk, hmem⟩ := mem_operators_of_op? hop
      obtain ⟨c₁, hr₁, hc₁, h⟩ := advance_reads hc hk (by simp) h
      obtain ⟨us, right, c₂, hr₂, hright, hc₂, h⟩ := hoperand.bind_eq_ok hc₁ h
      obtain ⟨vs, hr₃, he'⟩ := ih hc₂ (.binary c.current.lexeme hmem he hright) h
      exact ⟨_, hr₁.append (hr₂.append hr₃), by simpa using he'⟩
    | none =>
      simp only [hop] at h
      obtain ⟨rfl, rfl⟩ := pure_eq_ok.mp h
      exact ⟨[], rfl, by simpa using he⟩

theorem leftAssociative_sound {level : Level} {operand : Parser Expr}
    (hoperand : SoundFor operand (.operand level)) :
    SoundFor (leftAssociative level operand) (.level level) := by
  intro c e c' hc h
  obtain ⟨ws, left, c₁, hr₁, hleft, hc₁, h⟩ := hoperand.bind_eq_ok hc h
  rw [remaining_bind] at h
  obtain ⟨vs, hr₂, he⟩ := operations_sound hoperand _ hc₁ (.operand hleft) h
  exact ⟨_, hr₁.append hr₂, he⟩

section Ladder

variable {expr : Parser Expr} (hexpr : SoundFor expr .expr)
include hexpr

theorem atom_sound : SoundFor (atom expr) .atom := by
  intro c e c' hc h
  rw [atom, get_bind] at h
  cases hk : c.current.kind with
  | identifier =>
    simp only [hk] at h
    obtain ⟨c₁, hr, -, h⟩ := advance_reads hc hk (by simp) h
    obtain ⟨rfl, rfl⟩ := pure_eq_ok.mp h
    exact ⟨_, hr, .name _⟩
  | integer =>
    simp only [hk] at h
    obtain ⟨c₁, hr, -, h⟩ := advance_reads hc hk (by simp) h
    obtain ⟨rfl, rfl⟩ := pure_eq_ok.mp h
    exact ⟨_, hr, .number _ (.inl rfl)⟩
  | float =>
    simp only [hk] at h
    obtain ⟨c₁, hr, -, h⟩ := advance_reads hc hk (by simp) h
    obtain ⟨rfl, rfl⟩ := pure_eq_ok.mp h
    exact ⟨_, hr, .number _ (.inr rfl)⟩
  | left bracket =>
    cases bracket with
    | round =>
      simp only [hk] at h
      obtain ⟨c₁, hr₁, hc₁, h⟩ := advance_reads hc hk (by simp) h
      rw [accept_bind] at h
      split at h
      · next hk₁ =>
        obtain ⟨c₂, hr₂, -, h⟩ := advance_reads hc₁ hk₁ (by simp) h
        rw [if_pos rfl, last_bind] at h
        obtain ⟨rfl, rfl⟩ := pure_eq_ok.mp h
        exact ⟨_, hr₁.append hr₂, .unit _ _⟩
      · rw [if_neg (by simp)] at h
        obtain ⟨ws, inner, c₂, hr₂, hinner, hc₂, h⟩ := (exprList_sound hexpr).bind_eq_ok hc₁ h
        obtain ⟨c₃, hr₃, -, h⟩ := expect_reads hc₂ h
        obtain ⟨rfl, rfl⟩ := pure_eq_ok.mp h
        exact ⟨_, hr₁.append (hr₂.append hr₃), .group _ _ hinner⟩
    | square =>
      simp only [hk] at h
      obtain ⟨c₁, hr₁, hc₁, h⟩ := advance_reads hc hk (by simp) h
      rw [remaining_bind] at h
      obtain ⟨ws, items, c₂, hr₂, hitems, hc₂, h⟩ := (sequence_sound hexpr _ _).bind_eq_ok hc₁ h
      obtain ⟨c₃, hr₃, -, h⟩ := expect_reads hc₂ h
      rw [last_bind] at h
      obtain ⟨rfl, rfl⟩ := pure_eq_ok.mp h
      exact ⟨_, hr₁.append (hr₂.append hr₃), .list _ _ hitems⟩
    | curly =>
      simp only [hk] at h
      obtain ⟨c₁, hr₁, hc₁, h⟩ := advance_reads hc hk (by simp) h
      rw [remaining_bind] at h
      obtain ⟨ws, items, c₂, hr₂, hitems, hc₂, h⟩ := (entries_sound hexpr _).bind_eq_ok hc₁ h
      obtain ⟨c₃, hr₃, -, h⟩ := expect_reads hc₂ h
      rw [last_bind] at h
      obtain ⟨rfl, rfl⟩ := pure_eq_ok.mp h
      exact ⟨_, hr₁.append (hr₂.append hr₃), .dict _ _ hitems⟩
  | _ =>
    simp only [hk] at h
    exact absurd h fail_ne_ok

/-- Calls and subscripts extend the words of what stands before them. -/
theorem trailers_sound (n : Nat) {ws : List Word} {e e' : Expr} {c c' : Cursor} (hc : c.Closed)
    (he : Derives .primary ws (.expr e.bare)) (h : trailers expr n e c = .ok (e', c')) :
    ∃ vs, c.Reads vs c' ∧ Derives .primary (ws ++ vs) (.expr e'.bare) := by
  induction n generalizing c e ws with
  | zero =>
    obtain ⟨rfl, rfl⟩ := pure_eq_ok.mp h
    exact ⟨[], rfl, by simpa using he⟩
  | succ n ih =>
    unfold trailers at h
    rw [kind_bind] at h
    by_cases hround : c.current.kind = .left .round
    · simp only [hround] at h
      cases e with
      | name span callee =>
        obtain ⟨c₁, hr₁, hc₁, h⟩ := advance_reads hc hround (by simp) h
        rw [remaining_bind] at h
        obtain ⟨us, args, c₂, hr₂, hargs, hc₂, h⟩ := (sequence_sound hexpr _ _).bind_eq_ok hc₁ h
        obtain ⟨c₃, hr₃, hc₃, h⟩ := expect_reads hc₂ h
        rw [last_bind] at h
        have hr := hr₁.append (hr₂.append hr₃)
        rw [Expr.bare] at he
        obtain ⟨vs, hr₄, he'⟩ := ih hc₃ (.call c.current.lexeme c₂.current.lexeme he hargs) h
        exact ⟨_, hr.append hr₄, by simpa [Delimiter.kind] using he'⟩
      | _ => exact absurd h fail_ne_ok
    by_cases hsquare : c.current.kind = .left .square
    · simp only [hsquare] at h
      obtain ⟨c₁, hr₁, hc₁, h⟩ := advance_reads hc hsquare (by simp) h
      obtain ⟨us, index, c₂, hr₂, hindex, hc₂, h⟩ := (exprList_sound hexpr).bind_eq_ok hc₁ h
      obtain ⟨c₃, hr₃, hc₃, h⟩ := expect_reads hc₂ h
      rw [last_bind] at h
      have hr := hr₁.append (hr₂.append hr₃)
      obtain ⟨vs, hr₄, he'⟩ := ih hc₃ (.subscript c.current.lexeme c₂.current.lexeme he hindex) h
      exact ⟨_, hr.append hr₄, by simpa [Delimiter.kind] using he'⟩
    · simp only at h
      obtain ⟨rfl, rfl⟩ := pure_eq_ok.mp h
      exact ⟨[], rfl, by simpa using he⟩

theorem primary_sound : SoundFor (primary expr) .primary := by
  intro c e c' hc h
  obtain ⟨ws, base, c₁, hr₁, hbase, hc₁, h⟩ := (atom_sound hexpr).bind_eq_ok hc h
  rw [remaining_bind] at h
  obtain ⟨vs, hr₂, he⟩ := trailers_sound hexpr _ hc₁ (.atom hbase) h
  exact ⟨_, hr₁.append hr₂, he⟩

theorem factor_sound (n : Nat) : SoundFor (factor expr n) .factor := by
  induction n with
  | zero =>
    intro c e c' _ h
    exact absurd h fail_ne_ok
  | succ n ih =>
    intro c e c' hc h
    rw [factor, here_bind, kind_bind] at h
    cases hop : signOf? c.current.kind with
    | some op =>
      simp only [hop] at h
      have hsign := mem_signs_of_signOf? hop
      obtain ⟨c₁, hr₁, hc₁, h⟩ := advance_reads hc rfl (by rintro hk; simp [hk, signOf?] at hop) h
      obtain ⟨ws, operand, c₂, hr₂, hoperand, -, h⟩ := ih.bind_eq_ok hc₁ h
      obtain ⟨rfl, rfl⟩ := pure_eq_ok.mp h
      exact ⟨_, hr₁.append hr₂, .sign _ hsign hoperand⟩
    | none =>
      simp only [hop] at h
      obtain ⟨ws, base, c₁, hr₁, hbase, hc₁, h⟩ := (primary_sound hexpr).bind_eq_ok hc h
      rw [accept_bind] at h
      split at h
      · next hk =>
        obtain ⟨c₂, hr₂, hc₂, h⟩ := advance_reads hc₁ hk (by simp) h
        rw [if_pos rfl] at h
        obtain ⟨vs, exponent, c₃, hr₃, hexponent, -, h⟩ := ih.bind_eq_ok hc₂ h
        obtain ⟨rfl, rfl⟩ := pure_eq_ok.mp h
        exact ⟨_, hr₁.append (hr₂.append hr₃), .power (.pow _ hbase hexponent)⟩
      · rw [if_neg (by simp)] at h
        obtain ⟨rfl, rfl⟩ := pure_eq_ok.mp h
        exact ⟨ws, hr₁, .power (.primary hbase)⟩

theorem arithmetic_sound : SoundFor (arithmetic expr) (.level .bitOr) := by
  have hfactor : SoundFor (do factor expr ((← remaining) + 1)) .factor := by
    intro c e c' hc h
    rw [remaining_bind] at h
    exact factor_sound hexpr _ hc h
  have hproduct : SoundFor (leftAssociative .product _) (.level .product) :=
    leftAssociative_sound hfactor
  have hsum : SoundFor (leftAssociative .sum _) (.level .sum) := leftAssociative_sound hproduct
  have hshift : SoundFor (leftAssociative .shift _) (.level .shift) := leftAssociative_sound hsum
  have hand : SoundFor (leftAssociative .bitAnd _) (.level .bitAnd) := leftAssociative_sound hshift
  have hxor : SoundFor (leftAssociative .bitXor _) (.level .bitXor) := leftAssociative_sound hand
  have hor : SoundFor (leftAssociative .bitOr _) (.level .bitOr) := leftAssociative_sound hxor
  exact hor

theorem chain_sound (n : Nat) :
    Sound (chain (arithmetic expr) n) fun ws ls => Derives .chain ws (.links (bareLinks ls)) := by
  induction n with
  | zero =>
    intro c ls c' hc h
    obtain ⟨rfl, rfl⟩ := pure_eq_ok.mp h
    exact ⟨[], rfl, .noLink⟩
  | succ n ih =>
    intro c ls c' hc h
    rw [chain, kind_bind] at h
    cases hop : comparisonOf? c.current.kind with
    | some op =>
      simp only [hop] at h
      have hk : c.current.kind = .compare op := by
        unfold comparisonOf? at hop
        split at hop <;> cases hop
        assumption
      obtain ⟨c₁, hr₁, hc₁, h⟩ := advance_reads hc hk (by simp) h
      obtain ⟨ws, e, c₂, hr₂, he, hc₂, h⟩ := (arithmetic_sound hexpr).bind_eq_ok hc₁ h
      obtain ⟨vs, links, c₃, hr₃, hlinks, -, h⟩ := ih.bind_eq_ok hc₂ h
      obtain ⟨rfl, rfl⟩ := pure_eq_ok.mp h
      have hchain : Derives .chain _ (.links (bareLinks ((op, e) :: links))) :=
        .link c.current.lexeme he hlinks
      exact ⟨_, hr₁.append (hr₂.append hr₃), hchain⟩
    | none =>
      simp only [hop] at h
      obtain ⟨rfl, rfl⟩ := pure_eq_ok.mp h
      exact ⟨[], rfl, .noLink⟩

theorem comparison_sound : SoundFor (comparison expr) .comparison := by
  intro c e c' hc h
  obtain ⟨ws, left, c₁, hr₁, hleft, hc₁, h⟩ := (arithmetic_sound hexpr).bind_eq_ok hc h
  rw [remaining_bind] at h
  obtain ⟨vs, links, c₂, hr₂, hlinks, -, h⟩ := (chain_sound hexpr _).bind_eq_ok hc₁ h
  cases links with
  | nil =>
    obtain ⟨rfl, rfl⟩ := pure_eq_ok.mp h
    cases hlinks
    exact ⟨_, hr₁.append hr₂, by simpa using Derives.uncompared hleft⟩
  | cons link links =>
    obtain ⟨op, right⟩ := link
    simp only [last_bind] at h
    obtain ⟨rfl, rfl⟩ := pure_eq_ok.mp h
    exact ⟨_, hr₁.append hr₂, .compared hleft hlinks⟩

theorem negation_sound (n : Nat) : SoundFor (negation expr n) .inversion := by
  induction n with
  | zero =>
    intro c e c' _ h
    exact absurd h fail_ne_ok
  | succ n ih =>
    intro c e c' hc h
    rw [negation, here_bind, kind_bind] at h
    split at h
    · next hnot =>
      have hk : c.current.kind = .not ∨ c.current.kind = .bang := by simpa [isNot] using hnot
      obtain ⟨c₁, hr₁, hc₁, h⟩ :=
        advance_reads hc rfl (by rcases hk with hk | hk <;> simp [hk]) h
      obtain ⟨ws, operand, c₂, hr₂, hoperand, -, h⟩ := ih.bind_eq_ok hc₁ h
      obtain ⟨rfl, rfl⟩ := pure_eq_ok.mp h
      exact ⟨_, hr₁.append hr₂, .inversion _ hk hoperand⟩
    · obtain ⟨ws, hr, he⟩ := comparison_sound hexpr hc h
      exact ⟨ws, hr, .comparison he⟩

end Ladder

theorem mem_connectives_iff {op : Connective} {k : Token.Kind} :
    isConnective op k = true ↔ k ∈ connectives op := by
  cases op <;> simp [isConnective, connectives]

section Connected

variable {op : Connective} {operand : Parser Expr} (hoperand : SoundFor operand (.part op))
include hoperand

theorem operands_sound (n : Nat) :
    Sound (operands op operand n) fun ws es => Derives (.run op) ws (.exprs (bareAll es)) := by
  induction n with
  | zero =>
    intro c es c' hc h
    obtain ⟨rfl, rfl⟩ := pure_eq_ok.mp h
    exact ⟨[], rfl, .noPart⟩
  | succ n ih =>
    intro c es c' hc h
    rw [operands, kind_bind] at h
    split at h
    · next hconn =>
      have hk := mem_connectives_iff.mp hconn
      obtain ⟨c₁, hr₁, hc₁, h⟩ := advance_reads hc rfl
        (by rintro hend; cases op <;> simp [hend, connectives] at hk) h
      obtain ⟨ws, e, c₂, hr₂, he, hc₂, h⟩ := hoperand.bind_eq_ok hc₁ h
      obtain ⟨vs, es', c₃, hr₃, hes, -, h⟩ := ih.bind_eq_ok hc₂ h
      obtain ⟨rfl, rfl⟩ := pure_eq_ok.mp h
      have hrun := Derives.part c.current.lexeme hk he hes
      exact ⟨_, hr₁.append (hr₂.append hr₃), hrun⟩
    · obtain ⟨rfl, rfl⟩ := pure_eq_ok.mp h
      exact ⟨[], rfl, .noPart⟩

theorem connected_sound : SoundFor (connected op operand) (.connected op) := by
  intro c e c' hc h
  obtain ⟨ws, first, c₁, hr₁, hfirst, hc₁, h⟩ := hoperand.bind_eq_ok hc h
  rw [remaining_bind] at h
  obtain ⟨vs, others, c₂, hr₂, hothers, -, h⟩ := (operands_sound hoperand _).bind_eq_ok hc₁ h
  cases others with
  | nil =>
    obtain ⟨rfl, rfl⟩ := pure_eq_ok.mp h
    cases hothers
    exact ⟨_, hr₁.append hr₂, by simpa using Derives.unconnected hfirst⟩
  | cons e es =>
    obtain ⟨rfl, rfl⟩ := pure_eq_ok.mp h
    exact ⟨_, hr₁.append hr₂, .connected hfirst hothers⟩

end Connected

theorem layer_sound {expr : Parser Expr} (hexpr : SoundFor expr .expr) :
    SoundFor (layer expr) .expr := by
  have hpart : SoundFor (do negation expr ((← remaining) + 1)) .inversion := by
    intro c e c' hc h
    rw [remaining_bind] at h
    exact negation_sound hexpr _ hc h
  have hand : SoundFor (connected .and _) (.connected .and) := connected_sound hpart
  have hor : SoundFor (connected .or _) (.connected .or) := connected_sound hand
  exact hor

/-- An expression is read as the tree of a derivation. -/
theorem expression_sound (n : Nat) : SoundFor (expression n) .expr := by
  induction n with
  | zero =>
    intro c e c' _ h
    exact absurd h fail_ne_ok
  | succ n ih => exact layer_sound ih

/-! ### Statements -/

mutual

theorem assignable_of_unassignable? : ∀ {e : Expr}, unassignable? e = none → Assignable e.bare
  | .name .., _ => .name ..
  | .subscript .., _ => .subscript ..
  | .tuple _ items, h => by
    rw [unassignable?] at h
    exact .tuple _ _ (assignable_of_firstUnassignable? h)
  | .number .., h | .binary .., h | .unary .., h | .connect .., h | .compare .., h | .call .., h
  | .list .., h | .dict .., h => by simp [unassignable?] at h

theorem assignable_of_firstUnassignable? :
    ∀ {es : List Expr}, firstUnassignable? es = none → ∀ e ∈ bareAll es, Assignable e
  | [], _ => by simp [bareAll]
  | e :: es, h => by
    have he : unassignable? e = none := by
      cases hu : unassignable? e with
      | none => rfl
      | some bad => simp [firstUnassignable?, hu] at h
    have hes : firstUnassignable? es = none := by simpa [firstUnassignable?, he] using h
    have hall := assignable_of_firstUnassignable? hes
    simpa [bareAll, assignable_of_unassignable? he] using hall

end

theorem checkTargets_bind_eq_ok {targets : List Expr} {f : Unit → Parser α} {a : α}
    {c c' : Cursor} :
    (checkTargets targets >>= f) c = .ok (a, c') ↔
      firstUnassignable? targets = none ∧ f () c = .ok (a, c') := by
  unfold checkTargets
  cases firstUnassignable? targets with
  | none => simp
  | some e =>
    simp only [reduceCtorEq, false_and, iff_false]
    intro h
    cases h

section Statements

variable {expr : Parser Expr} (hexpr : SoundFor expr .expr)
include hexpr

/-- Expression lists after equals signs, with one before them: all but the last are targets. -/
theorem values_sound (n : Nat) {c c' : Cursor} {vs : List Expr} (hc : c.Closed)
    (h : values expr n c = .ok (vs, c')) {ws : List Word} {first : Expr}
    (hfirst : Derives .exprList ws (.expr first.bare))
    (ht : firstUnassignable? (first :: vs).dropLast = none) :
    ∃ us ws₁ ws₂, c.Reads us c' ∧ ws ++ us = ws₁ ++ ws₂ ∧
      Targets ws₁ (bareAll (first :: vs).dropLast) ∧
      Derives .exprList ws₂ (.expr (vs.getLastD first).bare) := by
  induction n generalizing c vs ws first with
  | zero =>
    obtain ⟨rfl, rfl⟩ := pure_eq_ok.mp h
    exact ⟨[], [], ws, rfl, by simp, .nil, hfirst⟩
  | succ n ih =>
    rw [values, accept_bind] at h
    split at h
    · next hk =>
      obtain ⟨c₁, hr₁, hc₁, h⟩ := advance_reads hc hk (by simp) h
      rw [if_pos rfl] at h
      obtain ⟨ws₁, e, c₂, hr₂, he, hc₂, h⟩ := (exprList_sound hexpr).bind_eq_ok hc₁ h
      obtain ⟨rest, c₃, hrest, h⟩ := Parser.bind_eq_ok.mp h
      obtain ⟨rfl, rfl⟩ := pure_eq_ok.mp h
      rw [List.dropLast_cons_cons] at ht ⊢
      have hf : unassignable? first = none := by
        cases hu : unassignable? first with
        | none => rfl
        | some bad => simp [firstUnassignable?, hu] at ht
      obtain ⟨us, ws₂, ws₃, hr₃, heq, htargets, hvalue⟩ := ih hc₂ hrest he
        (by simpa [firstUnassignable?, hf] using ht)
      have hall := Targets.cons c.current.lexeme hfirst (assignable_of_unassignable? hf) htargets
      exact ⟨_, _, ws₃, hr₁.append (hr₂.append hr₃), by simp [heq], hall, by
        rwa [List.getLastD_cons]⟩
    · rw [if_neg (by simp)] at h
      obtain ⟨rfl, rfl⟩ := pure_eq_ok.mp h
      exact ⟨[], [], ws, rfl, by simp, .nil, hfirst⟩

theorem statement_sound : Sound (statement expr) fun ws s => Statement ws s.bare := by
  intro c s c' hc h
  rw [statement, here_bind] at h
  obtain ⟨ws, first, c₁, hr₁, hfirst, hc₁, h⟩ := (exprList_sound hexpr).bind_eq_ok hc h
  rw [kind_bind] at h
  cases hk : c₁.current.kind with
  | augmented op =>
    simp only [hk] at h
    obtain ⟨ht, h⟩ := checkTargets_bind_eq_ok.mp h
    obtain ⟨c₂, hr₂, hc₂, h⟩ := advance_reads hc₁ hk (by simp) h
    obtain ⟨vs, value, c₃, hr₃, hvalue, -, h⟩ := hexpr.bind_eq_ok hc₂ h
    rw [last_bind] at h
    obtain ⟨rfl, rfl⟩ := pure_eq_ok.mp h
    have hassign := assignable_of_firstUnassignable? ht first.bare (by simp [bareAll])
    exact ⟨_, hr₁.append (hr₂.append hr₃), .augment _ hfirst hassign hvalue⟩
  | _ =>
    simp only [hk, remaining_bind] at h
    obtain ⟨vs, c₂, hvalues, h⟩ := Parser.bind_eq_ok.mp h
    cases vs with
    | nil =>
      simp only [last_bind] at h
      obtain ⟨rfl, rfl⟩ := pure_eq_ok.mp h
      obtain ⟨us, ws₁, ws₂, hr₂, heq, htargets, hvalue⟩ :=
        values_sound hexpr _ hc₁ hvalues hfirst rfl
      cases htargets
      rw [List.nil_append] at heq
      exact ⟨_, hr₁.append hr₂, .eval (heq ▸ hvalue)⟩
    | cons v vs =>
      obtain ⟨ht, h⟩ := checkTargets_bind_eq_ok.mp h
      rw [last_bind] at h
      obtain ⟨rfl, rfl⟩ := pure_eq_ok.mp h
      obtain ⟨us, ws₁, ws₂, hr₂, heq, htargets, hvalue⟩ :=
        values_sound hexpr _ hc₁ hvalues hfirst ht
      refine ⟨_, hr₁.append hr₂, ?_⟩
      rw [heq]
      rw [List.getLastD_cons] at hvalue
      exact .assign htargets hvalue

end Statements

/-- Separators are skipped, any number of them. -/
theorem skipTerminators_sound (n : Nat) : Sound (skipTerminators n) fun ws _ =>
    ∀ vs ss, Body vs ss → Body (ws ++ vs) ss := by
  induction n with
  | zero =>
    intro c u c' hc h
    obtain ⟨rfl, rfl⟩ := pure_eq_ok.mp h
    exact ⟨[], rfl, fun vs ss hb => hb⟩
  | succ n ih =>
    intro c u c' hc h
    rw [skipTerminators, kind_bind] at h
    split at h
    · next hk =>
      have hsep : IsSeparator c.current.kind := by simpa [IsSeparator] using hk
      obtain ⟨c₁, hr₁, hc₁, h⟩ := advance_reads hc rfl (by
        rintro hend
        simp [IsSeparator, hend] at hsep) h
      obtain ⟨ws, hr₂, hws⟩ := ih hc₁ h
      exact ⟨_, hr₁.append hr₂, fun vs ss hb => .skip _ hsep (hws vs ss hb)⟩
    · obtain ⟨rfl, rfl⟩ := pure_eq_ok.mp h
      exact ⟨[], rfl, fun vs ss hb => hb⟩

/-- A statement before a terminator is the first of the program that goes on there. -/
theorem body_of_terminated {ws vs : List Word} {s : Stmt} {ss : List Stmt} {c c' : Cursor}
    (hs : Statement ws s) (hc : c.Closed) (hterm : c.current.kind.isTerminator)
    (hr : c.Reads vs c') (hbody : Body vs ss) :
    Body (ws ++ vs) (s :: ss) := by
  cases vs with
  | nil =>
    rw [hbody.eq_nil, List.append_nil]
    exact .last hs
  | cons w vs =>
    obtain ⟨hw, c₁, hn, hr⟩ := hr
    have hne : c.current.kind ≠ .endOfInput := by
      intro hk
      rw [Cursor.next?, hc.rest_eq_nil hk] at hn
      cases hn
    have hsep : IsSeparator c.current.kind := by
      cases hk : c.current.kind <;> simp_all [Token.Kind.isTerminator, IsSeparator]
    subst hw
    exact .cons _ hs hsep (hbody.of_separator hsep)

/-- With more steps than items the statements are read up to the end of the input. -/
theorem statements_sound {expr : Parser Expr} (hexpr : SoundFor expr .expr) (n : Nat)
    {c c' : Cursor} {ss : List Stmt} (hc : c.Closed) (hn : c.rest.length < n)
    (h : statements expr n c = .ok (ss, c')) :
    ∃ ws, c.Reads ws c' ∧ c'.current.kind = .endOfInput ∧ Body ws (ss.map Stmt.bare) := by
  induction n generalizing c ss with
  | zero => omega
  | succ n ih =>
    rw [statements, remaining_bind] at h
    obtain ⟨ws, _, c₁, hr₁, hskip, hc₁, h⟩ := (skipTerminators_sound _).bind_eq_ok hc h
    rw [kind_bind] at h
    split at h
    · next hend =>
      obtain ⟨rfl, rfl⟩ := pure_eq_ok.mp h
      exact ⟨ws, hr₁, hend, by simpa using hskip [] [] .nil⟩
    · obtain ⟨vs, s, c₂, hr₂, hs, hc₂, h⟩ := (statement_sound hexpr).bind_eq_ok hc₁ h
      rw [kind_bind] at h
      split at h
      · next hterm =>
        obtain ⟨ss', c₃, hrest, h⟩ := Parser.bind_eq_ok.mp h
        obtain ⟨rfl, rfl⟩ := pure_eq_ok.mp h
        have hlen : c₂.rest.length < n := by
          have h₁ := hr₁.length
          have h₂ := hr₂.length
          have h₃ := List.length_pos_iff.mpr hs.begins.ne_nil
          omega
        obtain ⟨us, hr₃, hend, hbody⟩ := ih hc₂ hlen hrest
        exact ⟨_, hr₁.append (hr₂.append hr₃), hend,
          hskip _ _ (body_of_terminated hs hc₂ hterm hr₃ hbody)⟩
      · exact absurd h fail_ne_ok

/-- A program that is read from tokens up to the end of the input is derived from their words. -/
theorem program_sound {c c' : Cursor} {p : Program} (hc : c.Closed)
    (h : program c = .ok (p, c')) :
    ∃ ws, c.Reads ws c' ∧ c'.current.kind = .endOfInput ∧ Body ws (p.body.map Stmt.bare) := by
  rw [program, here_bind, remaining_bind] at h
  obtain ⟨body, c₁, hbody, h⟩ := Parser.bind_eq_ok.mp h
  rw [last_bind] at h
  obtain ⟨rfl, rfl⟩ := pure_eq_ok.mp h
  exact statements_sound (expression_sound _) _ hc (Nat.lt_succ_self _) hbody

end LoopNest.Parser
