import LoopNest.Proofs.DescentSteps

/-!
# Descents return

Every function of the descent ends where the function of the parser does, as long as the bound of
that one is no less than the number of items ahead. The loops go by induction on their bounds: a pass
makes a call, so fewer items are ahead of the next one, and where the bound is used up the end of the
input has been reached. Expressions go by induction on the depth of the parser, since one inside
another begins behind a token of that.

What a function of the descent calls has fewer items ahead or, where nothing has been read in
between, a lower rank in the grammar. There are less than twenty ranks, so a descent has a value at
every depth of twenty for each item or more, and it is the one that the parser computes.
-/

namespace LoopNest.Descent

open State

variable {items : List Scan.Item} {n depth rank : Nat} {s : State}

/-- A parser reads expressions as the descent does wherever fewer than `n` items are ahead. -/
def Follows (items : List Scan.Item) (n : Nat) (expr : Parser Expr) : Prop :=
  ∀ ⦃s depth⦄, s.Deeper items n → s.Room 17 depth →
    Returns items (s.count + 1) (expression depth) expr s

/-- Where the bound of a loop is used up, the end of the input has been reached. -/
theorem kind_of_bound (h : s.pending.length ≤ 0) : s.current.kind = .endOfInput :=
  kind_of_pending (List.eq_nil_of_length_eq_zero (Nat.le_zero.mp h))

/-! ### Lists and displays -/

section Lists

variable {expr : Parser Expr} (hexpr : Follows items n expr)
include hexpr

theorem listTail_returns {m : Nat} (hs : s.Deeper items n) (hd : s.Room 1 depth)
    (hm : s.pending.length ≤ m) :
    Returns items s.count (listTail depth) (Parser.listTail expr m) s := by
  induction m generalizing s depth with
  | zero =>
    obtain ⟨d, rfl, -⟩ := hd.below
    rw [listTail, Parser.listTail]
    exact .count (.accept_of_ne (by simp [kind_of_bound hm]) (.pure hs.ready))
  | succ m ih =>
    obtain ⟨d, rfl, hbelow⟩ := hd.below
    rw [listTail, Parser.listTail]
    apply Returns.count
    refine .accept hs.ready (by simp) (fun s₁ h₁ hlt₁ => ?_) (.pure hs.ready)
    apply Returns.kind
    apply Returns.ite
    · intro _
      exact .pass h₁ hlt₁ fun s₂ h₂ _ => .pure h₂.ready
    · intro _
      have hd₁ : s₁.Room 17 d := h₁.room_of_lt hlt₁ hbelow (by decide)
      refine (hexpr (h₁.deeper hs) hd₁).weaken.bind fun e s₂ h₂ _ => ?_
      refine .pass (h₁.trans h₂) (Nat.lt_of_lt_of_le hlt₁ h₂.le) fun s₃ h₃ hlt₃ => ?_
      have hd₃ : s₃.Room 1 d := h₃.room_of_lt hlt₃ hbelow (by decide)
      have hpending := Nat.le_of_lt_succ (h₃.pending_lt hlt₃ hm)
      exact (ih (h₃.deeper hs) hd₃ hpending).bind fun es s₄ h₄ _ => .pure h₄.ready

theorem exprList_returns (hs : s.Deeper items n) (hd : s.Room 18 depth) :
    Returns items (s.count + 1) (exprList depth) (Parser.exprList expr) s := by
  obtain ⟨d, rfl, hbelow⟩ := hd.below
  rw [exprList, Parser.exprList]
  apply Returns.here
  refine (hexpr hs hbelow).bind fun first s₁ h₁ hlt₁ => ?_
  apply Returns.kind
  apply Returns.ite
  · intro _
    apply Returns.remaining
    have hd₁ : s₁.Room 1 d := h₁.room_of_lt hlt₁ hbelow (by decide)
    refine (listTail_returns hexpr (h₁.deeper hs) hd₁ (Nat.le_refl _)).bind fun others s₂ h₂ _ => ?_
    exact .last (.pure h₂.ready)
  · intro _
    exact .pure h₁.ready

theorem sequence_returns {close : Token.Kind} {m : Nat} (hs : s.Deeper items n)
    (hd : s.Room 18 depth) (hm : s.pending.length < m) :
    Returns items s.count (sequence close depth) (Parser.sequence expr close m) s := by
  induction m generalizing s depth with
  | zero => exact absurd hm (Nat.not_lt_zero _)
  | succ m ih =>
    obtain ⟨d, rfl, hbelow⟩ := hd.below
    rw [sequence, Parser.sequence]
    apply Returns.count
    apply Returns.kind
    refine .ite (fun _ => .pure hs.ready) fun _ => ?_
    refine .weaken ((hexpr hs hbelow).bind fun e s₁ h₁ hlt₁ => ?_)
    refine .accept h₁.ready (by simp) (fun s₂ h₂ hlt₂ => ?_) ?_
    · refine .pass (h₁.trans h₂) (Nat.lt_of_lt_of_le hlt₁ h₂.le) fun s₃ h₃ hlt₃ => ?_
      have hd₃ : s₃.Room 18 d := h₃.room_of_lt hlt₃ hbelow (by decide)
      have hpending := h₃.pending_lt hlt₃ (Nat.le_of_lt_succ hm)
      exact (ih (h₃.deeper hs) hd₃ hpending).bind fun es s₄ h₄ _ => .pure h₄.ready
    · exact .pass h₁ hlt₁ fun s₂ h₂ _ => .pure h₂.ready

theorem entries_returns {m : Nat} (hs : s.Deeper items n) (hd : s.Room 18 depth)
    (hm : s.pending.length < m) :
    Returns items s.count (entries depth) (Parser.entries expr m) s := by
  induction m generalizing s depth with
  | zero => exact absurd hm (Nat.not_lt_zero _)
  | succ m ih =>
    obtain ⟨d, rfl, hbelow⟩ := hd.below
    rw [entries, Parser.entries]
    apply Returns.count
    apply Returns.kind
    refine .ite (fun _ => .pure hs.ready) fun _ => ?_
    refine .weaken ((hexpr hs hbelow).bind fun key s₁ h₁ hlt₁ => ?_)
    refine .expect h₁.ready fun s₂ h₂ => ?_
    -- The key alone is a token at least, whether or not a comma follows its value.
    have hkey := h₁.trans h₂
    have hlt₂ : s.count < s₂.count := Nat.lt_of_lt_of_le hlt₁ h₂.le
    have hd₂ : s₂.Room 17 d := hkey.room_of_lt hlt₂ hbelow (by decide)
    refine (hexpr (hkey.deeper hs) hd₂).weaken.bind fun value s₃ h₃ _ => ?_
    have hvalue := hkey.trans h₃
    have hlt₃ : s.count < s₃.count := Nat.lt_of_lt_of_le hlt₂ h₃.le
    refine .accept h₃.ready (by simp) (fun s₄ h₄ _ => ?_) ?_
    · refine .pass (hvalue.trans h₄) (Nat.lt_of_lt_of_le hlt₃ h₄.le) fun s₅ h₅ hlt₅ => ?_
      have hd₅ : s₅.Room 18 d := h₅.room_of_lt hlt₅ hbelow (by decide)
      have hpending := h₅.pending_lt hlt₅ (Nat.le_of_lt_succ hm)
      exact (ih (h₅.deeper hs) hd₅ hpending).bind fun es s₆ h₆ _ => .pure h₆.ready
    · exact .pass hvalue hlt₃ fun s₄ h₄ _ => .pure h₄.ready

/-! ### The ladder of precedences -/

theorem atom_returns (hs : s.Inside items n) (hd : s.Room 1 depth) :
    Returns items (s.count + 1) (atom depth) (Parser.atom expr) s := by
  obtain ⟨d, rfl, hbelow⟩ := hd.below
  rw [atom, Parser.atom]
  apply Returns.get
  simp only [cursor]
  cases hk : s.current.kind with
  | identifier | integer | float =>
    exact .advance hs.ready (by simp [hk]) fun s₁ h₁ _ => .pure h₁.ready
  | left bracket =>
    cases bracket with
    | round =>
      refine .advance hs.ready (by simp [hk]) fun s₁ h₁ hlt₁ => ?_
      refine .accept h₁.ready (by simp) (fun s₂ h₂ _ => .last (.pure h₂.ready)) ?_
      have hd₁ : s₁.Room 18 d := h₁.room_of_lt hlt₁ hbelow (by decide)
      refine (exprList_returns hexpr (h₁.deeper_of_lt hs hlt₁) hd₁).weaken.bind
        fun inner s₂ h₂ _ => ?_
      exact .expect h₂.ready fun s₃ h₃ => .pure h₃.ready
    | square =>
      refine .advance hs.ready (by simp [hk]) fun s₁ h₁ hlt₁ => ?_
      apply Returns.remaining
      have hd₁ : s₁.Room 18 d := h₁.room_of_lt hlt₁ hbelow (by decide)
      refine (sequence_returns hexpr (h₁.deeper_of_lt hs hlt₁) hd₁ (Nat.lt_succ_self _)).bind
        fun list s₂ h₂ _ => ?_
      exact .expect h₂.ready fun s₃ h₃ => .last (.pure h₃.ready)
    | curly =>
      refine .advance hs.ready (by simp [hk]) fun s₁ h₁ hlt₁ => ?_
      apply Returns.remaining
      have hd₁ : s₁.Room 18 d := h₁.room_of_lt hlt₁ hbelow (by decide)
      refine (entries_returns hexpr (h₁.deeper_of_lt hs hlt₁) hd₁ (Nat.lt_succ_self _)).bind
        fun dict s₂ h₂ _ => ?_
      exact .expect h₂.ready fun s₃ h₃ => .last (.pure h₃.ready)
  | _ => exact .fail hs.ready

/-- A bracket has been read when a list inside it begins, so trailers need no more than an atom. -/
theorem trailers_returns {m : Nat} {e : Expr} (hs : s.Inside items n) (hd : s.Room 1 depth)
    (hm : s.pending.length < m) :
    Returns items s.count (trailers depth e) (Parser.trailers expr m e) s := by
  induction m generalizing s depth e with
  | zero => exact absurd hm (Nat.not_lt_zero _)
  | succ m ih =>
    obtain ⟨d, rfl, hbelow⟩ := hd.below
    unfold trailers Parser.trailers
    apply Returns.count
    apply Returns.kind
    cases hk : s.current.kind with
    | left bracket =>
      cases bracket with
      | round =>
        cases e with
        | name span callee =>
          refine .weaken (.advance hs.ready (by simp [hk]) fun s₁ h₁ hlt₁ => ?_)
          apply Returns.remaining
          have hd₁ : s₁.Room 18 d := h₁.room_of_lt hlt₁ hbelow (by decide)
          refine (sequence_returns hexpr (h₁.deeper_of_lt hs hlt₁) hd₁ (Nat.lt_succ_self _)).bind
            fun args s₂ h₂ _ => ?_
          refine .expect h₂.ready fun s₃ h₃ => ?_
          apply Returns.last
          have hread := h₁.trans (h₂.trans h₃)
          refine .pass hread (Nat.lt_of_lt_of_le hlt₁ (h₂.trans h₃).le) fun s₄ h₄ hlt₄ => ?_
          have hd₄ : s₄.Room 1 d := h₄.room_of_lt hlt₄ hbelow (by decide)
          exact ih (h₄.inside hs) hd₄ (h₄.pending_lt hlt₄ (Nat.le_of_lt_succ hm))
        | _ => exact .fail hs.ready
      | square =>
        refine .weaken (.advance hs.ready (by simp [hk]) fun s₁ h₁ hlt₁ => ?_)
        have hd₁ : s₁.Room 18 d := h₁.room_of_lt hlt₁ hbelow (by decide)
        refine (exprList_returns hexpr (h₁.deeper_of_lt hs hlt₁) hd₁).weaken.bind
          fun index s₂ h₂ _ => ?_
        refine .expect h₂.ready fun s₃ h₃ => ?_
        apply Returns.last
        have hread := h₁.trans (h₂.trans h₃)
        refine .pass hread (Nat.lt_of_lt_of_le hlt₁ (h₂.trans h₃).le) fun s₄ h₄ hlt₄ => ?_
        have hd₄ : s₄.Room 1 d := h₄.room_of_lt hlt₄ hbelow (by decide)
        exact ih (h₄.inside hs) hd₄ (h₄.pending_lt hlt₄ (Nat.le_of_lt_succ hm))
      | curly => exact .pure hs.ready
    | _ => exact .pure hs.ready

theorem primary_returns (hs : s.Inside items n) (hd : s.Room 2 depth) :
    Returns items (s.count + 1) (primary depth) (Parser.primary expr) s := by
  obtain ⟨d, rfl, hbelow⟩ := hd.below
  rw [primary, Parser.primary]
  refine (atom_returns hexpr hs hbelow).bind fun e s₁ h₁ hlt₁ => ?_
  apply Returns.remaining
  have hd₁ : s₁.Room 1 d := h₁.room_of_lt hlt₁ hbelow (by decide)
  exact trailers_returns hexpr (h₁.inside hs) hd₁ (Nat.lt_succ_self _)

theorem factor_returns {m : Nat} (hs : s.Inside items n) (hd : s.Room 3 depth)
    (hm : s.pending.length < m) :
    Returns items (s.count + 1) (factor depth) (Parser.factor expr m) s := by
  induction m generalizing s depth with
  | zero => exact absurd hm (Nat.not_lt_zero _)
  | succ m ih =>
    obtain ⟨d, rfl, hbelow⟩ := hd.below
    rw [factor, Parser.factor]
    apply Returns.here
    apply Returns.kind
    cases hop : Parser.signOf? s.current.kind with
    | some op =>
      have hend : s.current.kind ≠ .endOfInput := by
        intro hend
        simp [hend, Parser.signOf?] at hop
      refine .advance hs.ready hend fun s₁ h₁ hlt₁ => ?_
      have hd₁ : s₁.Room 3 d := h₁.room_of_lt hlt₁ hbelow (by decide)
      have hpending := h₁.pending_lt hlt₁ (Nat.le_of_lt_succ hm)
      exact (ih (h₁.inside hs) hd₁ hpending).weaken.bind fun operand s₂ h₂ _ => .pure h₂.ready
    | none =>
      refine (primary_returns hexpr hs hbelow).bind fun base s₁ h₁ _ => ?_
      refine .accept h₁.ready (by simp) (fun s₂ h₂ hlt₂ => ?_) (.pure h₁.ready)
      -- Signs and exponents recurse directly, so the bound falls with every operator read.
      have hread := h₁.trans h₂
      have hlt := Nat.lt_of_le_of_lt h₁.le hlt₂
      have hd₂ : s₂.Room 3 d := hread.room_of_lt hlt hbelow (by decide)
      have hpending := hread.pending_lt hlt (Nat.le_of_lt_succ hm)
      exact (ih (hread.inside hs) hd₂ hpending).weaken.bind fun exponent s₃ h₃ _ => .pure h₃.ready

end Lists

/-- A parser reads as a descent of the given rank does at every place in an expression. -/
def Matches (items : List Scan.Item) (n rank : Nat) (p : Nat → Descent Expr) (q : Parser Expr) :
    Prop :=
  ∀ ⦃s depth⦄, s.Inside items n → s.Room rank depth → Returns items (s.count + 1) (p depth) q s

theorem op?_endOfInput (level : Parser.Level) : level.op? .endOfInput = none := by
  cases level <;> rfl

section Operators

variable {tighter : List Parser.Level} {operand : Parser Expr}

theorem operations_returns (hoperand : Matches items n rank (leftAssociative tighter) operand)
    (hrank : rank ≤ 20) {level : Parser.Level} {m : Nat} {left : Expr} (hs : s.Inside items n)
    (hd : s.Room 1 depth) (hm : s.pending.length ≤ m) :
    Returns items s.count (operations level tighter depth left)
      (Parser.operations level operand m left) s := by
  induction m generalizing s depth left with
  | zero =>
    obtain ⟨d, rfl, -⟩ := hd.below
    rw [operations, Parser.operations]
    refine .count (.look ?_)
    rw [kind_of_bound hm, op?_endOfInput]
    exact .pure hs.ready
  | succ m ih =>
    obtain ⟨d, rfl, hbelow⟩ := hd.below
    rw [operations, Parser.operations]
    apply Returns.count
    apply Returns.kind
    cases hop : level.op? s.current.kind with
    | some op =>
      have hend : s.current.kind ≠ .endOfInput := by
        intro hend
        simp [hend, op?_endOfInput] at hop
      refine .weaken (.advance hs.ready hend fun s₁ h₁ hlt₁ => ?_)
      have hd₁ : s₁.Room rank d := h₁.room_of_lt hlt₁ hbelow hrank
      refine (hoperand (h₁.inside hs) hd₁).weaken.bind fun right s₂ h₂ _ => ?_
      refine .pass (h₁.trans h₂) (Nat.lt_of_lt_of_le hlt₁ h₂.le) fun s₃ h₃ hlt₃ => ?_
      have hd₃ : s₃.Room 1 d := h₃.room_of_lt hlt₃ hbelow (by decide)
      exact ih (h₃.inside hs) hd₃ (Nat.le_of_lt_succ (h₃.pending_lt hlt₃ hm))
    | none => exact .pure hs.ready

theorem leftAssociative_returns
    (hoperand : Matches items n rank (leftAssociative tighter) operand) (hrank : rank ≤ 20)
    (level : Parser.Level) :
    Matches items n (rank + 1) (leftAssociative (level :: tighter))
      (Parser.leftAssociative level operand) := by
  intro s depth hs hd
  obtain ⟨d, rfl, hbelow⟩ := hd.below
  rw [leftAssociative, Parser.leftAssociative]
  refine (hoperand hs hbelow).bind fun left s₁ h₁ hlt₁ => ?_
  apply Returns.remaining
  have hd₁ : s₁.Room 1 d := h₁.room_of_lt hlt₁ hbelow (by decide)
  exact operations_returns hoperand hrank (h₁.inside hs) hd₁ (Nat.le_refl _)

theorem foldl_leftAssociative_returns
    (hoperand : Matches items n rank (leftAssociative tighter) operand)
    (looser : List Parser.Level) (hrank : rank + looser.length ≤ 20) :
    Matches items n (rank + looser.length) (leftAssociative (looser.reverse ++ tighter))
      (looser.foldl (fun operand level => Parser.leftAssociative level operand) operand) := by
  induction looser generalizing rank tighter operand with
  | nil => exact hoperand
  | cons level looser ih =>
    rw [List.length_cons, Nat.add_comm looser.length, ← Nat.add_assoc] at hrank ⊢
    have hlevel := leftAssociative_returns hoperand (by omega) level
    rw [List.reverse_cons, List.append_assoc]
    exact ih hlevel hrank

theorem chain_returns (hoperand : Matches items n rank (leftAssociative levels) operand)
    (hrank : rank ≤ 20) {m : Nat} (hs : s.Inside items n) (hd : s.Room 1 depth)
    (hm : s.pending.length ≤ m) :
    Returns items s.count (chain depth) (Parser.chain operand m) s := by
  induction m generalizing s depth with
  | zero =>
    obtain ⟨d, rfl, -⟩ := hd.below
    rw [chain, Parser.chain]
    refine .count (.look ?_)
    rw [kind_of_bound hm]
    exact .pure hs.ready
  | succ m ih =>
    obtain ⟨d, rfl, hbelow⟩ := hd.below
    rw [chain, Parser.chain]
    apply Returns.count
    apply Returns.kind
    cases hop : Parser.comparisonOf? s.current.kind with
    | some op =>
      have hend : s.current.kind ≠ .endOfInput := by
        intro hend
        simp [hend, Parser.comparisonOf?] at hop
      refine .weaken (.advance hs.ready hend fun s₁ h₁ hlt₁ => ?_)
      have hd₁ : s₁.Room rank d := h₁.room_of_lt hlt₁ hbelow hrank
      refine (hoperand (h₁.inside hs) hd₁).weaken.bind fun e s₂ h₂ _ => ?_
      refine .pass (h₁.trans h₂) (Nat.lt_of_lt_of_le hlt₁ h₂.le) fun s₃ h₃ hlt₃ => ?_
      have hd₃ : s₃.Room 1 d := h₃.room_of_lt hlt₃ hbelow (by decide)
      have hpending := Nat.le_of_lt_succ (h₃.pending_lt hlt₃ hm)
      exact (ih (h₃.inside hs) hd₃ hpending).bind fun links s₄ h₄ _ => .pure h₄.ready
    | none => exact .pure hs.ready

theorem operands_returns {op : Connective}
    (hoperand : Matches items n rank (Descent.operand op) operand) (hrank : rank ≤ 20) {m : Nat}
    (hs : s.Inside items n) (hd : s.Room 1 depth) (hm : s.pending.length ≤ m) :
    Returns items s.count (operands op depth) (Parser.operands op operand m) s := by
  induction m generalizing s depth with
  | zero =>
    obtain ⟨d, rfl, -⟩ := hd.below
    rw [operands, Parser.operands]
    refine .count (.look ?_)
    rw [kind_of_bound hm]
    cases op <;> exact .pure hs.ready
  | succ m ih =>
    obtain ⟨d, rfl, hbelow⟩ := hd.below
    rw [operands, Parser.operands]
    apply Returns.count
    apply Returns.kind
    apply Returns.ite
    · intro hop
      have hend : s.current.kind ≠ .endOfInput := by
        intro hend
        cases op <;> simp [hend, Parser.isConnective] at hop
      refine .weaken (.advance hs.ready hend fun s₁ h₁ hlt₁ => ?_)
      have hd₁ : s₁.Room rank d := h₁.room_of_lt hlt₁ hbelow hrank
      refine (hoperand (h₁.inside hs) hd₁).weaken.bind fun e s₂ h₂ _ => ?_
      refine .pass (h₁.trans h₂) (Nat.lt_of_lt_of_le hlt₁ h₂.le) fun s₃ h₃ hlt₃ => ?_
      have hd₃ : s₃.Room 1 d := h₃.room_of_lt hlt₃ hbelow (by decide)
      have hpending := Nat.le_of_lt_succ (h₃.pending_lt hlt₃ hm)
      exact (ih (h₃.inside hs) hd₃ hpending).bind fun es s₄ h₄ _ => .pure h₄.ready
    · intro _
      exact .pure hs.ready

theorem connected_returns {op : Connective}
    (hoperand : Matches items n rank (Descent.operand op) operand) (hrank : rank ≤ 20) :
    Matches items n (rank + 1) (connected op) (Parser.connected op operand) := by
  intro s depth hs hd
  obtain ⟨d, rfl, hbelow⟩ := hd.below
  rw [connected, Parser.connected]
  refine (hoperand hs hbelow).bind fun first s₁ h₁ hlt₁ => ?_
  apply Returns.remaining
  have hd₁ : s₁.Room 1 d := h₁.room_of_lt hlt₁ hbelow (by decide)
  refine (operands_returns hoperand hrank (h₁.inside hs) hd₁ (Nat.le_refl _)).bind
    fun others s₂ h₂ _ => ?_
  cases others with
  | nil => exact .pure h₂.ready
  | cons e es => exact .pure h₂.ready

end Operators

/-! ### Expressions -/

section Layers

variable {expr : Parser Expr} (hexpr : Follows items n expr)
include hexpr

theorem arithmetic_returns :
    Matches items n 10 (leftAssociative levels) (Parser.arithmetic expr) := by
  have hfactor : Matches items n 4 (leftAssociative [])
      (do Parser.factor expr ((← Parser.remaining) + 1)) := by
    intro s depth hs hd
    obtain ⟨d, rfl, hbelow⟩ := hd.below
    rw [leftAssociative]
    exact .remaining (factor_returns hexpr hs hbelow (Nat.lt_succ_self _))
  exact foldl_leftAssociative_returns hfactor
    [.product, .sum, .shift, .bitAnd, .bitXor, .bitOr] (by decide)

theorem comparison_returns : Matches items n 11 comparison (Parser.comparison expr) := by
  intro s depth hs hd
  obtain ⟨d, rfl, hbelow⟩ := hd.below
  rw [comparison, Parser.comparison]
  have harithmetic := arithmetic_returns hexpr
  refine (harithmetic hs hbelow).bind fun left s₁ h₁ hlt₁ => ?_
  apply Returns.remaining
  have hd₁ : s₁.Room 1 d := h₁.room_of_lt hlt₁ hbelow (by decide)
  refine (chain_returns harithmetic (by decide) (h₁.inside hs) hd₁ (Nat.le_refl _)).bind
    fun links s₂ h₂ _ => ?_
  cases links with
  | nil => exact .pure h₂.ready
  | cons link links => exact .last (.pure h₂.ready)

theorem negation_returns {m : Nat} (hs : s.Inside items n) (hd : s.Room 12 depth)
    (hm : s.pending.length < m) :
    Returns items (s.count + 1) (negation depth) (Parser.negation expr m) s := by
  induction m generalizing s depth with
  | zero => exact absurd hm (Nat.not_lt_zero _)
  | succ m ih =>
    obtain ⟨d, rfl, hbelow⟩ := hd.below
    rw [negation, Parser.negation]
    apply Returns.here
    apply Returns.kind
    apply Returns.ite
    · intro hnot
      have hend : s.current.kind ≠ .endOfInput := by
        intro hend
        simp [hend, Parser.isNot] at hnot
      refine .advance hs.ready hend fun s₁ h₁ hlt₁ => ?_
      have hd₁ : s₁.Room 12 d := h₁.room_of_lt hlt₁ hbelow (by decide)
      have hpending := h₁.pending_lt hlt₁ (Nat.le_of_lt_succ hm)
      exact (ih (h₁.inside hs) hd₁ hpending).weaken.bind fun operand s₂ h₂ _ => .pure h₂.ready
    · intro _
      exact comparison_returns hexpr hs hbelow

theorem layer_returns : Matches items n 16 (connected .or) (Parser.layer expr) := by
  have hnegation : Matches items n 13 (operand .and)
      (do Parser.negation expr ((← Parser.remaining) + 1)) := by
    intro s depth hs hd
    obtain ⟨d, rfl, hbelow⟩ := hd.below
    rw [operand]
    exact .remaining (negation_returns hexpr hs hbelow (Nat.lt_succ_self _))
  have hconjunction : Matches items n 15 (operand .or)
      (Parser.connected .and (do Parser.negation expr ((← Parser.remaining) + 1))) := by
    intro s depth hs hd
    obtain ⟨d, rfl, hbelow⟩ := hd.below
    rw [operand]
    exact connected_returns hnegation (by decide) hs hbelow
  exact connected_returns hconjunction (by decide)

end Layers

/-- Expressions inside others begin ever closer to the end, so the depth of the parser suffices. -/
theorem expression_returns (n : Nat) : Follows items n (Parser.expression n) := by
  induction n with
  | zero =>
    intro s depth hs
    exact absurd hs.pending (Nat.not_lt_zero _)
  | succ n ih =>
    intro s depth hs hd
    obtain ⟨d, rfl, hbelow⟩ := hd.below
    rw [expression, Parser.expression]
    exact .nested (layer_returns ih hs.enter hbelow)

/-! ### Statements -/

theorem checkTargets_returns {α : Type} {targets : List Expr} {k : Nat} {f : Unit → Descent α}
    {g : Unit → Parser α} (hs : s.Ready items) (hf : Returns items k (f ()) (g ()) s) :
    Returns items k (checkTargets targets >>= f) (Parser.checkTargets targets >>= g) s := by
  unfold checkTargets Parser.checkTargets
  cases Parser.firstUnassignable? targets with
  | none => exact hf.congr rfl rfl
  | some e => exact .error rfl rfl hs.within

theorem skipTerminators_returns {m : Nat} (hs : s.Ready items) (hd : s.Room 1 depth)
    (hm : s.pending.length ≤ m) :
    Returns items s.count (skipTerminators depth) (Parser.skipTerminators m) s := by
  induction m generalizing s depth with
  | zero =>
    obtain ⟨d, rfl, -⟩ := hd.below
    rw [skipTerminators, Parser.skipTerminators]
    refine .count (.look ?_)
    rw [kind_of_bound hm]
    exact .pure hs
  | succ m ih =>
    obtain ⟨d, rfl, hbelow⟩ := hd.below
    rw [skipTerminators, Parser.skipTerminators]
    apply Returns.count
    apply Returns.kind
    apply Returns.ite
    · intro hterminator
      have hend : s.current.kind ≠ .endOfInput := by
        intro hend
        simp [hend] at hterminator
      refine .weaken (.advance hs hend fun s₁ h₁ hlt₁ => ?_)
      refine .pass h₁ hlt₁ fun s₂ h₂ hlt₂ => ?_
      have hd₂ : s₂.Room 1 d := h₂.room_of_lt hlt₂ hbelow (by decide)
      exact ih h₂.ready hd₂ (Nat.le_of_lt_succ (h₂.pending_lt hlt₂ hm))
    · intro _
      exact .pure hs

section Statements

variable {expr : Parser Expr} (hexpr : Follows items n expr)
include hexpr

theorem values_returns {m : Nat} (hs : s.Deeper items n) (hd : s.Room 1 depth)
    (hm : s.pending.length ≤ m) :
    Returns items s.count (values depth) (Parser.values expr m) s := by
  induction m generalizing s depth with
  | zero =>
    obtain ⟨d, rfl, -⟩ := hd.below
    rw [values, Parser.values]
    exact .count (.accept_of_ne (by simp [kind_of_bound hm]) (.pure hs.ready))
  | succ m ih =>
    obtain ⟨d, rfl, hbelow⟩ := hd.below
    rw [values, Parser.values]
    apply Returns.count
    refine .accept hs.ready (by simp) (fun s₁ h₁ hlt₁ => ?_) (.pure hs.ready)
    have hd₁ : s₁.Room 18 d := h₁.room_of_lt hlt₁ hbelow (by decide)
    refine (exprList_returns hexpr (h₁.deeper hs) hd₁).weaken.bind fun e s₂ h₂ _ => ?_
    refine .pass (h₁.trans h₂) (Nat.lt_of_lt_of_le hlt₁ h₂.le) fun s₃ h₃ hlt₃ => ?_
    have hd₃ : s₃.Room 1 d := h₃.room_of_lt hlt₃ hbelow (by decide)
    have hpending := Nat.le_of_lt_succ (h₃.pending_lt hlt₃ hm)
    exact (ih (h₃.deeper hs) hd₃ hpending).bind fun es s₄ h₄ _ => .pure h₄.ready

theorem statement_returns (hs : s.Deeper items n) (hd : s.Room 18 depth) :
    Returns items (s.count + 1) (statement depth) (Parser.statement expr) s := by
  unfold statement Parser.statement
  apply Returns.here
  refine (exprList_returns hexpr hs hd).bind fun first s₁ h₁ hlt₁ => ?_
  apply Returns.kind
  cases hk : s₁.current.kind with
  | augmented op =>
    refine checkTargets_returns h₁.ready ?_
    refine .weaken (.advance h₁.ready (by simp [hk]) fun s₂ h₂ _ => ?_)
    have hread := h₁.trans h₂
    have hlt₂ : s.count < s₂.count := Nat.lt_of_lt_of_le hlt₁ h₂.le
    have hd₂ : s₂.Room 17 depth := hread.room_of_lt hlt₂ hd (by decide)
    refine (hexpr (hread.deeper hs) hd₂).weaken.bind fun value s₃ h₃ _ => ?_
    exact .last (.pure h₃.ready)
  | _ =>
    apply Returns.remaining
    have hd₁ : s₁.Room 1 depth := h₁.room_of_lt hlt₁ hd (by decide)
    refine (values_returns hexpr (h₁.deeper hs) hd₁ (Nat.le_refl _)).bind fun vs s₂ h₂ _ => ?_
    cases vs with
    | nil => exact .last (.pure h₂.ready)
    | cons v vs => exact checkTargets_returns h₂.ready (.last (.pure h₂.ready))

theorem statements_returns {m : Nat} (hs : s.Deeper items n) (hd : s.Room 19 depth)
    (hm : s.pending.length < m) :
    Returns items s.count (statements depth) (Parser.statements expr m) s := by
  induction m generalizing s depth with
  | zero => exact absurd hm (Nat.not_lt_zero _)
  | succ m ih =>
    obtain ⟨d, rfl, hbelow⟩ := hd.below
    rw [statements, Parser.statements]
    apply Returns.count
    apply Returns.remaining
    have hd₀ : s.Room 1 d := hs.ready.leads.room hbelow (by decide)
    refine (skipTerminators_returns hs.ready hd₀ (Nat.le_refl _)).bind fun _ s₁ h₁ _ => ?_
    apply Returns.kind
    refine .ite (fun _ => .pure h₁.ready) fun _ => ?_
    have hd₁ : s₁.Room 18 d := h₁.room hbelow (Nat.le_refl _)
    refine .weaken ((statement_returns hexpr (h₁.deeper hs) hd₁).bind fun stmt s₂ h₂ hlt₂ => ?_)
    apply Returns.kind
    apply Returns.ite
    · intro _
      refine .pass (h₁.trans h₂) (Nat.lt_of_le_of_lt h₁.le hlt₂) fun s₃ h₃ hlt₃ => ?_
      have hd₃ : s₃.Room 19 d := h₃.room_of_lt hlt₃ hbelow (by decide)
      have hpending := h₃.pending_lt hlt₃ (Nat.le_of_lt_succ hm)
      exact (ih (h₃.deeper hs) hd₃ hpending).bind fun stmts s₄ h₄ _ => .pure h₄.ready
    · intro _
      exact .fail h₂.ready

end Statements

/-- Where no expression is being read a program is read to its end. -/
theorem program_returns (hs : s.Ready items) (hbegun : s.begun = []) (hd : s.Room 19 depth) :
    Returns items s.count (program depth) Parser.program s := by
  have hdeeper : s.Deeper items (s.pending.length + 1) :=
    ⟨hs, by simp [hbegun], Nat.lt_succ_self _⟩
  unfold program Parser.program
  apply Returns.here
  apply Returns.remaining
  refine (statements_returns (expression_returns _) hdeeper hd (Nat.lt_succ_self _)).bind
    fun body s₁ h₁ _ => ?_
  exact .last (.pure h₁.ready)

end LoopNest.Descent

namespace LoopNest.Program

/-- At a depth of twenty for each item or more, a descent through a text comes to an end, and to what
the parser finds. It calls the scanner at most once for each item up to the first fault and never at
the end of the input, and each pass through a loop and each expression inside another takes a
call. -/
theorem descent_returns (source : String) (extra : Nat) :
    ∃ journal, Descent.run (20 * (Scan.items source).length + extra) source =
        some (parse source, journal) ∧
      journal.Within (Scan.upToStop (Scan.items source)) := by
  have hitems : Scan.items source = _ := (Scanner.ofText source.toList).ahead_eq_cons
  rw [Descent.run, parse, hitems]
  cases hfirst : (Scanner.ofText source.toList).next.1 with
  | fault e => exact ⟨.start, rfl, Descent.Journal.within_start (Nat.succ_pos 0)⟩
  | token t =>
    let s := Descent.State.start (Scanner.ofText source.toList).next.2 t
    have hroom : s.Room 19 (20 * (s.pending.length + 1) + extra) := by
      unfold Descent.State.Room
      omega
    have hready := Descent.State.ready_start (Scanner.ofText source.toList).next.2 t
    exact (Descent.program_returns hready rfl hroom).exists_journal

end LoopNest.Program
