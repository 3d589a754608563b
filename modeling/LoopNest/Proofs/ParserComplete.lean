import LoopNest.Proofs.CursorReading

/-!
# Everything in the grammar is read

Words that have a derivation are read as its tree, from every cursor that has them before it,
provided that the word behind them does not go on with the expression. How tightly a word holds on to
an expression before it is its grip: a symbol is read up to the first word with less grip than its
own operators have. Symbols that recurse to the left are read by loops; for them the statement is
that reading gets to the loop with the tree gathered so far and steps enough for what is left.
-/

namespace LoopNest.Parser

open Grammar

/-- How tightly a word holds on to an expression that stands before it. -/
def grip : Token.Kind → Nat
  | .or | .pipePipe => 1
  | .and | .ampAmp => 2
  | .compare _ => 3
  | .binary .bitOr => 4
  | .binary .bitXor => 5
  | .binary .bitAnd => 6
  | .binary .shiftLeft | .binary .shiftRight => 7
  | .binary .add | .binary .sub => 8
  | .binary .pow => 10
  | .binary _ => 9
  | .left .round | .left .square => 11
  | _ => 0

/-- The grip of the operators of a level. -/
def rank : Level → Nat
  | .bitOr => 4
  | .bitXor => 5
  | .bitAnd => 6
  | .shift => 7
  | .sum => 8
  | .product => 9

/-- The grip of a connective. -/
def connectiveRank : Connective → Nat
  | .or => 1
  | .and => 2

theorem op?_of_mem {level : Level} {op : BinaryOp} (h : op ∈ operators level) :
    level.op? (.binary op) = some op := by
  cases level <;> cases op <;> simp [operators] at h <;> rfl

theorem grip_of_mem {level : Level} {op : BinaryOp} (h : op ∈ operators level) :
    grip (.binary op) = rank level := by
  cases level <;> cases op <;> simp [operators] at h <;> rfl

theorem op?_eq_none {level : Level} {k : Token.Kind} (h : grip k < rank level) :
    level.op? k = none := by
  unfold Level.op?
  split <;> simp_all [grip, rank]

theorem signOf?_of_mem {k : Token.Kind} {op : UnaryOp} (h : (k, op) ∈ signs) :
    signOf? k = some op := by
  simp only [signs, List.mem_cons, Prod.mk.injEq, List.not_mem_nil, or_false] at h
  rcases h with ⟨rfl, rfl⟩ | ⟨rfl, rfl⟩ | ⟨rfl, rfl⟩ <;> rfl

theorem signOf?_eq_none {k : Token.Kind} (h : startsAtom k) : signOf? k = none := by
  unfold signOf?
  split <;> simp_all [startsAtom]

theorem comparisonOf?_eq_none {k : Token.Kind} (h : grip k < 3) : comparisonOf? k = none := by
  unfold comparisonOf?
  split <;> simp_all [grip]

theorem isConnective_of_mem {op : Connective} {k : Token.Kind} (h : k ∈ connectives op) :
    isConnective op k = true := by
  cases op <;> simpa [connectives, isConnective] using h

theorem isConnective_eq_false {op : Connective} {k : Token.Kind} (h : grip k < connectiveRank op) :
    isConnective op k = false := by
  cases op <;> cases k <;> simp_all [isConnective, grip, connectiveRank]

theorem grip_of_connective {op : Connective} {k : Token.Kind} (h : k ∈ connectives op) :
    grip k = connectiveRank op := by
  cases op <;> simp only [connectives, List.mem_cons, List.not_mem_nil, or_false] at h <;>
    rcases h with rfl | rfl <;> rfl

theorem grip_of_endsList {k : Token.Kind} (h : endsList k = true) : grip k = 0 ∧ k ≠ .comma := by
  cases k <;> simp_all [endsList, grip, Token.Kind.isTerminator]

theorem endsList_of_starts {k : Token.Kind} (h : Symbol.expr.starts k) : endsList k = false := by
  cases k <;> simp_all [endsList, Symbol.starts, startsAtom, isSign, signs, Token.Kind.isTerminator]

/-- Reading from one cursor to another gives a result, spans aside. -/
def Yields {α β : Type} (strip : α → β) (p : Parser α) (c : Cursor) (b : β) (c' : Cursor) : Prop :=
  ∃ a, p c = .ok (a, c') ∧ strip a = b

/-- A factor with as many steps as there are items. -/
def signed (expr : Parser Expr) : Parser Expr := do
  factor expr ((← remaining) + 1)

/-- The levels that bind tighter than a level, the tightest first. -/
def tighter : Level → List Level
  | .product => []
  | .sum => [.product]
  | .shift => [.product, .sum]
  | .bitAnd => [.product, .sum, .shift]
  | .bitXor => [.product, .sum, .shift, .bitAnd]
  | .bitOr => [.product, .sum, .shift, .bitAnd, .bitXor]

/-- How the operands of a level are read. -/
def operandOf (expr : Parser Expr) (level : Level) : Parser Expr :=
  (tighter level).foldl (fun operand level => leftAssociative level operand) (signed expr)

theorem arithmetic_eq (expr : Parser Expr) :
    arithmetic expr = leftAssociative .bitOr (operandOf expr .bitOr) := rfl

/-- How the parts of a connective are read. -/
def partOf (expr : Parser Expr) : Connective → Parser Expr
  | .and => do negation expr ((← remaining) + 1)
  | .or => connected .and (do negation expr ((← remaining) + 1))

theorem expression_succ (n : Nat) :
    expression (n + 1) = connected .or (partOf (expression n) .or) := rfl

/-- What is left of a list behind a comma. -/
def afterComma (expr : Parser Expr) (m : Nat) : Parser (List Expr) := do
  if endsList (← kind) then return []
  else
    let e ← expr
    return e :: (← listTail expr m)

/-- Words with a derivation are read as its tree. A level of brackets below `n` is enough for `n`
items, and so are as many steps. -/
def Complete (symbol : Symbol) (ws : List Word) (phrase : Phrase) : Prop :=
  match symbol, phrase with
  | .atom, .expr e => ∀ n c c', c.rest.length ≤ n → c.Reads ws c' →
      Yields Expr.bare (atom (expression n)) c e c'
  | .primary, .expr e => ∀ n c c', c.rest.length ≤ n → c.Reads ws c' →
      ∃ m e', e'.bare = e ∧ c'.rest.length < m ∧
        primary (expression n) c = trailers (expression n) m e' c'
  | .power, .expr e | .factor, .expr e => ∀ n m c c', c.rest.length ≤ n → c.rest.length < m →
      c.Reads ws c' → grip c'.current.kind < 10 →
      Yields Expr.bare (factor (expression n) m) c e c'
  | .level level, .expr e => ∀ n c c', c.rest.length ≤ n → c.Reads ws c' →
      grip c'.current.kind ≤ rank level → ∃ m e', e'.bare = e ∧ c'.rest.length ≤ m ∧
        leftAssociative level (operandOf (expression n) level) c =
          operations level (operandOf (expression n) level) m e' c'
  | .chain, .links ls => ∀ n m c c', c.rest.length ≤ n → c.rest.length ≤ m → c.Reads ws c' →
      grip c'.current.kind < 3 → Yields bareLinks (chain (arithmetic (expression n)) m) c ls c'
  | .comparison, .expr e => ∀ n c c', c.rest.length ≤ n → c.Reads ws c' →
      grip c'.current.kind < 3 → Yields Expr.bare (comparison (expression n)) c e c'
  | .inversion, .expr e => ∀ n m c c', c.rest.length ≤ n → c.rest.length < m → c.Reads ws c' →
      grip c'.current.kind < 3 → Yields Expr.bare (negation (expression n) m) c e c'
  | .run op, .exprs es => ∀ n m c c', c.rest.length ≤ n → c.rest.length ≤ m → c.Reads ws c' →
      grip c'.current.kind < connectiveRank op →
      Yields bareAll (operands op (partOf (expression n) op) m) c es c'
  | .connected op, .expr e => ∀ n c c', c.rest.length ≤ n → c.Reads ws c' →
      grip c'.current.kind < connectiveRank op →
      Yields Expr.bare (connected op (partOf (expression n) op)) c e c'
  | .items, .exprs es =>
      (∀ n m b c c', c.rest.length < n → c.rest.length < m → c.Reads ws c' →
        c'.current.kind = .right b →
        Yields bareAll (sequence (expression n) (.right b) m) c es c') ∧
      ∀ n m c c', c.rest.length < n → c.rest.length ≤ m → c.Reads ws c' →
        endsList c'.current.kind → Yields bareAll (afterComma (expression n) m) c es c'
  | .entries, .entries es => ∀ n m c c', c.rest.length < n → c.rest.length < m → c.Reads ws c' →
      c'.current.kind = .right .curly → Yields bareEntries (entries (expression n) m) c es c'
  | .exprList, .expr e => ∀ n c c', c.rest.length < n → c.Reads ws c' →
      endsList c'.current.kind → Yields Expr.bare (exprList (expression n)) c e c'
  | _, _ => True

theorem Yields.of_expr {ws : List Word} {e : Expr} (h : Complete .expr ws (.expr e)) {n : Nat}
    {c c' : Cursor} (hn : c.rest.length < n) (hr : c.Reads ws c')
    (hg : grip c'.current.kind = 0) : Yields Expr.bare (expression n) c e c' := by
  cases n with
  | zero => omega
  | succ n =>
    rw [expression_succ]
    exact h n c c' (by omega) hr (by simp [hg, connectiveRank])

section Lists

variable {ws vs us : List Word} {e : Expr} {es : List Expr}

theorem complete_noItem : Complete .items [] (.exprs []) := by
  constructor
  · rintro n m b c c' hn hm rfl hk
    cases m with
    | zero => omega
    | succ m =>
      refine ⟨[], ?_, by simp [bareAll]⟩
      rw [sequence, kind_bind, if_pos hk]
      rfl
  · rintro n m c c' hn hm rfl hk
    refine ⟨[], ?_, by simp [bareAll]⟩
    rw [afterComma, kind_bind, if_pos hk]
    rfl

theorem complete_lastItem (hd : Derives .expr ws (.expr e)) (h : Complete .expr ws (.expr e)) :
    Complete .items ws (.exprs [e]) := by
  obtain ⟨k, s, vs, rfl, hk⟩ := hd.begins rfl
  constructor
  · intro n m b c c' hn hm hr hb
    cases m with
    | zero => omega
    | succ m =>
      have hne : c.current.kind ≠ .right b := by
        rw [hr.uncons.1]
        rintro rfl
        simp [Symbol.starts, startsAtom, isSign, signs] at hk
      obtain ⟨e', he, hbare⟩ := Yields.of_expr h hn hr (by rw [hb]; rfl)
      refine ⟨[e'], ?_, by simp [bareAll, hbare]⟩
      rw [sequence, kind_bind, if_neg hne, bind_of_ok he, accept_bind, if_neg (by simp [hb])]
      rfl
  · intro n m c c' hn hm hr hend
    have hne : endsList c.current.kind = false := by
      rw [hr.uncons.1]
      exact endsList_of_starts hk
    obtain ⟨hg, hcomma⟩ := grip_of_endsList hend
    obtain ⟨e', he, hbare⟩ := Yields.of_expr h hn hr hg
    refine ⟨[e'], ?_, by simp [bareAll, hbare]⟩
    rw [afterComma, kind_bind, if_neg (by simp [hne]), bind_of_ok he]
    cases m with
    | zero => rfl
    | succ m =>
      have htail : listTail (expression n) (m + 1) c' = .ok ([], c') := by
        rw [listTail, accept_bind, if_neg hcomma]
        rfl
      rw [bind_of_ok htail]
      rfl

theorem complete_item (s : String) (hd : Derives .expr ws (.expr e))
    (h : Complete .expr ws (.expr e)) (hrest : Complete .items vs (.exprs es)) :
    Complete .items (ws ++ (.comma, s) :: vs) (.exprs (e :: es)) := by
  obtain ⟨k, l, us, rfl, hk⟩ := hd.begins rfl
  constructor
  · intro n m b c c' hn hm hr hb
    obtain ⟨c₁, hr₁, hr₂⟩ := Cursor.reads_append.mp hr
    obtain ⟨hcomma, -, c₂, hnext, hr₂, hlen⟩ := hr₂.uncons
    have hlen₁ := hr₁.length
    cases m with
    | zero => omega
    | succ m =>
      have hne : c.current.kind ≠ .right b := by
        rw [hr₁.uncons.1]
        rintro rfl
        simp [Symbol.starts, startsAtom, isSign, signs] at hk
      obtain ⟨e', he, hbare⟩ := Yields.of_expr h hn hr₁ (by rw [hcomma]; rfl)
      obtain ⟨es', hes, hbares⟩ := hrest.1 n m b c₂ c' (by omega) (by omega) hr₂ hb
      refine ⟨e' :: es', ?_, by simp [bareAll, hbare, hbares]⟩
      rw [sequence, kind_bind, if_neg hne, bind_of_ok he, accept_bind, if_pos hcomma,
        advance_bind_of_next? hnext, if_pos rfl, bind_of_ok hes]
      rfl
  · intro n m c c' hn hm hr hend
    obtain ⟨c₁, hr₁, hr₂⟩ := Cursor.reads_append.mp hr
    obtain ⟨hcomma, -, c₂, hnext, hr₂, hlen⟩ := hr₂.uncons
    have hlen₁ := hr₁.length
    have hne : endsList c.current.kind = false := by
      rw [hr₁.uncons.1]
      exact endsList_of_starts hk
    obtain ⟨e', he, hbare⟩ := Yields.of_expr h hn hr₁ (by rw [hcomma]; rfl)
    cases m with
    | zero => omega
    | succ m =>
      obtain ⟨es', hes, hbares⟩ := hrest.2 n m c₂ c' (by omega) (by omega) hr₂ hend
      have htail : listTail (expression n) (m + 1) c₁ = .ok (es', c') := by
        rw [listTail, accept_bind, if_pos hcomma, advance_bind_of_next? hnext, if_pos rfl]
        exact hes
      refine ⟨e' :: es', ?_, by simp [bareAll, hbare, hbares]⟩
      rw [afterComma, kind_bind, if_neg (by simp [hne]), bind_of_ok he, bind_of_ok htail]
      rfl

theorem complete_single (h : Complete .expr ws (.expr e)) : Complete .exprList ws (.expr e) := by
  intro n c c' hn hr hend
  obtain ⟨hg, hcomma⟩ := grip_of_endsList hend
  obtain ⟨e', he, hbare⟩ := Yields.of_expr h hn hr hg
  refine ⟨e', ?_, hbare⟩
  rw [exprList, here_bind, bind_of_ok he, kind_bind, if_neg hcomma]
  rfl

theorem complete_tuple (s : String) (h : Complete .expr ws (.expr e))
    (hrest : Complete .items vs (.exprs es)) :
    Complete .exprList (ws ++ (.comma, s) :: vs) (.expr (.tuple .nowhere (e :: es))) := by
  intro n c c' hn hr hend
  obtain ⟨c₁, hr₁, hr₂⟩ := Cursor.reads_append.mp hr
  obtain ⟨hcomma, -, c₂, hnext, hr₂, hlen⟩ := hr₂.uncons
  have hlen₁ := hr₁.length
  obtain ⟨e', he, hbare⟩ := Yields.of_expr h hn hr₁ (by rw [hcomma]; rfl)
  obtain ⟨es', hes, hbares⟩ := hrest.2 n c₂.rest.length c₂ c' (by omega) (by omega) hr₂ hend
  have htail : listTail (expression n) c₁.rest.length c₁ = .ok (es', c') := by
    rw [hlen, listTail, accept_bind, if_pos hcomma, advance_bind_of_next? hnext, if_pos rfl]
    exact hes
  refine ⟨.tuple (c.current.span.merge c'.last) (e' :: es'), ?_,
    by rw [Expr.bare, bareAll, hbare, hbares]⟩
  rw [exprList, here_bind, bind_of_ok he, kind_bind, if_pos hcomma, remaining_bind,
    bind_of_ok htail, last_bind]
  rfl

variable {key value : Expr} {entries : List (Expr × Expr)}

theorem complete_noEntry : Complete .entries [] (.entries []) := by
  rintro n m c c' hn hm rfl hk
  cases m with
  | zero => omega
  | succ m =>
    refine ⟨[], ?_, by simp [bareEntries]⟩
    rw [Parser.entries, kind_bind, if_pos hk]
    rfl

/-- A key and its value are read alike whether more entries follow or not. -/
theorem entries_of_complete (s : String) (hd : Derives .expr ws (.expr key))
    (hkey : Complete .expr ws (.expr key)) (hvalue : Complete .expr vs (.expr value)) {n m : Nat}
    {c c' : Cursor} (hn : c.rest.length < n) (hr : c.Reads (ws ++ (.colon, s) :: vs) c')
    (hg : grip c'.current.kind = 0) :
    ∃ k v, k.bare = key ∧ v.bare = value ∧ Parser.entries (expression n) (m + 1) c = (do
      if ← accept .comma then
        return (k, v) :: (← Parser.entries (expression n) m)
      else
        return [(k, v)] : Parser (List (Expr × Expr))) c' := by
  obtain ⟨k, l, us, rfl, hk⟩ := hd.begins rfl
  obtain ⟨c₁, hr₁, hr₂⟩ := Cursor.reads_append.mp hr
  obtain ⟨hcolon, -, c₂, hnext, hr₂, hlen⟩ := hr₂.uncons
  have hlen₁ := hr₁.length
  have hne : c.current.kind ≠ .right .curly := by
    rw [hr₁.uncons.1]
    rintro rfl
    simp [Symbol.starts, startsAtom, isSign, signs] at hk
  obtain ⟨key', hkey', hkb⟩ := Yields.of_expr hkey hn hr₁ (by rw [hcolon]; rfl)
  obtain ⟨value', hvalue', hvb⟩ := Yields.of_expr (n := n) hvalue (by omega) hr₂ hg
  refine ⟨key', value', hkb, hvb, ?_⟩
  rw [Parser.entries, kind_bind, if_neg hne, bind_of_ok hkey', expect_bind,
    if_pos (by rw [hcolon]; rfl), advance_bind_of_next? hnext, bind_of_ok hvalue']

theorem complete_lastEntry (s : String) (hd : Derives .expr ws (.expr key))
    (hkey : Complete .expr ws (.expr key)) (hvalue : Complete .expr vs (.expr value)) :
    Complete .entries (ws ++ (.colon, s) :: vs) (.entries [(key, value)]) := by
  intro n m c c' hn hm hr hk
  cases m with
  | zero => omega
  | succ m =>
    obtain ⟨k, v, hkb, hvb, h⟩ :=
      entries_of_complete (m := m) s hd hkey hvalue hn hr (by rw [hk]; rfl)
    refine ⟨[(k, v)], ?_, by simp [bareEntries, hkb, hvb]⟩
    rw [h, accept_bind, if_neg (by simp [hk])]
    rfl

theorem complete_entry (s t : String) (hd : Derives .expr ws (.expr key))
    (hkey : Complete .expr ws (.expr key)) (hvalue : Complete .expr vs (.expr value))
    (hrest : Complete .entries us (.entries entries)) :
    Complete .entries (ws ++ (.colon, s) :: (vs ++ (.comma, t) :: us))
      (.entries ((key, value) :: entries)) := by
  intro n m c c' hn hm hr hk
  rw [← List.cons_append, ← List.append_assoc] at hr
  obtain ⟨c₁, hr₁, hr₂⟩ := Cursor.reads_append.mp hr
  obtain ⟨hcomma, -, c₂, hnext, hr₂, hlen⟩ := hr₂.uncons
  have hlen₁ := hr₁.length
  cases m with
  | zero => omega
  | succ m =>
    obtain ⟨k, v, hkb, hvb, h⟩ :=
      entries_of_complete (m := m) s hd hkey hvalue hn hr₁ (by rw [hcomma]; rfl)
    obtain ⟨es', hes, hbares⟩ := hrest n m c₂ c' (by omega) (by omega) hr₂ hk
    refine ⟨(k, v) :: es', ?_, by simp [bareEntries, hkb, hvb, hbares]⟩
    rw [h, accept_bind, if_pos hcomma, advance_bind_of_next? hnext, if_pos rfl, bind_of_ok hes]
    rfl

end Lists

section Atoms

variable {ws vs : List Word} {e : Expr} {es : List Expr}

theorem complete_name (text : String) :
    Complete .atom [(.identifier, text)] (.expr (.name .nowhere text)) := by
  intro n c c' hn hr
  obtain ⟨hk, hs, c₁, hnext, rfl, -⟩ := hr.uncons
  refine ⟨.name c.current.span text, ?_, by rw [Expr.bare]⟩
  rw [atom, get_bind]
  simp only [hk, hs]
  rw [advance_bind_of_next? hnext]
  rfl

theorem complete_number {k : Token.Kind} (text : String) (hk : k = .integer ∨ k = .float) :
    Complete .atom [(k, text)] (.expr (.number .nowhere text)) := by
  intro n c c' hn hr
  obtain ⟨hk', hs, c₁, hnext, rfl, -⟩ := hr.uncons
  refine ⟨.number c.current.span text, ?_, by rw [Expr.bare]⟩
  rw [atom, get_bind]
  rcases hk with rfl | rfl <;> simp only [hk', hs] <;> rw [advance_bind_of_next? hnext] <;> rfl

theorem complete_unit (s t : String) : Complete .atom
    [(.left .round, s), (.right .round, t)] (.expr (.tuple .nowhere [])) := by
  intro n c c' hn hr
  obtain ⟨hk, -, c₁, hnext, hr, -⟩ := hr.uncons
  obtain ⟨hk₁, -, c₂, hnext₁, rfl, -⟩ := hr.uncons
  refine ⟨.tuple (c.current.span.merge c₂.last) [], ?_, by rw [Expr.bare, bareAll]⟩
  rw [atom, get_bind]
  simp only [hk]
  rw [advance_bind_of_next? hnext, accept_bind, if_pos hk₁, advance_bind_of_next? hnext₁,
    if_pos rfl, last_bind]
  rfl

theorem complete_group (s t : String) (hd : Derives .exprList ws (.expr e))
    (h : Complete .exprList ws (.expr e)) :
    Complete .atom ((.left .round, s) :: (ws ++ [(.right .round, t)])) (.expr e) := by
  intro n c c' hn hr
  obtain ⟨hk, -, c₁, hnext, hr, hlen⟩ := hr.uncons
  obtain ⟨c₂, hr₁, hr₂⟩ := Cursor.reads_append.mp hr
  obtain ⟨hk₂, -, c₃, hnext₂, rfl, -⟩ := hr₂.uncons
  obtain ⟨k, l, us, rfl, hstart⟩ := hd.begins rfl
  have hne : c₁.current.kind ≠ .right .round := by
    rw [hr₁.uncons.1]
    rintro rfl
    simp [Symbol.starts, startsAtom, isSign, signs] at hstart
  obtain ⟨e', he, hbare⟩ := h n c₁ c₂ (by omega) hr₁ (by rw [hk₂]; rfl)
  refine ⟨e', ?_, hbare⟩
  rw [atom, get_bind]
  simp only [hk]
  rw [advance_bind_of_next? hnext, accept_bind, if_neg hne, if_neg (by simp), bind_of_ok he,
    expect_bind, if_pos (by rw [hk₂]; rfl), advance_bind_of_next? hnext₂]
  rfl

theorem complete_list (s t : String) (h : Complete .items ws (.exprs es)) :
    Complete .atom ((.left .square, s) :: (ws ++ [(.right .square, t)]))
      (.expr (.list .nowhere es)) := by
  intro n c c' hn hr
  obtain ⟨hk, -, c₁, hnext, hr, hlen⟩ := hr.uncons
  obtain ⟨c₂, hr₁, hr₂⟩ := Cursor.reads_append.mp hr
  obtain ⟨hk₂, -, c₃, hnext₂, rfl, -⟩ := hr₂.uncons
  obtain ⟨es', hes, hbare⟩ :=
    h.1 n (c₁.rest.length + 1) .square c₁ c₂ (by omega) (by omega) hr₁ hk₂
  refine ⟨.list (c.current.span.merge c₃.last) es', ?_, by rw [Expr.bare, hbare]⟩
  rw [atom, get_bind]
  simp only [hk]
  rw [advance_bind_of_next? hnext, remaining_bind, bind_of_ok hes, expect_bind,
    if_pos (by rw [hk₂]; rfl), advance_bind_of_next? hnext₂, last_bind]
  rfl

theorem complete_dict {entries : List (Expr × Expr)} (s t : String)
    (h : Complete .entries ws (.entries entries)) :
    Complete .atom ((.left .curly, s) :: (ws ++ [(.right .curly, t)]))
      (.expr (.dict .nowhere entries)) := by
  intro n c c' hn hr
  obtain ⟨hk, -, c₁, hnext, hr, hlen⟩ := hr.uncons
  obtain ⟨c₂, hr₁, hr₂⟩ := Cursor.reads_append.mp hr
  obtain ⟨hk₂, -, c₃, hnext₂, rfl, -⟩ := hr₂.uncons
  obtain ⟨es', hes, hbare⟩ := h n (c₁.rest.length + 1) c₁ c₂ (by omega) (by omega) hr₁ hk₂
  refine ⟨.dict (c.current.span.merge c₃.last) es', ?_, by rw [Expr.bare, hbare]⟩
  rw [atom, get_bind]
  simp only [hk]
  rw [advance_bind_of_next? hnext, remaining_bind, bind_of_ok hes, expect_bind,
    if_pos (by rw [hk₂]; rfl), advance_bind_of_next? hnext₂, last_bind]
  rfl

end Atoms

section Primaries

variable {ws vs : List Word} {e : Expr}

theorem complete_atom (h : Complete .atom ws (.expr e)) : Complete .primary ws (.expr e) := by
  intro n c c' hn hr
  obtain ⟨e', he, hbare⟩ := h n c c' hn hr
  refine ⟨c'.rest.length + 1, e', hbare, Nat.lt_succ_self _, ?_⟩
  rw [primary, bind_of_ok he, remaining_bind]

/-- Only a name is a name without its spans. -/
theorem eq_name_of_bare {e : Expr} {text : String} (h : e.bare = .name .nowhere text) :
    ∃ span, e = .name span text := by
  cases e <;> simp_all [Expr.bare]

theorem complete_call {callee : String} {args : List Expr} (s t : String)
    (h : Complete .primary ws (.expr (.name .nowhere callee)))
    (hargs : Complete .items vs (.exprs args)) :
    Complete .primary (ws ++ (.left .round, s) :: (vs ++ [(.right .round, t)]))
      (.expr (.call .nowhere callee args)) := by
  intro n c c' hn hr
  obtain ⟨c₁, hr₁, hr₂⟩ := Cursor.reads_append.mp hr
  obtain ⟨hk, -, c₂, hnext, hr₂, hlen⟩ := hr₂.uncons
  obtain ⟨c₃, hr₃, hr₄⟩ := Cursor.reads_append.mp hr₂
  obtain ⟨hk₃, -, c₄, hnext₃, rfl, hlen₃⟩ := hr₄.uncons
  have hlen₁ := hr₁.length
  have hlen₂ := hr₃.length
  obtain ⟨m, e', hbare, hm, hrun⟩ := h n c c₁ hn hr₁
  obtain ⟨span, rfl⟩ := eq_name_of_bare hbare
  obtain ⟨args', hargs', hbares⟩ :=
    hargs.1 n (c₂.rest.length + 1) .round c₂ c₃ (by omega) (by omega) hr₃ hk₃
  cases m with
  | zero => omega
  | succ m =>
    refine ⟨m, .call (span.merge c₄.last) callee args', by rw [Expr.bare, hbares], by omega, ?_⟩
    rw [hrun, trailers, kind_bind]
    simp only [hk]
    rw [advance_bind_of_next? hnext, remaining_bind, bind_of_ok hargs', expect_bind,
      if_pos (by rw [hk₃]; rfl), advance_bind_of_next? hnext₃, last_bind]

theorem trailers_square {expr : Parser Expr} {m : Nat} {c : Cursor}
    (hk : c.current.kind = .left .square) :
    trailers expr (m + 1) e c = (do
      advance
      let index ← exprList expr
      expect .subscript
      trailers expr m (.subscript (e.span.merge (← last)) e index) : Parser Expr) c := by
  cases e <;> (rw [trailers, kind_bind]; simp only [hk])
  all_goals simp

theorem trailers_stop {expr : Parser Expr} {m : Nat} {c : Cursor}
    (hg : grip c.current.kind < 11) : trailers expr m e c = .ok (e, c) := by
  cases m with
  | zero => rfl
  | succ m =>
    unfold trailers
    rw [kind_bind]
    cases hk : c.current.kind with
    | left b =>
      rw [hk] at hg
      cases b with
      | curly => rfl
      | _ => simp [grip] at hg
    | _ => rfl

theorem complete_subscript {base index : Expr} (s t : String)
    (h : Complete .primary ws (.expr base)) (hindex : Complete .exprList vs (.expr index)) :
    Complete .primary (ws ++ (.left .square, s) :: (vs ++ [(.right .square, t)]))
      (.expr (.subscript .nowhere base index)) := by
  intro n c c' hn hr
  obtain ⟨c₁, hr₁, hr₂⟩ := Cursor.reads_append.mp hr
  obtain ⟨hk, -, c₂, hnext, hr₂, hlen⟩ := hr₂.uncons
  obtain ⟨c₃, hr₃, hr₄⟩ := Cursor.reads_append.mp hr₂
  obtain ⟨hk₃, -, c₄, hnext₃, rfl, hlen₃⟩ := hr₄.uncons
  have hlen₁ := hr₁.length
  have hlen₂ := hr₃.length
  obtain ⟨m, e', hbare, hm, hrun⟩ := h n c c₁ hn hr₁
  obtain ⟨index', hindex', hbares⟩ := hindex n c₂ c₃ (by omega) hr₃ (by rw [hk₃]; rfl)
  cases m with
  | zero => omega
  | succ m =>
    refine ⟨m, .subscript (e'.span.merge c₄.last) e' index', by rw [Expr.bare, hbare, hbares],
      by omega, ?_⟩
    rw [hrun, trailers_square hk, advance_bind_of_next? hnext, bind_of_ok hindex', expect_bind,
      if_pos (by rw [hk₃]; rfl), advance_bind_of_next? hnext₃, last_bind]

end Primaries

section Factors

variable {ws vs : List Word} {e : Expr}

theorem primary_of_complete (h : Complete .primary ws (.expr e)) {n : Nat} {c c' : Cursor}
    (hn : c.rest.length ≤ n) (hr : c.Reads ws c') (hg : grip c'.current.kind < 11) :
    Yields Expr.bare (primary (expression n)) c e c' := by
  obtain ⟨m, e', hbare, -, hrun⟩ := h n c c' hn hr
  exact ⟨e', by rw [hrun, trailers_stop hg], hbare⟩

theorem signOf?_of_begins {c c' : Cursor} (hd : Derives .primary ws (.expr e))
    (hr : c.Reads ws c') : signOf? c.current.kind = none := by
  obtain ⟨k, s, us, rfl, hk⟩ := hd.begins rfl
  rw [hr.uncons.1]
  exact signOf?_eq_none hk

theorem complete_primary (hd : Derives .primary ws (.expr e))
    (h : Complete .primary ws (.expr e)) : Complete .power ws (.expr e) := by
  intro n m c c' hn hm hr hg
  cases m with
  | zero => omega
  | succ m =>
    obtain ⟨e', he, hbare⟩ := primary_of_complete h hn hr (by omega)
    refine ⟨e', ?_, hbare⟩
    rw [factor, here_bind, kind_bind, signOf?_of_begins hd hr]
    simp only
    rw [bind_of_ok he, accept_bind, if_neg (by rintro hk; simp [hk, grip] at hg)]
    rfl

theorem complete_pow {base exponent : Expr} (s : String) (hd : Derives .primary ws (.expr base))
    (h : Complete .primary ws (.expr base)) (hexp : Complete .factor vs (.expr exponent)) :
    Complete .power (ws ++ (.binary .pow, s) :: vs)
      (.expr (.binary .nowhere base .pow exponent)) := by
  intro n m c c' hn hm hr hg
  obtain ⟨c₁, hr₁, hr₂⟩ := Cursor.reads_append.mp hr
  obtain ⟨hk, -, c₂, hnext, hr₂, hlen⟩ := hr₂.uncons
  have hlen₁ := hr₁.length
  cases m with
  | zero => omega
  | succ m =>
    obtain ⟨base', hbase, hbare⟩ := primary_of_complete h hn hr₁ (by simp [hk, grip])
    obtain ⟨exp', hexp', hbare'⟩ := hexp n m c₂ c' (by omega) (by omega) hr₂ hg
    refine ⟨base'.join .pow exp', ?_, by rw [Expr.join, Expr.bare, hbare, hbare']⟩
    rw [factor, here_bind, kind_bind, signOf?_of_begins hd hr₁]
    simp only
    rw [bind_of_ok hbase, accept_bind, if_pos hk, advance_bind_of_next? hnext, if_pos rfl,
      bind_of_ok hexp']
    rfl

theorem complete_sign {k : Token.Kind} {op : UnaryOp} (s : String) (hk : (k, op) ∈ signs)
    (h : Complete .factor ws (.expr e)) :
    Complete .factor ((k, s) :: ws) (.expr (.unary .nowhere op e)) := by
  intro n m c c' hn hm hr hg
  obtain ⟨hk', -, c₁, hnext, hr, hlen⟩ := hr.uncons
  cases m with
  | zero => omega
  | succ m =>
    obtain ⟨e', he, hbare⟩ := h n m c₁ c' (by omega) (by omega) hr hg
    refine ⟨.unary (c.current.span.merge e'.span) op e', ?_, by rw [Expr.bare, hbare]⟩
    rw [factor, here_bind, kind_bind, hk', signOf?_of_mem hk]
    simp only
    rw [advance_bind_of_next? hnext, bind_of_ok he]
    rfl

end Factors

section Levels

variable {level : Level} {ws vs : List Word} {e : Expr}

theorem operations_stop {operand : Parser Expr} {m : Nat} {c : Cursor}
    (hg : grip c.current.kind < rank level) : operations level operand m e c = .ok (e, c) := by
  cases m with
  | zero => rfl
  | succ m =>
    rw [operations, kind_bind, op?_eq_none hg]
    rfl

theorem level_of_complete (h : Complete (.level level) ws (.expr e)) {n : Nat} {c c' : Cursor}
    (hn : c.rest.length ≤ n) (hr : c.Reads ws c') (hg : grip c'.current.kind < rank level) :
    Yields Expr.bare (leftAssociative level (operandOf (expression n) level)) c e c' := by
  obtain ⟨m, e', hbare, -, hrun⟩ := h n c c' hn hr (Nat.le_of_lt hg)
  exact ⟨e', by rw [hrun, operations_stop hg], hbare⟩

/-- An operand is read up to a word that holds no tighter than the operators of its level. -/
theorem operand_of_complete (h : Complete (.operand level) ws (.expr e)) {n : Nat} {c c' : Cursor}
    (hn : c.rest.length ≤ n) (hr : c.Reads ws c') (hg : grip c'.current.kind ≤ rank level) :
    Yields Expr.bare (operandOf (expression n) level) c e c' := by
  cases level with
  | product =>
    obtain ⟨e', he, hbare⟩ :=
      h n (c.rest.length + 1) c c' hn (Nat.lt_succ_self _) hr (Nat.lt_succ_of_le hg)
    exact ⟨e', by rw [operandOf, tighter, List.foldl_nil, signed, remaining_bind, he], hbare⟩
  | _ => exact level_of_complete h hn hr (Nat.lt_succ_of_le hg)

theorem complete_operand (h : Complete (.operand level) ws (.expr e)) :
    Complete (.level level) ws (.expr e) := by
  intro n c c' hn hr hg
  obtain ⟨e', he, hbare⟩ := operand_of_complete h hn hr hg
  refine ⟨c'.rest.length, e', hbare, Nat.le_refl _, ?_⟩
  rw [leftAssociative, bind_of_ok he, remaining_bind]

theorem complete_binary {op : BinaryOp} {left right : Expr} (s : String)
    (hop : op ∈ operators level) (h : Complete (.level level) ws (.expr left))
    (hright : Complete (.operand level) vs (.expr right)) :
    Complete (.level level) (ws ++ (.binary op, s) :: vs)
      (.expr (.binary .nowhere left op right)) := by
  intro n c c' hn hr hg
  obtain ⟨c₁, hr₁, hr₂⟩ := Cursor.reads_append.mp hr
  obtain ⟨hk, -, c₂, hnext, hr₂, hlen⟩ := hr₂.uncons
  have hlen₁ := hr₁.length
  have hlen₂ := hr₂.length
  obtain ⟨m, left', hbare, hm, hrun⟩ := h n c c₁ hn hr₁ (by simp [hk, grip_of_mem hop])
  obtain ⟨right', hright', hbare'⟩ := operand_of_complete (n := n) hright (by omega) hr₂ hg
  cases m with
  | zero => omega
  | succ m =>
    refine ⟨m, left'.join op right', by rw [Expr.join, Expr.bare, hbare, hbare'], by omega, ?_⟩
    rw [hrun, operations, kind_bind, hk, op?_of_mem hop]
    simp only
    rw [advance_bind_of_next? hnext, bind_of_ok hright']

end Levels

section Comparisons

variable {ws vs : List Word} {e : Expr} {links : List (CompareOp × Expr)}

theorem arithmetic_of_complete (h : Complete (.level .bitOr) ws (.expr e)) {n : Nat}
    {c c' : Cursor} (hn : c.rest.length ≤ n) (hr : c.Reads ws c')
    (hg : grip c'.current.kind ≤ 3) : Yields Expr.bare (arithmetic (expression n)) c e c' := by
  rw [arithmetic_eq]
  exact level_of_complete h hn hr (Nat.lt_succ_of_le hg)

/-- A chain begins with a comparison, if it has links at all. -/
theorem grip_of_chain {c c' : Cursor} (hd : Derives .chain ws (.links links)) (hr : c.Reads ws c')
    (hg : grip c'.current.kind < 3) : grip c.current.kind ≤ 3 := by
  cases hd with
  | noLink =>
    cases hr
    omega
  | link => simp [hr.uncons.1, grip]

theorem complete_noLink : Complete .chain [] (.links []) := by
  rintro n m c c' hn hm rfl hg
  refine ⟨[], ?_, by rw [bareLinks]⟩
  cases m with
  | zero => rfl
  | succ m =>
    rw [chain, kind_bind, comparisonOf?_eq_none hg]
    rfl

theorem complete_link {op : CompareOp} (s : String) (h : Complete (.level .bitOr) ws (.expr e))
    (hd : Derives .chain vs (.links links)) (hrest : Complete .chain vs (.links links)) :
    Complete .chain ((.compare op, s) :: (ws ++ vs)) (.links ((op, e) :: links)) := by
  intro n m c c' hn hm hr hg
  obtain ⟨hk, -, c₁, hnext, hr, hlen⟩ := hr.uncons
  obtain ⟨c₂, hr₁, hr₂⟩ := Cursor.reads_append.mp hr
  have hlen₁ := hr₁.length
  obtain ⟨e', he, hbare⟩ :=
    arithmetic_of_complete (n := n) h (by omega) hr₁ (grip_of_chain hd hr₂ hg)
  cases m with
  | zero => omega
  | succ m =>
    obtain ⟨links', hlinks, hbares⟩ := hrest n m c₂ c' (by omega) (by omega) hr₂ hg
    refine ⟨(op, e') :: links', ?_, by rw [bareLinks, hbare, hbares]⟩
    rw [chain, kind_bind, hk]
    simp only [comparisonOf?]
    rw [advance_bind_of_next? hnext, bind_of_ok he, bind_of_ok hlinks]
    rfl

theorem complete_uncompared (h : Complete (.level .bitOr) ws (.expr e)) :
    Complete .comparison ws (.expr e) := by
  intro n c c' hn hr hg
  obtain ⟨e', he, hbare⟩ := arithmetic_of_complete h hn hr (Nat.le_of_lt hg)
  obtain ⟨links', hlinks, hbares⟩ :=
    complete_noLink n c'.rest.length c' c' (by have := hr.length; omega) (Nat.le_refl _) rfl hg
  have hnil : links' = [] := by
    cases links' with
    | nil => rfl
    | cons l ls => simp [bareLinks] at hbares
  subst hnil
  refine ⟨e', ?_, hbare⟩
  rw [comparison, bind_of_ok he, remaining_bind, bind_of_ok hlinks]
  rfl

theorem complete_compared {left : Expr} {op : CompareOp}
    (h : Complete (.level .bitOr) ws (.expr left))
    (hd : Derives .chain vs (.links ((op, e) :: links)))
    (hrest : Complete .chain vs (.links ((op, e) :: links))) :
    Complete .comparison (ws ++ vs) (.expr (.compare .nowhere left ((op, e) :: links))) := by
  intro n c c' hn hr hg
  obtain ⟨c₁, hr₁, hr₂⟩ := Cursor.reads_append.mp hr
  have hlen₁ := hr₁.length
  obtain ⟨left', hleft, hbare⟩ := arithmetic_of_complete h hn hr₁ (grip_of_chain hd hr₂ hg)
  obtain ⟨links', hlinks, hbares⟩ := hrest n c₁.rest.length c₁ c' (by omega) (Nat.le_refl _) hr₂ hg
  cases links' with
  | nil => simp [bareLinks] at hbares
  | cons l ls =>
    refine ⟨.compare (left'.span.merge c'.last) left' (l :: ls), ?_,
      by rw [Expr.bare, hbare, hbares]⟩
    rw [comparison, bind_of_ok hleft, remaining_bind, bind_of_ok hlinks]
    rfl

theorem complete_comparison (hd : Derives .comparison ws (.expr e))
    (h : Complete .comparison ws (.expr e)) : Complete .inversion ws (.expr e) := by
  intro n m c c' hn hm hr hg
  obtain ⟨k, s, us, rfl, hk⟩ := hd.begins rfl
  have hne : isNot c.current.kind = false := by
    rw [hr.uncons.1]
    cases k <;> simp_all [isNot, Symbol.starts, startsAtom, isSign, signs]
  cases m with
  | zero => omega
  | succ m =>
    obtain ⟨e', he, hbare⟩ := h n c c' hn hr hg
    refine ⟨e', ?_, hbare⟩
    rw [negation, here_bind, kind_bind, if_neg (by simp [hne]), he]

theorem complete_inversion {k : Token.Kind} (s : String) (hk : k = .not ∨ k = .bang)
    (h : Complete .inversion ws (.expr e)) :
    Complete .inversion ((k, s) :: ws) (.expr (.unary .nowhere .not e)) := by
  intro n m c c' hn hm hr hg
  obtain ⟨hk', -, c₁, hnext, hr, hlen⟩ := hr.uncons
  cases m with
  | zero => omega
  | succ m =>
    obtain ⟨e', he, hbare⟩ := h n m c₁ c' (by omega) (by omega) hr hg
    refine ⟨.unary (c.current.span.merge e'.span) .not e', ?_, by rw [Expr.bare, hbare]⟩
    rw [negation, here_bind, kind_bind, if_pos (by simpa [isNot, hk'] using hk),
      advance_bind_of_next? hnext, bind_of_ok he]
    rfl

end Comparisons

section Connected

variable {op : Connective} {ws vs : List Word} {e : Expr} {es : List Expr}

/-- A part is read up to a word that holds no tighter than its connective. -/
theorem part_of_complete (h : Complete (.part op) ws (.expr e)) {n : Nat} {c c' : Cursor}
    (hn : c.rest.length ≤ n) (hr : c.Reads ws c')
    (hg : grip c'.current.kind ≤ connectiveRank op) :
    Yields Expr.bare (partOf (expression n) op) c e c' := by
  cases op with
  | and =>
    obtain ⟨e', he, hbare⟩ :=
      h n (c.rest.length + 1) c c' hn (Nat.lt_succ_self _) hr (Nat.lt_succ_of_le hg)
    exact ⟨e', by rw [partOf, remaining_bind, he], hbare⟩
  | or => exact h n c c' hn hr (Nat.lt_succ_of_le hg)

/-- A run begins with its connective, if it has parts at all. -/
theorem grip_of_run {c c' : Cursor} (hd : Derives (.run op) ws (.exprs es)) (hr : c.Reads ws c')
    (hg : grip c'.current.kind < connectiveRank op) : grip c.current.kind ≤ connectiveRank op := by
  cases hd with
  | noPart =>
    cases hr
    omega
  | part s hk => exact Nat.le_of_eq (by rw [hr.uncons.1, grip_of_connective hk])

theorem complete_noPart : Complete (.run op) [] (.exprs []) := by
  rintro n m c c' hn hm rfl hg
  refine ⟨[], ?_, by rw [bareAll]⟩
  cases m with
  | zero => rfl
  | succ m =>
    rw [operands, kind_bind, if_neg (by simp [isConnective_eq_false hg])]
    rfl

theorem complete_part {k : Token.Kind} (s : String) (hk : k ∈ connectives op)
    (h : Complete (.part op) ws (.expr e)) (hd : Derives (.run op) vs (.exprs es))
    (hrest : Complete (.run op) vs (.exprs es)) :
    Complete (.run op) ((k, s) :: (ws ++ vs)) (.exprs (e :: es)) := by
  intro n m c c' hn hm hr hg
  obtain ⟨hk', -, c₁, hnext, hr, hlen⟩ := hr.uncons
  obtain ⟨c₂, hr₁, hr₂⟩ := Cursor.reads_append.mp hr
  have hlen₁ := hr₁.length
  obtain ⟨e', he, hbare⟩ := part_of_complete (n := n) h (by omega) hr₁ (grip_of_run hd hr₂ hg)
  cases m with
  | zero => omega
  | succ m =>
    obtain ⟨es', hes, hbares⟩ := hrest n m c₂ c' (by omega) (by omega) hr₂ hg
    refine ⟨e' :: es', ?_, by rw [bareAll, hbare, hbares]⟩
    rw [operands, kind_bind, if_pos (by rw [hk']; exact isConnective_of_mem hk),
      advance_bind_of_next? hnext, bind_of_ok he, bind_of_ok hes]
    rfl

theorem complete_unconnected (h : Complete (.part op) ws (.expr e)) :
    Complete (.connected op) ws (.expr e) := by
  intro n c c' hn hr hg
  obtain ⟨e', he, hbare⟩ := part_of_complete h hn hr (Nat.le_of_lt hg)
  have hnone : Complete (.run op) [] (.exprs []) := complete_noPart
  obtain ⟨es', hes, hbares⟩ :=
    hnone n c'.rest.length c' c' (by have := hr.length; omega) (Nat.le_refl _) rfl hg
  have hnil : es' = [] := by
    cases es' with
    | nil => rfl
    | cons e es => simp [bareAll] at hbares
  subst hnil
  refine ⟨e', ?_, hbare⟩
  rw [connected, bind_of_ok he, remaining_bind, bind_of_ok hes]
  rfl

theorem complete_connected {first : Expr} (h : Complete (.part op) ws (.expr first))
    (hd : Derives (.run op) vs (.exprs (e :: es)))
    (hrest : Complete (.run op) vs (.exprs (e :: es))) :
    Complete (.connected op) (ws ++ vs) (.expr (.connect .nowhere op (first :: e :: es))) := by
  intro n c c' hn hr hg
  obtain ⟨c₁, hr₁, hr₂⟩ := Cursor.reads_append.mp hr
  have hlen₁ := hr₁.length
  obtain ⟨first', hfirst, hbare⟩ := part_of_complete h hn hr₁ (grip_of_run hd hr₂ hg)
  obtain ⟨es', hes, hbares⟩ := hrest n c₁.rest.length c₁ c' (by omega) (Nat.le_refl _) hr₂ hg
  cases es' with
  | nil => simp [bareAll] at hbares
  | cons e' es' =>
    refine ⟨.connect (spanOf first' (e' :: es')) op (first' :: e' :: es'), ?_,
      by rw [Expr.bare, bareAll, hbare, hbares]⟩
    rw [connected, bind_of_ok hfirst, remaining_bind, bind_of_ok hes]
    rfl

end Connected

/-- Every derivation is found by reading. -/
theorem complete_of_derives {symbol : Symbol} {ws : List Word} {phrase : Phrase}
    (h : Derives symbol ws phrase) : Complete symbol ws phrase := by
  induction h with
  | name text => exact complete_name text
  | number text hk => exact complete_number text hk
  | unit s t => exact complete_unit s t
  | group s t hd ih => exact complete_group s t hd ih
  | list s t _ ih => exact complete_list s t ih
  | dict s t _ ih => exact complete_dict s t ih
  | atom _ ih => exact complete_atom ih
  | call s t _ _ ih ihargs => exact complete_call s t ih ihargs
  | subscript s t _ _ ih ihindex => exact complete_subscript s t ih ihindex
  | primary hd ih => exact complete_primary hd ih
  | pow s hd _ ih ihexp => exact complete_pow s hd ih ihexp
  | power _ ih => exact ih
  | sign s hk _ ih => exact complete_sign s hk ih
  | operand _ ih => exact complete_operand ih
  | binary s hop _ _ ih ihright => exact complete_binary s hop ih ihright
  | noLink => exact complete_noLink
  | link s _ hd ih ihrest => exact complete_link s ih hd ihrest
  | uncompared _ ih => exact complete_uncompared ih
  | compared _ hd ih ihrest => exact complete_compared ih hd ihrest
  | comparison hd ih => exact complete_comparison hd ih
  | inversion s hk _ ih => exact complete_inversion s hk ih
  | noPart => exact complete_noPart
  | part s hk _ hd ih ihrest => exact complete_part s hk ih hd ihrest
  | unconnected _ ih => exact complete_unconnected ih
  | connected _ hd ih ihrest => exact complete_connected ih hd ihrest
  | noItem => exact complete_noItem
  | lastItem hd ih => exact complete_lastItem hd ih
  | item s hd _ ih ihrest => exact complete_item s hd ih ihrest
  | noEntry => exact complete_noEntry
  | lastEntry s hd _ ih ihvalue => exact complete_lastEntry s hd ih ihvalue
  | entry s t hd _ _ ih ihvalue ihrest => exact complete_entry s t hd ih ihvalue ihrest
  | single _ ih => exact complete_single ih
  | tuple s _ _ ih ihrest => exact complete_tuple s ih ihrest

end LoopNest.Parser
