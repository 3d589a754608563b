import LoopNest.Domain.Rendering
import LoopNest.Proofs.ScanLexer

/-!
# Engine texts and the grammar

The text of a space for the engine is again a header. A term is derived from the symbol that its
precedence stands for, so parentheses are needed exactly where an operand binds looser than its place
asks. Relations are chains of comparisons, and the relations of a space are one conjunction.
-/

namespace LoopNest

open Grammar Scan

/-- The spelling of a literal: a number, which may have a sign. -/
def IsLiteral (text : String) : Prop :=
  IsNumeral text ∨ ∃ digits, text = "-" ++ digits ∧ IsNumeral digits

/-- A term whose names and literals are spelled as such. -/
inductive Term.Spelled : Term → Prop where
  | iterator {name : String} (h : IsName name) : Spelled (.iterator name)
  | constant {name : String} (h : IsName name) : Spelled (.constant name)
  | literal {text : String} (h : IsLiteral text) : Spelled (.literal text)
  | apply {function : String} {args : List Term} (hf : IsName function)
      (h : ∀ t ∈ args, Spelled t) : Spelled (.apply function args)
  | arith {left right : Term} (op : ArithOp) (hl : Spelled left) (hr : Spelled right) :
      Spelled (.arith left op right)

/-- A text of an expression together with its words, derived from a symbol. -/
def Writes (symbol : Symbol) (text : String) (e : Expr) : Prop :=
  ∃ ws, lexer.Spells text ws ∧ Derives symbol ws (.expr e)

namespace Grammar

/-- The symbol that terms of a precedence are derived from. -/
def Symbol.ofPrecedence : Nat → Symbol
  | 0 | 1 => .level .sum
  | 2 => .level .product
  | 3 => .power
  | _ => .primary

/-- What binds tighter may stand where something looser is asked for. -/
theorem Derives.loosen {p q : Nat} {ws : List Word} {e : Expr}
    (h : Derives (.ofPrecedence p) ws (.expr e)) (hle : q ≤ p) :
    Derives (.ofPrecedence q) ws (.expr e) := by
  have hpower : ∀ n, 3 ≤ n → Derives (.ofPrecedence n) ws (.expr e) →
      Derives .power ws (.expr e) := by
    intro n hn h
    match n with
    | 3 => exact h
    | n + 4 => exact .primary h
  have hproduct : ∀ n, 2 ≤ n → Derives (.ofPrecedence n) ws (.expr e) →
      Derives (.level .product) ws (.expr e) := by
    intro n hn h
    match n with
    | 2 => exact h
    | n + 3 => exact .operand (.power (hpower (n + 3) (by omega) h))
  have hsum : ∀ n, Derives (.ofPrecedence n) ws (.expr e) →
      Derives (.level .sum) ws (.expr e) := by
    intro n h
    match n with
    | 0 | 1 => exact h
    | n + 2 => exact .operand (hproduct (n + 2) (by omega) h)
  match q with
  | 0 | 1 => exact hsum p h
  | 2 => exact hproduct p hle h
  | 3 => exact hpower p hle h
  | q + 4 =>
    obtain ⟨n, rfl⟩ := Nat.exists_eq_add_of_le hle
    rw [show q + 4 + n = q + n + 4 by omega] at h
    exact h

/-- A sum is an operand of a comparison. -/
theorem Derives.comparand {ws : List Word} {e : Expr} (h : Derives (.level .sum) ws (.expr e)) :
    Derives (.level .bitOr) ws (.expr e) :=
  .operand (.operand (.operand (.operand h)))

/-- A comparison is an expression. -/
theorem Derives.expression {ws : List Word} {e : Expr} (h : Derives .comparison ws (.expr e)) :
    Derives .expr ws (.expr e) :=
  .unconnected (.unconnected (.comparison h))

/-- An atom is an expression. -/
theorem Derives.of_atom {ws : List Word} {e : Expr} (h : Derives .atom ws (.expr e)) :
    Derives .expr ws (.expr e) :=
  .expression (.uncompared (Derives.comparand (.operand (.operand (.power (.primary (.atom h)))))))

end Grammar

namespace Writes

theorem loosen {p q : Nat} {text : String} {e : Expr}
    (h : Writes (.ofPrecedence p) text e) (hle : q ≤ p) : Writes (.ofPrecedence q) text e := by
  obtain ⟨ws, hspells, hderives⟩ := h
  exact ⟨ws, hspells, hderives.loosen hle⟩

/-- A term may be compared. -/
theorem comparand {p : Nat} {text : String} {e : Expr} (h : Writes (.ofPrecedence p) text e) :
    Writes (.level .bitOr) text e := by
  obtain ⟨ws, hspells, hderives⟩ := h.loosen (Nat.zero_le p)
  exact ⟨ws, hspells, hderives.comparand⟩

/-- A term is an expression. -/
theorem expression {p : Nat} {text : String} {e : Expr} (h : Writes (.ofPrecedence p) text e) :
    Writes .expr text e := by
  obtain ⟨ws, hspells, hderives⟩ := h.comparand
  exact ⟨ws, hspells, .expression (.uncompared hderives)⟩

/-- Parentheses let a text stand in every place. -/
theorem group {p q : Nat} {text : String} {e : Expr} {needed : Bool}
    (h : Writes (.ofPrecedence p) text e) (hq : q ≤ 4) (hle : needed = false → q ≤ p) :
    Writes (.ofPrecedence q) (Term.group needed text) e := by
  cases needed with
  | false => exact h.loosen (hle rfl)
  | true =>
    obtain ⟨ws, hspells, hderives⟩ := h.expression
    have hprimary : Writes (.ofPrecedence 4) ("(" ++ text ++ ")") e :=
      ⟨_, .enclosed (encloses .round) hspells, .atom (.group _ _ (.single hderives))⟩
    exact hprimary.loosen hq

end Writes

/-! ### Terms -/

namespace Term

theorem literal_of_isNumeral {text : String} (h : IsNumeral text) :
    isSigned text = false ∧ Expr.ofLiteral text = .number .nowhere text := by
  obtain ⟨c, cs, htext, hbegins⟩ := h.begins
  have hc : c ≠ '-' := by
    rintro rfl
    exact absurd (hbegins []) (by simp)
  refine ⟨by simp [isSigned, htext, hc], ?_⟩
  unfold Expr.ofLiteral
  split
  · next heq =>
    rw [htext] at heq
    cases heq
    exact absurd rfl hc
  · rfl

theorem literal_of_negative (digits : String) :
    isSigned ("-" ++ digits) = true ∧
      Expr.ofLiteral ("-" ++ digits) = .unary .nowhere .neg (.number .nowhere digits) := by
  have htext : ("-" ++ digits).toList = '-' :: digits.toList := String.toList_append
  refine ⟨by simp [isSigned, htext], ?_⟩
  simp [Expr.ofLiteral, htext]

/-- How tightly the left operand of an operation has to bind. -/
def leftPrecedence (op : ArithOp) : Nat :=
  if op = .pow then 4 else op.precedence

/-- How tightly the right operand of an operation has to bind. -/
def rightPrecedence (op : ArithOp) : Nat :=
  if op = .pow then 3 else op.precedence + 1

theorem le_of_groupsLeft {op : ArithOp} {t : Term} (h : groupsLeft op t = false) :
    leftPrecedence op ≤ t.precedence := by
  unfold groupsLeft at h
  unfold leftPrecedence
  split at h
  · next hop =>
    subst hop
    exact Nat.lt_of_not_le (of_decide_eq_false h)
  · next hop =>
    rw [if_neg hop]
    exact Nat.le_of_not_lt (of_decide_eq_false h)

theorem le_of_groupsRight {op : ArithOp} {t : Term} (h : groupsRight op t = false) :
    rightPrecedence op ≤ t.precedence := by
  unfold groupsRight at h
  unfold rightPrecedence
  split at h
  · next hop =>
    subst hop
    exact Nat.le_of_not_lt (of_decide_eq_false h)
  · next hop =>
    rw [if_neg hop]
    exact Nat.lt_of_not_le (of_decide_eq_false h)

/-- An operation is derived from operands that bind as tightly as it asks. -/
theorem derives_arith (op : ArithOp) {ws vs : List Word} {left right : Expr}
    (hl : Derives (.ofPrecedence (leftPrecedence op)) ws (.expr left))
    (hr : Derives (.ofPrecedence (rightPrecedence op)) vs (.expr right)) :
    Derives (.ofPrecedence op.precedence) (ws ++ (.binary op.binary, op.symbol) :: vs)
      (.expr (.binary .nowhere left op.binary right)) := by
  have hsum : ∀ op : ArithOp, op.binary ∈ operators .sum →
      Derives (.level .sum) ws (.expr left) → Derives (.level .product) vs (.expr right) →
      Derives (.level .sum) (ws ++ (.binary op.binary, op.symbol) :: vs)
        (.expr (.binary .nowhere left op.binary right)) :=
    fun op h hl hr => .binary _ h hl hr
  have hproduct : ∀ op : ArithOp, op.binary ∈ operators .product →
      Derives (.level .product) ws (.expr left) → Derives .power vs (.expr right) →
      Derives (.level .product) (ws ++ (.binary op.binary, op.symbol) :: vs)
        (.expr (.binary .nowhere left op.binary right)) :=
    fun op h hl hr => .binary _ h hl (.power hr)
  cases op with
  | add => exact hsum .add (by decide) hl hr
  | sub => exact hsum .sub (by decide) hl hr
  | mul => exact hproduct .mul (by decide) hl hr
  | div => exact hproduct .div (by decide) hl hr
  | mod => exact hproduct .mod (by decide) hl hr
  | pow => exact .pow _ hl (.power hr)

theorem precedence_bounds (op : ArithOp) : leftPrecedence op ≤ 4 ∧ rightPrecedence op ≤ 4 := by
  cases op <;> decide

mutual

/-- A term is written as the grammar asks for its expression. -/
theorem writes : ∀ t : Term, t.Spelled → Writes (.ofPrecedence t.precedence) t.text t.expr
  | iterator name, h => by
    cases h with
    | iterator h => exact ⟨_, spells_name h, .atom (.name name)⟩
  | constant name, h => by
    cases h with
    | constant h => exact ⟨_, spells_name h, .atom (.name name)⟩
  | literal text, h => by
    cases h with
    | literal h =>
      rcases h with h | ⟨digits, rfl, h⟩
      · obtain ⟨kind, hkind, hspells⟩ := spells_numeral h
        obtain ⟨hsign, hexpr⟩ := literal_of_isNumeral h
        rw [precedence, hsign, expr, hexpr]
        exact ⟨_, hspells, .atom (.number text hkind)⟩
      · obtain ⟨kind, hkind, hspells⟩ := spells_negative h
        obtain ⟨hsign, hexpr⟩ := literal_of_negative digits
        rw [precedence, hsign, expr, hexpr]
        exact ⟨_, hspells, .operand (.sign _ (by decide)
          (.power (.primary (.atom (.number digits hkind)))))⟩
  | apply function args, h => by
    cases h with
    | apply hf h =>
      obtain ⟨ws, hspells, hderives⟩ := writesAll args h
      exact ⟨_, (spells_name hf).applied (encloses .round) hspells,
        .call _ _ (.atom (.name function)) hderives⟩
  | arith left op right, h => by
    cases h with
    | arith _ hl hr =>
      obtain ⟨ws, hws, hleft⟩ := (writes left hl).group (precedence_bounds op).1 le_of_groupsLeft
      obtain ⟨vs, hvs, hright⟩ := (writes right hr).group (precedence_bounds op).2 le_of_groupsRight
      exact ⟨_, hws.operation (separates_arith op) hvs, derives_arith op hleft hright⟩

theorem writesAll : ∀ ts : List Term, (∀ t ∈ ts, t.Spelled) →
    ∃ ws, lexer.Spells (", ".intercalate (textAll ts)) ws ∧ Derives .items ws (.exprs (exprs ts))
  | [], _ => ⟨[], .empty, .noItem⟩
  | [t], h => by
    obtain ⟨ws, hspells, hderives⟩ := (writes t (h t List.mem_cons_self)).expression
    exact ⟨ws, by simpa [textAll] using hspells, .lastItem hderives⟩
  | t :: u :: ts, h => by
    obtain ⟨ws, hws, ht⟩ := (writes t (h t List.mem_cons_self)).expression
    obtain ⟨vs, hvs, hrest⟩ := writesAll (u :: ts) fun t ht => h t (List.mem_cons_of_mem _ ht)
    rw [textAll, textAll, String.intercalate_cons_cons]
    exact ⟨_, hws.separated separates_comma hvs, .item _ ht hrest⟩

end

end Term

/-! ### Relations and spaces -/

namespace Relation

/-- The chain that a relation is written as. -/
def chain (r : Relation) : Links :=
  match r.middle? with
  | some (mid, op) => (r.left, [(r.leftOp, .single mid), (op, .single r.right)])
  | none => (r.left, [(r.leftOp, .single r.right)])

/-- A relation is written as the comparison of its chain. -/
theorem writes {r : Relation} (h : ∀ t ∈ r.writtenTerms, t.Spelled) :
    Writes .comparison r.text (Chain.comparison r.chain) := by
  obtain ⟨ws, hws, hleft⟩ := (r.left.writes (h _ (by simp [writtenTerms]))).comparand
  obtain ⟨us, hus, hright⟩ := (r.right.writes (h _ (by simp [writtenTerms]))).comparand
  cases hmid : r.middle? with
  | none =>
    have hderives : Derives .comparison (ws ++ (.compare r.leftOp, r.leftOp.symbol) :: (us ++ []))
        (.expr (.compare .nowhere r.left.expr [(r.leftOp, r.right.expr)])) :=
      .compared hleft (.link _ hright .noLink)
    have hspells := hws.operation (separates_compare r.leftOp) hus
    rw [List.append_nil] at hderives
    refine ⟨_, ?_, by rw [chain, hmid]; exact hderives⟩
    simpa [text, hmid] using hspells
  | some middle =>
    obtain ⟨mid, op⟩ := middle
    obtain ⟨vs, hvs, hcenter⟩ := (mid.writes (h _ (by simp [writtenTerms, hmid]))).comparand
    have hderives : Derives .comparison
        (ws ++ (.compare r.leftOp, r.leftOp.symbol) ::
          (vs ++ (.compare op, op.symbol) :: (us ++ [])))
        (.expr (.compare .nowhere r.left.expr [(r.leftOp, mid.expr), (op, r.right.expr)])) :=
      .compared hleft (.link _ hcenter (.link _ hright .noLink))
    have hspells := hws.operation (separates_compare r.leftOp)
      (hvs.operation (separates_compare op) hus)
    rw [List.append_nil] at hderives
    refine ⟨_, ?_, by rw [chain, hmid]; exact hderives⟩
    simpa [text, hmid, String.append_assoc] using hspells

end Relation

namespace Space

/-- The relations behind the first one of a space, each with a conjunction before it. -/
theorem writes_run {rs : List Relation} (h : ∀ r ∈ rs, ∀ t ∈ r.writtenTerms, t.Spelled)
    {first : String} {ws : List Word} (hws : lexer.Spells first ws) :
    ∃ vs, lexer.Spells (" && ".intercalate (first :: rs.map Relation.text)) (ws ++ vs) ∧
      Derives (.run .and) vs (.exprs (rs.map fun r => Chain.comparison r.chain)) := by
  induction rs generalizing first ws with
  | nil => exact ⟨[], by simpa using hws, .noPart⟩
  | cons r rs ih =>
    obtain ⟨us, hus, hr⟩ := Relation.writes (h r List.mem_cons_self)
    obtain ⟨vs, hvs, hrun⟩ := ih (fun r hr => h r (List.mem_cons_of_mem _ hr)) hus
    have hpart : Derives (.run .and) ((.ampAmp, "&&") :: (us ++ vs))
        (.exprs ((r :: rs).map fun r => Chain.comparison r.chain)) :=
      .part _ (by decide) (.comparison hr) hrun
    rw [List.map_cons, String.intercalate_cons_cons]
    exact ⟨_, hws.separated separates_conjunction hvs, hpart⟩

/-- The conjunction of the relations of a space. -/
def constraint (s : Space) : Expr :=
  match s.relations.map fun r => Chain.comparison r.chain with
  | [e] => e
  | es => .connect .nowhere .and es

theorem writes_constraint {s : Space} (hne : s.relations ≠ [])
    (h : ∀ r ∈ s.relations, ∀ t ∈ r.writtenTerms, t.Spelled) :
    Writes .expr (" && ".intercalate (s.relations.map Relation.text)) s.constraint := by
  cases hrs : s.relations with
  | nil => exact absurd hrs hne
  | cons r rs =>
    rw [hrs] at h
    obtain ⟨ws, hws, hr⟩ := Relation.writes (h r List.mem_cons_self)
    obtain ⟨vs, hvs, hrun⟩ := writes_run (fun r hr => h r (List.mem_cons_of_mem _ hr)) hws
    cases rs with
    | nil => exact ⟨ws, by simpa using hws, by rw [constraint, hrs]; exact hr.expression⟩
    | cons r' rs =>
      refine ⟨_, hvs, ?_⟩
      rw [constraint, hrs]
      exact .unconnected (.connected (.comparison hr) hrun)

/-- The header that a space is written as. -/
def stmt (s : Space) : Stmt :=
  .assign .nowhere [.name .nowhere s.name]
    (.dict .nowhere [(.list .nowhere (s.iterators.map (.name .nowhere)), s.constraint)])

theorem writes_iterators {names : List String} (h : ∀ name ∈ names, IsName name) :
    ∃ ws, lexer.Spells (", ".intercalate names) ws ∧
      Derives .items ws (.exprs (names.map (.name .nowhere))) := by
  induction names with
  | nil => exact ⟨[], .empty, .noItem⟩
  | cons name names ih =>
    have hspells := spells_name (h name List.mem_cons_self)
    cases names with
    | nil =>
      rw [String.intercalate_singleton]
      exact ⟨_, hspells, .lastItem (.of_atom (.name name))⟩
    | cons next names =>
      obtain ⟨ws, hws, hrest⟩ := ih fun n hn => h n (List.mem_cons_of_mem _ hn)
      rw [String.intercalate_cons_cons]
      exact ⟨_, hspells.separated separates_comma hws, .item _ (.of_atom (.name name)) hrest⟩

/-- The engine text in the pieces that it is read in. -/
theorem engineText_eq {s : Space} (hne : s.relations ≠ []) :
    s.engineText = s.name ++ (" " ++ "=" ++ " ") ++ (Bracket.curly.leftSymbol ++
      (Bracket.square.leftSymbol ++ ", ".intercalate s.iterators ++ Bracket.square.rightSymbol ++
        (" " ++ ":" ++ " ") ++ " && ".intercalate (s.relations.map Relation.text)) ++
      Bracket.curly.rightSymbol) := by
  rw [engineText_eq_text]
  unfold text
  dsimp only
  split
  · next h => exact absurd h hne
  · rw [← String.toList_inj]
    simp [Bracket.leftSymbol, Bracket.rightSymbol, Form.opening, Form.conjunction]

/-- The engine text of a space with relations is a header. -/
theorem exists_statement {s : Space} (hname : IsName s.name)
    (hiterators : ∀ i ∈ s.iterators, IsName i) (hne : s.relations ≠ [])
    (h : ∀ r ∈ s.relations, ∀ t ∈ r.writtenTerms, t.Spelled) :
    ∃ ws, lexer.Spells s.engineText ws ∧ Statement ws s.stmt := by
  obtain ⟨ws, hws, hkeys⟩ := writes_iterators hiterators
  obtain ⟨vs, hvs, hvalue⟩ := writes_constraint hne h
  have hentry := (Lexer.Spells.enclosed (encloses .square) hws).separated separates_colon hvs
  have hspells := (spells_name hname).separated separates_equal
    (Lexer.Spells.enclosed (encloses .curly) hentry)
  have hdict := Derives.dict Bracket.curly.leftSymbol Bracket.curly.rightSymbol
    (.lastEntry ":" (.of_atom (.list Bracket.square.leftSymbol Bracket.square.rightSymbol hkeys))
      hvalue)
  have htarget : Targets ([(.identifier, s.name)] ++ [(.equal, "=")]) [.name .nowhere s.name] :=
    .cons "=" (.single (.of_atom (.name s.name))) (.name _ _) .nil
  have hstatement : Statement _ s.stmt := .assign htarget (.single hdict.of_atom)
  refine ⟨_, ?_, hstatement⟩
  rw [engineText_eq hne]
  exact hspells

end Space

end LoopNest
