import LoopNest.Program.Parser

/-!
# The grammar of programs

The words of a text are its tokens without their places, the trees of the grammar are expressions
and statements without their spans. The grammar is a ladder of symbols, each with its productions.
The levels of binary operators recurse to the left, so that their operators group to the left;
powers recurse to the right, and bind tighter than a sign before them and looser than one behind. A
chain of comparisons and a run of one connective are one node each. Parentheses leave no trace.
-/

namespace LoopNest

/-! ### Trees without spans -/

mutual

/-- An expression without its spans. -/
def Expr.bare : Expr → Expr
  | .name _ text => .name .nowhere text
  | .number _ text => .number .nowhere text
  | .binary _ left op right => .binary .nowhere left.bare op right.bare
  | .unary _ op operand => .unary .nowhere op operand.bare
  | .connect _ op values => .connect .nowhere op (bareAll values)
  | .compare _ left links => .compare .nowhere left.bare (bareLinks links)
  | .call _ callee args => .call .nowhere callee (bareAll args)
  | .subscript _ base index => .subscript .nowhere base.bare index.bare
  | .tuple _ items => .tuple .nowhere (bareAll items)
  | .list _ items => .list .nowhere (bareAll items)
  | .dict _ entries => .dict .nowhere (bareEntries entries)

def bareAll : List Expr → List Expr
  | [] => []
  | e :: es => e.bare :: bareAll es

def bareLinks : List (CompareOp × Expr) → List (CompareOp × Expr)
  | [] => []
  | (op, e) :: links => (op, e.bare) :: bareLinks links

def bareEntries : List (Expr × Expr) → List (Expr × Expr)
  | [] => []
  | (key, value) :: entries => (key.bare, value.bare) :: bareEntries entries

end

/-- A statement without its spans. -/
def Stmt.bare : Stmt → Stmt
  | .assign _ targets value => .assign .nowhere (bareAll targets) value.bare
  | .augment _ target op value => .augment .nowhere target.bare op value.bare
  | .eval _ value => .eval .nowhere value.bare

theorem bareAll_eq_map (es : List Expr) : bareAll es = es.map Expr.bare := by
  induction es with
  | nil => simp [bareAll]
  | cons e es ih => simp [bareAll, ih]

/-- A word is the kind and the lexeme of a token. -/
abbrev Word := Token.Kind × String

def Token.word (t : Token) : Word :=
  (t.kind, t.lexeme)

namespace Grammar

open LoopNest.Parser (Level)

/-- The symbols of the grammar, the tightest first. -/
inductive Symbol where
  | atom | primary | power | factor
  | level (level : Level)
  | chain | comparison | inversion
  | run (op : Connective)
  | connected (op : Connective)
  | items | entries | exprList
deriving DecidableEq

/-- An expression is a disjunction, if only of one part. -/
abbrev Symbol.expr : Symbol :=
  .connected .or

/-- The operators of a level. -/
def operators : Level → List BinaryOp
  | .bitOr => [.bitOr]
  | .bitXor => [.bitXor]
  | .bitAnd => [.bitAnd]
  | .shift => [.shiftLeft, .shiftRight]
  | .sum => [.add, .sub]
  | .product => [.mult, .div, .floorDiv, .mod, .matMult]

/-- The signs before a factor. -/
def signs : List (Token.Kind × UnaryOp) :=
  [(.binary .sub, .neg), (.binary .add, .pos), (.tilde, .invert)]

/-- The word and the symbol of a connective. -/
def connectives : Connective → List Token.Kind
  | .and => [.and, .ampAmp]
  | .or => [.or, .pipePipe]

/-- What the operators of a level join. -/
def Symbol.operand : Level → Symbol
  | .bitOr => .level .bitXor
  | .bitXor => .level .bitAnd
  | .bitAnd => .level .shift
  | .shift => .level .sum
  | .sum => .level .product
  | .product => .factor

/-- What a connective joins. -/
def Symbol.part : Connective → Symbol
  | .and => .inversion
  | .or => .connected .and

/-- What a symbol stands for: an expression, or a part of one. -/
inductive Phrase where
  | expr (e : Expr)
  | exprs (es : List Expr)
  | links (ls : List (CompareOp × Expr))
  | entries (es : List (Expr × Expr))

/-- `Derives symbol words phrase` holds if the words can be derived from the symbol with that phrase
as the tree of the derivation. Words other than names and numbers matter only by their kind. -/
inductive Derives : Symbol → List Word → Phrase → Prop where
  /- Atoms. -/
  | name (text : String) : Derives .atom [(.identifier, text)] (.expr (.name .nowhere text))
  | number {kind : Token.Kind} (text : String) (h : kind = .integer ∨ kind = .float) :
      Derives .atom [(kind, text)] (.expr (.number .nowhere text))
  | unit (s t : String) :
      Derives .atom [(.left .round, s), (.right .round, t)] (.expr (.tuple .nowhere []))
  | group {ws : List Word} {e : Expr} (s t : String) (inner : Derives .exprList ws (.expr e)) :
      Derives .atom ((.left .round, s) :: (ws ++ [(.right .round, t)])) (.expr e)
  | list {ws : List Word} {es : List Expr} (s t : String) (inner : Derives .items ws (.exprs es)) :
      Derives .atom ((.left .square, s) :: (ws ++ [(.right .square, t)]))
        (.expr (.list .nowhere es))
  | dict {ws : List Word} {es : List (Expr × Expr)} (s t : String)
      (inner : Derives .entries ws (.entries es)) :
      Derives .atom ((.left .curly, s) :: (ws ++ [(.right .curly, t)])) (.expr (.dict .nowhere es))
  /- Calls and subscripts. A callee is a name, if need be in parentheses. -/
  | atom {ws : List Word} {e : Expr} (h : Derives .atom ws (.expr e)) :
      Derives .primary ws (.expr e)
  | call {ws vs : List Word} {callee : String} {args : List Expr} (s t : String)
      (head : Derives .primary ws (.expr (.name .nowhere callee)))
      (inner : Derives .items vs (.exprs args)) :
      Derives .primary (ws ++ (.left .round, s) :: (vs ++ [(.right .round, t)]))
        (.expr (.call .nowhere callee args))
  | subscript {ws vs : List Word} {base index : Expr} (s t : String)
      (head : Derives .primary ws (.expr base)) (inner : Derives .exprList vs (.expr index)) :
      Derives .primary (ws ++ (.left .square, s) :: (vs ++ [(.right .square, t)]))
        (.expr (.subscript .nowhere base index))
  /- Powers and signs. -/
  | primary {ws : List Word} {e : Expr} (h : Derives .primary ws (.expr e)) :
      Derives .power ws (.expr e)
  | pow {ws vs : List Word} {base exponent : Expr} (s : String)
      (left : Derives .primary ws (.expr base)) (right : Derives .factor vs (.expr exponent)) :
      Derives .power (ws ++ (.binary .pow, s) :: vs) (.expr (.binary .nowhere base .pow exponent))
  | power {ws : List Word} {e : Expr} (h : Derives .power ws (.expr e)) :
      Derives .factor ws (.expr e)
  | sign {ws : List Word} {kind : Token.Kind} {op : UnaryOp} {e : Expr} (s : String)
      (h : (kind, op) ∈ signs) (operand : Derives .factor ws (.expr e)) :
      Derives .factor ((kind, s) :: ws) (.expr (.unary .nowhere op e))
  /- Binary operators that group to the left. -/
  | operand {level : Level} {ws : List Word} {e : Expr}
      (h : Derives (.operand level) ws (.expr e)) : Derives (.level level) ws (.expr e)
  | binary {level : Level} {ws vs : List Word} {op : BinaryOp} {left right : Expr} (s : String)
      (h : op ∈ operators level) (head : Derives (.level level) ws (.expr left))
      (last : Derives (.operand level) vs (.expr right)) :
      Derives (.level level) (ws ++ (.binary op, s) :: vs) (.expr (.binary .nowhere left op right))
  /- Comparisons. -/
  | noLink : Derives .chain [] (.links [])
  | link {ws vs : List Word} {op : CompareOp} {e : Expr} {links : List (CompareOp × Expr)}
      (s : String) (head : Derives (.level .bitOr) ws (.expr e))
      (rest : Derives .chain vs (.links links)) :
      Derives .chain ((.compare op, s) :: (ws ++ vs)) (.links ((op, e) :: links))
  | uncompared {ws : List Word} {e : Expr} (h : Derives (.level .bitOr) ws (.expr e)) :
      Derives .comparison ws (.expr e)
  | compared {ws vs : List Word} {left e : Expr} {op : CompareOp}
      {links : List (CompareOp × Expr)} (head : Derives (.level .bitOr) ws (.expr left))
      (rest : Derives .chain vs (.links ((op, e) :: links))) :
      Derives .comparison (ws ++ vs) (.expr (.compare .nowhere left ((op, e) :: links)))
  /- Truth values. -/
  | comparison {ws : List Word} {e : Expr} (h : Derives .comparison ws (.expr e)) :
      Derives .inversion ws (.expr e)
  | inversion {ws : List Word} {kind : Token.Kind} {e : Expr} (s : String)
      (h : kind = .not ∨ kind = .bang) (operand : Derives .inversion ws (.expr e)) :
      Derives .inversion ((kind, s) :: ws) (.expr (.unary .nowhere .not e))
  | noPart {op : Connective} : Derives (.run op) [] (.exprs [])
  | part {op : Connective} {ws vs : List Word} {kind : Token.Kind} {e : Expr} {es : List Expr}
      (s : String) (h : kind ∈ connectives op) (head : Derives (.part op) ws (.expr e))
      (rest : Derives (.run op) vs (.exprs es)) :
      Derives (.run op) ((kind, s) :: (ws ++ vs)) (.exprs (e :: es))
  | unconnected {op : Connective} {ws : List Word} {e : Expr}
      (h : Derives (.part op) ws (.expr e)) : Derives (.connected op) ws (.expr e)
  | connected {op : Connective} {ws vs : List Word} {first e : Expr} {es : List Expr}
      (head : Derives (.part op) ws (.expr first))
      (rest : Derives (.run op) vs (.exprs (e :: es))) :
      Derives (.connected op) (ws ++ vs) (.expr (.connect .nowhere op (first :: e :: es)))
  /- Lists. A comma may stand behind the last part. -/
  | noItem : Derives .items [] (.exprs [])
  | lastItem {ws : List Word} {e : Expr} (h : Derives .expr ws (.expr e)) :
      Derives .items ws (.exprs [e])
  | item {ws vs : List Word} {e : Expr} {es : List Expr} (s : String)
      (head : Derives .expr ws (.expr e)) (rest : Derives .items vs (.exprs es)) :
      Derives .items (ws ++ (.comma, s) :: vs) (.exprs (e :: es))
  | noEntry : Derives .entries [] (.entries [])
  | lastEntry {ws vs : List Word} {key value : Expr} (s : String)
      (left : Derives .expr ws (.expr key)) (right : Derives .expr vs (.expr value)) :
      Derives .entries (ws ++ (.colon, s) :: vs) (.entries [(key, value)])
  | entry {ws vs us : List Word} {key value : Expr} {es : List (Expr × Expr)} (s t : String)
      (left : Derives .expr ws (.expr key)) (right : Derives .expr vs (.expr value))
      (rest : Derives .entries us (.entries es)) :
      Derives .entries (ws ++ (.colon, s) :: (vs ++ (.comma, t) :: us))
        (.entries ((key, value) :: es))
  | single {ws : List Word} {e : Expr} (h : Derives .expr ws (.expr e)) :
      Derives .exprList ws (.expr e)
  | tuple {ws vs : List Word} {e : Expr} {es : List Expr} (s : String)
      (head : Derives .expr ws (.expr e)) (rest : Derives .items vs (.exprs es)) :
      Derives .exprList (ws ++ (.comma, s) :: vs) (.expr (.tuple .nowhere (e :: es)))

/-- Names and subscripts can be assigned to, and tuples of what can be assigned to. -/
inductive Assignable : Expr → Prop where
  | name (span : Span) (text : String) : Assignable (.name span text)
  | subscript (span : Span) (base index : Expr) : Assignable (.subscript span base index)
  | tuple (span : Span) (items : List Expr) (h : ∀ e ∈ items, Assignable e) :
      Assignable (.tuple span items)

/-- The targets of an assignment, each with an equals sign behind it. -/
inductive Targets : List Word → List Expr → Prop where
  | nil : Targets [] []
  | cons {ws vs : List Word} {target : Expr} {targets : List Expr} (s : String)
      (head : Derives .exprList ws (.expr target)) (h : Assignable target)
      (rest : Targets vs targets) : Targets (ws ++ (.equal, s) :: vs) (target :: targets)

inductive Statement : List Word → Stmt → Prop where
  | eval {ws : List Word} {e : Expr} (h : Derives .exprList ws (.expr e)) :
      Statement ws (.eval .nowhere e)
  | assign {ws vs : List Word} {target value : Expr} {targets : List Expr}
      (left : Targets ws (target :: targets)) (right : Derives .exprList vs (.expr value)) :
      Statement (ws ++ vs) (.assign .nowhere (target :: targets) value)
  | augment {ws vs : List Word} {target value : Expr} {op : BinaryOp} (s : String)
      (left : Derives .exprList ws (.expr target)) (h : Assignable target)
      (right : Derives .expr vs (.expr value)) :
      Statement (ws ++ (.augmented op, s) :: vs) (.augment .nowhere target op value)

/-- Newlines and semicolons separate statements. -/
def IsSeparator (kind : Token.Kind) : Prop :=
  kind = .newline ∨ kind = .semicolon

/-- The statements of a program with one or more separators between them, and any number before the
first and behind the last. -/
inductive Body : List Word → List Stmt → Prop where
  | nil : Body [] []
  | skip {ws : List Word} {kind : Token.Kind} {ss : List Stmt} (s : String)
      (h : IsSeparator kind) (rest : Body ws ss) : Body ((kind, s) :: ws) ss
  | last {ws : List Word} {stmt : Stmt} (h : Statement ws stmt) : Body ws [stmt]
  | cons {ws vs : List Word} {kind : Token.Kind} {stmt : Stmt} {ss : List Stmt} (s : String)
      (head : Statement ws stmt) (h : IsSeparator kind) (rest : Body vs ss) :
      Body (ws ++ (kind, s) :: vs) (stmt :: ss)

/-! ### How words begin -/

/-- The kinds of words an atom begins with. -/
def startsAtom : Token.Kind → Bool
  | .identifier | .integer | .float | .left _ => true
  | _ => false

def isSign (kind : Token.Kind) : Bool :=
  signs.any fun sign => sign.1 = kind

/-- The kinds of words that a symbol for expressions can begin with. -/
def Symbol.starts : Symbol → Token.Kind → Bool
  | .atom, kind | .primary, kind | .power, kind => startsAtom kind
  | .factor, kind | .level _, kind | .comparison, kind => startsAtom kind || isSign kind
  | _, kind => startsAtom kind || isSign kind || kind = .not || kind = .bang

/-- Words that begin as a symbol for expressions can. -/
def Begins (symbol : Symbol) (ws : List Word) : Prop :=
  ∃ kind s vs, ws = (kind, s) :: vs ∧ symbol.starts kind

theorem Begins.append {symbol : Symbol} {ws : List Word} (h : Begins symbol ws) (vs : List Word) :
    Begins symbol (ws ++ vs) := by
  obtain ⟨kind, s, us, rfl, hk⟩ := h
  exact ⟨kind, s, us ++ vs, rfl, hk⟩

theorem Begins.mono {symbol symbol' : Symbol} {ws : List Word} (h : Begins symbol ws)
    (hs : ∀ kind, symbol.starts kind → symbol'.starts kind) : Begins symbol' ws := by
  obtain ⟨kind, s, us, rfl, hk⟩ := h
  exact ⟨kind, s, us, rfl, hs kind hk⟩

theorem Begins.ne_nil {symbol : Symbol} {ws : List Word} (h : Begins symbol ws) : ws ≠ [] := by
  obtain ⟨kind, s, us, rfl, -⟩ := h
  simp

theorem Symbol.starts_factor (kind : Token.Kind) (h : Symbol.power.starts kind) :
    Symbol.factor.starts kind := by
  simp_all [starts]

theorem Symbol.starts_operand {level : Level} (kind : Token.Kind)
    (h : (operand level).starts kind) : (Symbol.level level).starts kind := by
  cases level <;> exact h

theorem Symbol.starts_inversion (kind : Token.Kind) (h : Symbol.comparison.starts kind) :
    Symbol.inversion.starts kind := by
  simp_all [starts]

theorem Symbol.starts_part {op : Connective} (kind : Token.Kind)
    (h : (part op).starts kind) : (Symbol.connected op).starts kind := by
  cases op <;> exact h

theorem isSign_of_mem {kind : Token.Kind} {op : UnaryOp} (h : (kind, op) ∈ signs) :
    isSign kind :=
  List.any_eq_true.mpr ⟨_, h, by simp⟩

/-- The words of an expression begin as its symbol can. -/
theorem Derives.begins {symbol : Symbol} {ws : List Word} {phrase : Phrase}
    (h : Derives symbol ws phrase) {e : Expr} (he : phrase = .expr e) : Begins symbol ws := by
  induction h generalizing e with
  | name text => exact ⟨_, _, _, rfl, rfl⟩
  | number text hk => exact ⟨_, _, _, rfl, by rcases hk with rfl | rfl <;> rfl⟩
  | unit s t => exact ⟨_, _, _, rfl, rfl⟩
  | group s t => exact ⟨_, _, _, rfl, rfl⟩
  | list s t => exact ⟨_, _, _, rfl, rfl⟩
  | dict s t => exact ⟨_, _, _, rfl, rfl⟩
  | atom _ ih => exact ih he
  | call s t _ _ ih => exact (ih rfl).append _
  | subscript s t _ _ ih => exact (ih rfl).append _
  | primary _ ih => exact ih he
  | pow s _ _ ih => exact (ih rfl).append _
  | power _ ih => exact (ih he).mono Symbol.starts_factor
  | sign s hs => exact ⟨_, _, _, rfl, by simp [Symbol.starts, isSign_of_mem hs]⟩
  | operand _ ih => exact (ih he).mono Symbol.starts_operand
  | binary s _ _ _ ih => exact (ih rfl).append _
  | uncompared _ ih => exact ih he
  | compared _ _ ih => exact (ih rfl).append _
  | comparison _ ih => exact (ih he).mono Symbol.starts_inversion
  | inversion s hk => exact ⟨_, _, _, rfl, by rcases hk with rfl | rfl <;> rfl⟩
  | unconnected _ ih => exact (ih he).mono Symbol.starts_part
  | connected _ _ ih => exact ((ih rfl).mono Symbol.starts_part).append _
  | single _ ih => exact ih he
  | tuple s _ _ ih => exact (ih rfl).append _
  | noLink | link | noPart | part | noItem | lastItem | item | noEntry | lastEntry | entry =>
    cases he

theorem Statement.begins {ws : List Word} {stmt : Stmt} (h : Statement ws stmt) :
    Begins .exprList ws := by
  cases h with
  | eval h => exact h.begins rfl
  | assign left =>
    cases left with
    | cons s head => exact ((head.begins rfl).append _).append _
  | augment s left => exact (left.begins rfl).append _

theorem Begins.not_separator {symbol : Symbol} {kind : Token.Kind} {s : String} {ws : List Word}
    (h : Begins symbol ((kind, s) :: ws)) : ¬ IsSeparator kind := by
  obtain ⟨kind, s, us, heq, hk⟩ := h
  cases heq
  rintro (rfl | rfl) <;> cases symbol <;>
    simp [Symbol.starts, startsAtom, isSign, signs] at hk

theorem Body.eq_nil {ss : List Stmt} (h : Body [] ss) : ss = [] := by
  generalize heq : ([] : List Word) = ws at h
  cases h with
  | nil => rfl
  | skip => cases heq
  | last h => exact absurd heq.symm h.begins.ne_nil
  | cons => simp at heq

/-- A separator before the statements of a program may be left out. -/
theorem Body.of_separator {ws : List Word} {kind : Token.Kind} {s : String} {ss : List Stmt}
    (h : Body ((kind, s) :: ws) ss) (hk : IsSeparator kind) : Body ws ss := by
  generalize heq : (kind, s) :: ws = us at h
  cases h with
  | nil => cases heq
  | skip _ _ rest =>
    cases heq
    exact rest
  | last h => exact absurd hk (heq ▸ h.begins).not_separator
  | cons _ head => exact absurd hk (heq ▸ head.begins.append _).not_separator

end Grammar

end LoopNest
