import LoopNest.Error

/-! # Reading programs

The grammar is a ladder of precedences over the items of a text, read with one token of lookahead.
A fault of scanning is met only when the reading gets there. Expressions nest only inside brackets
and behind operators, so every loop and every descent takes at least one item, and the number of
items bounds them all.
-/

namespace LoopNest

/-- The token to be read next, the place of the last one read, and the items behind. -/
structure Cursor where
  current : Token
  last : Span
  rest : List Scan.Item
deriving DecidableEq, Inhabited

/-- Behind the current token there is another one, a fault, or nothing, where the cursor stays. -/
def Cursor.advance (c : Cursor) : Except CompileError Cursor :=
  match c.rest with
  | .token t :: rest => .ok ⟨t, c.current.span, rest⟩
  | .fault e :: _ => .error (.scan e)
  | [] => .ok ⟨c.current, c.current.span, []⟩

abbrev Parser := StateT Cursor (Except CompileError)

namespace Parser

def kind : Parser Token.Kind := do
  return (← get).current.kind

/-- The place of the current token. -/
def here : Parser Span := do
  return (← get).current.span

/-- The place of the last token read. -/
def last : Parser Span := do
  return (← get).last

/-- How many items lie behind the current token. -/
def remaining : Parser Nat := do
  return (← get).rest.length

def advance : Parser Unit := do
  set (← (← get).advance)

/-- Reads the current token if it is of the given kind. -/
def accept (expected : Token.Kind) : Parser Bool := do
  if (← kind) = expected then
    advance
    return true
  else
    return false

def fail {α : Type} (cause : ParseError.Cause) : Parser α := do
  let c ← get
  throw (.parse ⟨cause, c.current.span, some c.current.kind⟩)

/-- Reads the one token that can stand here. -/
def expect (delimiter : Delimiter) : Parser Unit := do
  if (← kind) = delimiter.kind then advance else fail (.missing delimiter)

/-! ### Lists and displays -/

/-- The kinds behind which an expression list may end after a comma. -/
def endsList : Token.Kind → Bool
  | .right _ | .equal | .augmented _ => true
  | kind => kind.isTerminator

/-- The expressions of a list behind its first, each after a comma. -/
def listTail {α : Type} (expr : Parser α) : Nat → Parser (List α)
  | 0 => return []
  | n + 1 => do
    if ← accept .comma then
      if endsList (← kind) then return []
      else
        let e ← expr
        return e :: (← listTail expr n)
    else
      return []

/-- Expressions with commas between them; a comma makes them a tuple. -/
def exprList (expr : Parser Expr) : Parser Expr := do
  let start ← here
  let first ← expr
  if (← kind) = .comma then
    let others ← listTail expr (← remaining)
    return .tuple (start.merge (← last)) (first :: others)
  else
    return first

/-- Expressions up to a closing bracket, a comma after the last one allowed. -/
def sequence {α : Type} (expr : Parser α) (close : Token.Kind) : Nat → Parser (List α)
  | 0 => return []
  | n + 1 => do
    if (← kind) = close then return []
    else
      let e ← expr
      if ← accept .comma then
        return e :: (← sequence expr close n)
      else
        return [e]

/-- The entries of a dict display. -/
def entries (expr : Parser Expr) : Nat → Parser (List (Expr × Expr))
  | 0 => return []
  | n + 1 => do
    if (← kind) = .right .curly then return []
    else
      let key ← expr
      expect .entry
      let value ← expr
      if ← accept .comma then
        return (key, value) :: (← entries expr n)
      else
        return [(key, value)]

/-! ### The ladder of precedences -/

/-- Names, numbers, groups and displays. A group is the expression inside it. -/
def atom (expr : Parser Expr) : Parser Expr := do
  let token := (← get).current
  let start := token.span
  match token.kind with
  | .identifier =>
    advance
    return .name start token.lexeme
  | .integer | .float =>
    advance
    return .number start token.lexeme
  | .left .round =>
    advance
    if ← accept (.right .round) then
      return .tuple (start.merge (← last)) []
    else
      let inner ← exprList expr
      expect .group
      return inner
  | .left .square =>
    advance
    let items ← sequence expr (.right .square) ((← remaining) + 1)
    expect .list
    return .list (start.merge (← last)) items
  | .left .curly =>
    advance
    let items ← entries expr ((← remaining) + 1)
    expect .dict
    return .dict (start.merge (← last)) items
  | _ => fail .expectedExpression

/-- The calls and subscripts behind an atom. Only a name can be called. -/
def trailers (expr : Parser Expr) : Nat → Expr → Parser Expr
  | 0, e => return e
  | n + 1, e => do
    match ← kind with
    | .left .round =>
      match e with
      | .name span callee =>
        advance
        let args ← sequence expr (.right .round) ((← remaining) + 1)
        expect .arguments
        trailers expr n (.call (span.merge (← last)) callee args)
      | _ => fail (.notCallable e.form)
    | .left .square =>
      advance
      let index ← exprList expr
      expect .subscript
      trailers expr n (.subscript (e.span.merge (← last)) e index)
    | _ => return e

def primary (expr : Parser Expr) : Parser Expr := do
  let e ← atom expr
  trailers expr ((← remaining) + 1) e

def signOf? : Token.Kind → Option UnaryOp
  | .binary .sub => some .neg
  | .binary .add => some .pos
  | .tilde => some .invert
  | _ => none

/-- Signs before a power; the exponent of a power may have signs of its own. -/
def factor (expr : Parser Expr) : Nat → Parser Expr
  | 0 => fail .expectedExpression
  | n + 1 => do
    let start ← here
    match signOf? (← kind) with
    | some op =>
      advance
      let operand ← factor expr n
      return .unary (start.merge operand.span) op operand
    | none =>
      let base ← primary expr
      if ← accept (.binary .pow) then
        return base.join .pow (← factor expr n)
      else
        return base

/-- The levels of the operators that associate to the left, the loosest first. -/
inductive Level where
  | bitOr | bitXor | bitAnd | shift | sum | product
deriving DecidableEq, Inhabited

/-- The operators of a level. -/
def Level.op? : Level → Token.Kind → Option BinaryOp
  | .bitOr, .binary .bitOr => some .bitOr
  | .bitXor, .binary .bitXor => some .bitXor
  | .bitAnd, .binary .bitAnd => some .bitAnd
  | .shift, .binary .shiftLeft => some .shiftLeft
  | .shift, .binary .shiftRight => some .shiftRight
  | .sum, .binary .add => some .add
  | .sum, .binary .sub => some .sub
  | .product, .binary .mult => some .mult
  | .product, .binary .div => some .div
  | .product, .binary .floorDiv => some .floorDiv
  | .product, .binary .mod => some .mod
  | .product, .binary .matMult => some .matMult
  | _, _ => none

/-- The operators of one level and their right operands, applied to what stands to their left. -/
def operations (level : Level) (operand : Parser Expr) : Nat → Expr → Parser Expr
  | 0, left => return left
  | n + 1, left => do
    match level.op? (← kind) with
    | some op =>
      advance
      let right ← operand
      operations level operand n (left.join op right)
    | none => return left

def leftAssociative (level : Level) (operand : Parser Expr) : Parser Expr := do
  let left ← operand
  operations level operand (← remaining) left

/-- Everything that binds tighter than a comparison. -/
def arithmetic (expr : Parser Expr) : Parser Expr :=
  let signed : Parser Expr := do factor expr ((← remaining) + 1)
  [Level.product, .sum, .shift, .bitAnd, .bitXor, .bitOr].foldl
    (fun operand level => leftAssociative level operand) signed

def comparisonOf? : Token.Kind → Option CompareOp
  | .compare op => some op
  | _ => none

/-- The links of a chain of comparisons. -/
def chain (operand : Parser Expr) : Nat → Parser (List (CompareOp × Expr))
  | 0 => return []
  | n + 1 => do
    match comparisonOf? (← kind) with
    | some op =>
      advance
      let e ← operand
      return (op, e) :: (← chain operand n)
    | none => return []

/-- A chain of comparisons is one expression, however long it is. -/
def comparison (expr : Parser Expr) : Parser Expr := do
  let left ← arithmetic expr
  match ← chain (arithmetic expr) (← remaining) with
  | [] => return left
  | links => return .compare (left.span.merge (← last)) left links

def isNot (kind : Token.Kind) : Bool :=
  kind = .not || kind = .bang

def negation (expr : Parser Expr) : Nat → Parser Expr
  | 0 => fail .expectedExpression
  | n + 1 => do
    let start ← here
    if isNot (← kind) then
      advance
      let operand ← negation expr n
      return .unary (start.merge operand.span) .not operand
    else
      comparison expr

/-- Each connective has a word and a symbol. -/
def isConnective : Connective → Token.Kind → Bool
  | .and, kind => kind = .and || kind = .ampAmp
  | .or, kind => kind = .or || kind = .pipePipe

/-- The operands of one connective behind its first. -/
def operands {α : Type} (op : Connective) (operand : Parser α) : Nat → Parser (List α)
  | 0 => return []
  | n + 1 => do
    if isConnective op (← kind) then
      advance
      let e ← operand
      return e :: (← operands op operand n)
    else
      return []

/-- The span from the first to the last of some expressions. -/
def spanOf (first : Expr) (others : List Expr) : Span :=
  first.span.merge ((others.getLast?.getD first).span)

/-- Operands joined by one connective make one expression. -/
def connected (op : Connective) (operand : Parser Expr) : Parser Expr := do
  let first ← operand
  match ← operands op operand (← remaining) with
  | [] => return first
  | others => return .connect (spanOf first others) op (first :: others)

/-- An expression in which expressions inside brackets are read by `expr`. -/
def layer (expr : Parser Expr) : Parser Expr :=
  connected .or (connected .and (do negation expr ((← remaining) + 1)))

/-- An expression with brackets nested less than `n` deep. -/
def expression : Nat → Parser Expr
  | 0 => fail .expectedExpression
  | n + 1 => layer (expression n)

/-! ### Statements -/

mutual

/-- Names, subscripts and tuples of them can be assigned to. This is the first part of a target that
cannot. -/
def unassignable? : Expr → Option Expr
  | .name .. | .subscript .. => none
  | .tuple _ items => firstUnassignable? items
  | e => some e

def firstUnassignable? : List Expr → Option Expr
  | [] => none
  | e :: es =>
    match unassignable? e with
    | some bad => some bad
    | none => firstUnassignable? es

end

def checkTargets (targets : List Expr) : Parser Unit :=
  match firstUnassignable? targets with
  | none => return ()
  | some e => throw (.parse ⟨.notAssignable e.form, e.span, none⟩)

/-- The expression lists behind a first one, each after an equals sign. -/
def values (expr : Parser Expr) : Nat → Parser (List Expr)
  | 0 => return []
  | n + 1 => do
    if ← accept .equal then
      let e ← exprList expr
      return e :: (← values expr n)
    else
      return []

/-- In `a = b = c` every expression but the last is a target. -/
def statement (expr : Parser Expr) : Parser Stmt := do
  let start ← here
  let first ← exprList expr
  match ← kind with
  | .augmented op =>
    checkTargets [first]
    advance
    let value ← expr
    return .augment (start.merge (← last)) first op value
  | _ =>
    match ← values expr (← remaining) with
    | [] => return .eval (start.merge (← last)) first
    | v :: vs =>
      let targets := (first :: v :: vs).dropLast
      let value := vs.getLastD v
      checkTargets targets
      return .assign (start.merge (← last)) targets value

/-- Statements end at newlines and semicolons, of which there may be any number. -/
def skipTerminators : Nat → Parser Unit
  | 0 => return ()
  | n + 1 => do
    let k ← kind
    if k = .newline || k = .semicolon then
      advance
      skipTerminators n

def statements (expr : Parser Expr) : Nat → Parser (List Stmt)
  | 0 => return []
  | n + 1 => do
    skipTerminators (← remaining)
    if (← kind) = .endOfInput then return []
    else
      let s ← statement expr
      if (← kind).isTerminator then
        return s :: (← statements expr n)
      else
        fail .unterminated

def program : Parser Program := do
  let start ← here
  let n ← remaining
  let body ← statements (expression (n + 1)) (n + 1)
  return ⟨body, start.merge (← last)⟩

end Parser

namespace Program

/-- The program that the items of a text form. -/
def ofItems : List Scan.Item → Except CompileError Program
  | [] => .ok ⟨[], Span.nowhere⟩
  | .fault e :: _ => .error (.scan e)
  | .token t :: rest => (Parser.program.run ⟨t, t.span, rest⟩).map (·.1)

/-- The program a text describes. -/
def parse (source : String) : Except CompileError Program :=
  ofItems (Scan.items source)

end Program

end LoopNest
