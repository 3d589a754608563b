import LoopNest.Program.Parser

/-!
# Descents

The parser bounds each of its loops and descents by the number of items ahead. A descent reads by
the same grammar without such bounds: it asks a scanner for one item after the other and goes on for
as long as the tokens lead it on. All that is limited is how deep its functions may be nested, a loop
being nested once more with every pass. At the limit there is no value, neither a result nor an
error, so what is cut off there cannot be taken for something that has ended. A descent keeps a
journal of its calls of the scanner, of its passes through loops and of the expressions it reads
inside others.
-/

namespace LoopNest

/-- What a descent has done so far. -/
structure Descent.Journal where
  /-- The token that was current at each call of the scanner. At the first call there was none. -/
  calls : List (Option Token)
  /-- How many calls each pass through a loop made. -/
  passes : List Nat
  /-- How many calls were made between the start of an expression and that of one inside it. -/
  nestings : List Nat

/-- A place in a descent. -/
structure Descent.State where
  scanner : Scanner
  current : Token
  last : Span
  /-- How many calls were made before each expression that is being read, the innermost first. -/
  begun : List Nat
  journal : Journal

abbrev Descent := ExceptT CompileError (StateT Descent.State Option)

namespace Descent

/-- The journal of the first call. -/
def Journal.start : Journal :=
  ⟨[none], [], []⟩

/-- The place where the first call has led to a token. -/
def State.start (scanner : Scanner) (t : Token) : State :=
  ⟨scanner, t, t.span, [], .start⟩

/-- How many calls of the scanner have been made. -/
def State.count (s : State) : Nat :=
  s.journal.calls.length

def State.ask (s : State) : State :=
  { s with
    scanner := s.scanner.next.2
    journal.calls := s.journal.calls ++ [some s.current] }

def State.read (s : State) (t : Token) : State :=
  { s.ask with current := t, last := s.current.span }

/-- Calls the scanner, which answers with a token to be read or a fault. -/
def State.next (s : State) : Except CompileError Unit × State :=
  match s.scanner.next.1 with
  | .token t => (.ok (), s.read t)
  | .fault e => (.error (.scan e), s.ask)

/-- Notes the calls of a pass that began after the given number of them. -/
def State.pass (s : State) (since : Nat) : State :=
  { s with journal.passes := s.journal.passes ++ [s.count - since] }

/-- Notes that an expression begins, and its distance from the start of the one around it. -/
def State.enter (s : State) : State :=
  { s with
    begun := s.count :: s.begun
    journal.nestings := s.journal.nestings ++ (s.begun.head?.map (s.count - ·)).toList }

/-- The innermost expression ends. -/
def State.leave (s : State) : State :=
  { s with begun := s.begun.tail }

def count : Descent Nat := do
  return (← get).count

def pass (since : Nat) : Descent Unit :=
  modify (·.pass since)

def enter : Descent Unit :=
  modify State.enter

def leave : Descent Unit :=
  modify State.leave

def kind : Descent Token.Kind := do
  return (← get).current.kind

def here : Descent Span := do
  return (← get).current.span

def last : Descent Span := do
  return (← get).last

def advance : Descent Unit :=
  fun s => some s.next

def accept (expected : Token.Kind) : Descent Bool := do
  if (← kind) = expected then
    advance
    return true
  else
    return false

def fail {α : Type} (cause : ParseError.Cause) : Descent α := do
  let s ← get
  throw (.parse ⟨cause, s.current.span, some s.current.kind⟩)

def expect (delimiter : Delimiter) : Descent Unit := do
  if (← kind) = delimiter.kind then advance else fail (.missing delimiter)

/-- There is no value where functions are nested too deep. -/
def never {α : Type} : Descent α :=
  fun _ => none

/-- The levels of the operators that associate to the left, each before those that bind tighter. -/
def levels : List Parser.Level :=
  [.bitOr, .bitXor, .bitAnd, .shift, .sum, .product]

mutual

/-- The expressions of a list behind its first, each after a comma. -/
def listTail : Nat → Descent (List Expr)
  | 0 => never
  | depth + 1 => do
    let since ← count
    if ← accept .comma then
      if Parser.endsList (← kind) then
        pass since
        return []
      else
        let e ← expression depth
        pass since
        return e :: (← listTail depth)
    else
      return []

def exprList : Nat → Descent Expr
  | 0 => never
  | depth + 1 => do
    let start ← here
    let first ← expression depth
    if (← kind) = .comma then
      let others ← listTail depth
      return .tuple (start.merge (← last)) (first :: others)
    else
      return first

def sequence (close : Token.Kind) : Nat → Descent (List Expr)
  | 0 => never
  | depth + 1 => do
    let since ← count
    if (← kind) = close then return []
    else
      let e ← expression depth
      if ← accept .comma then
        pass since
        return e :: (← sequence close depth)
      else
        pass since
        return [e]

def entries : Nat → Descent (List (Expr × Expr))
  | 0 => never
  | depth + 1 => do
    let since ← count
    if (← kind) = .right .curly then return []
    else
      let key ← expression depth
      expect .entry
      let value ← expression depth
      if ← accept .comma then
        pass since
        return (key, value) :: (← entries depth)
      else
        pass since
        return [(key, value)]

def atom : Nat → Descent Expr
  | 0 => never
  | depth + 1 => do
    let token := (← get).current
    let start := token.span
    match token.kind with
    | .identifier =>
      advance
      return .name start token.lexeme
    | .integer | .float =>
      advance
      return .number start token.lexeme
    | .left .round =>
      advance
      if ← accept (.right .round) then
        return .tuple (start.merge (← last)) []
      else
        let inner ← exprList depth
        expect .group
        return inner
    | .left .square =>
      advance
      let items ← sequence (.right .square) depth
      expect .list
      return .list (start.merge (← last)) items
    | .left .curly =>
      advance
      let items ← entries depth
      expect .dict
      return .dict (start.merge (← last)) items
    | _ => fail .expectedExpression

/-- The calls and subscripts behind an atom. -/
def trailers : Nat → Expr → Descent Expr
  | 0, _ => never
  | depth + 1, e => do
    let since ← count
    match ← kind with
    | .left .round =>
      match e with
      | .name span callee =>
        advance
        let args ← sequence (.right .round) depth
        expect .arguments
        let stop ← last
        pass since
        trailers depth (.call (span.merge stop) callee args)
      | _ => fail (.notCallable e.form)
    | .left .square =>
      advance
      let index ← exprList depth
      expect .subscript
      let stop ← last
      pass since
      trailers depth (.subscript (e.span.merge stop) e index)
    | _ => return e

def primary : Nat → Descent Expr
  | 0 => never
  | depth + 1 => do
    let e ← atom depth
    trailers depth e

def factor : Nat → Descent Expr
  | 0 => never
  | depth + 1 => do
    let start ← here
    match Parser.signOf? (← kind) with
    | some op =>
      advance
      let operand ← factor depth
      return .unary (start.merge operand.span) op operand
    | none =>
      let base ← primary depth
      if ← accept (.binary .pow) then
        return base.join .pow (← factor depth)
      else
        return base

/-- The operators of a level and their right operands, which are of the tighter levels. -/
def operations (level : Parser.Level) (tighter : List Parser.Level) : Nat → Expr → Descent Expr
  | 0, _ => never
  | depth + 1, left => do
    let since ← count
    match level.op? (← kind) with
    | some op =>
      advance
      let right ← leftAssociative tighter depth
      pass since
      operations level tighter depth (left.join op right)
    | none => return left

/-- An expression of the first of the levels; below the last one there are factors. -/
def leftAssociative (levels : List Parser.Level) : Nat → Descent Expr
  | 0 => never
  | depth + 1 =>
    match levels with
    | [] => factor depth
    | level :: tighter => do
      let left ← leftAssociative tighter depth
      operations level tighter depth left

/-- The links of a chain of comparisons. -/
def chain : Nat → Descent (List (CompareOp × Expr))
  | 0 => never
  | depth + 1 => do
    let since ← count
    match Parser.comparisonOf? (← kind) with
    | some op =>
      advance
      let e ← leftAssociative levels depth
      pass since
      return (op, e) :: (← chain depth)
    | none => return []

def comparison : Nat → Descent Expr
  | 0 => never
  | depth + 1 => do
    let left ← leftAssociative levels depth
    match ← chain depth with
    | [] => return left
    | links => return .compare (left.span.merge (← last)) left links

def negation : Nat → Descent Expr
  | 0 => never
  | depth + 1 => do
    let start ← here
    if Parser.isNot (← kind) then
      advance
      let operand ← negation depth
      return .unary (start.merge operand.span) .not operand
    else
      comparison depth

/-- The operands of one connective behind its first. -/
def operands (op : Connective) : Nat → Descent (List Expr)
  | 0 => never
  | depth + 1 => do
    let since ← count
    if Parser.isConnective op (← kind) then
      advance
      let e ← operand op depth
      pass since
      return e :: (← operands op depth)
    else
      return []

/-- What the connective `or` joins are expressions joined by `and`. -/
def operand (op : Connective) : Nat → Descent Expr
  | 0 => never
  | depth + 1 =>
    match op with
    | .and => negation depth
    | .or => connected .and depth

def connected (op : Connective) : Nat → Descent Expr
  | 0 => never
  | depth + 1 => do
    let first ← operand op depth
    match ← operands op depth with
    | [] => return first
    | others => return .connect (Parser.spanOf first others) op (first :: others)

def expression : Nat → Descent Expr
  | 0 => never
  | depth + 1 => do
    enter
    let e ← connected .or depth
    leave
    return e

end

/-! ### Statements -/

def checkTargets (targets : List Expr) : Descent Unit :=
  match Parser.firstUnassignable? targets with
  | none => return ()
  | some e => throw (.parse ⟨.notAssignable e.form, e.span, none⟩)

/-- The expression lists behind a first one, each after an equals sign. -/
def values : Nat → Descent (List Expr)
  | 0 => never
  | depth + 1 => do
    let since ← count
    if ← accept .equal then
      let e ← exprList depth
      pass since
      return e :: (← values depth)
    else
      return []

def statement (depth : Nat) : Descent Stmt := do
  let start ← here
  let first ← exprList depth
  match ← kind with
  | .augmented op =>
    checkTargets [first]
    advance
    let value ← expression depth
    return .augment (start.merge (← last)) first op value
  | _ =>
    match ← values depth with
    | [] => return .eval (start.merge (← last)) first
    | v :: vs =>
      let targets := (first :: v :: vs).dropLast
      let value := vs.getLastD v
      checkTargets targets
      return .assign (start.merge (← last)) targets value

def skipTerminators : Nat → Descent Unit
  | 0 => never
  | depth + 1 => do
    let since ← count
    let k ← kind
    if k = .newline || k = .semicolon then
      advance
      pass since
      skipTerminators depth

def statements : Nat → Descent (List Stmt)
  | 0 => never
  | depth + 1 => do
    let since ← count
    skipTerminators depth
    if (← kind) = .endOfInput then return []
    else
      let s ← statement depth
      if (← kind).isTerminator then
        pass since
        return s :: (← statements depth)
      else
        fail .unterminated

def program (depth : Nat) : Descent Program := do
  let start ← here
  let body ← statements depth
  return ⟨body, start.merge (← last)⟩

/-- A descent through a text, from the first call of its scanner on: its result and its journal, if
it ends at the given depth. -/
def run (depth : Nat) (source : String) : Option (Except CompileError Program × Journal) :=
  let first := (Scanner.ofText source.toList).next
  match first.1 with
  | .token t => (program depth (.start first.2 t)).map fun r => (r.1, r.2.journal)
  | .fault e => some (.error (.scan e), .start)

end Descent

end LoopNest
