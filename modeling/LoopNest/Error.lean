import LoopNest.Program.Basic
import LoopNest.Token.Scan

/-! # Errors

Every stage that can fail says why with a cause; the wording is given once, by the `message`
functions below.
-/

namespace LoopNest

/-- The places where the grammar asks for one token and no other. -/
inductive Delimiter where
  | arguments | subscript | group | list | entry | dict
deriving DecidableEq, Inhabited

namespace Delimiter

/-- The token that has to stand there. -/
def kind : Delimiter → Token.Kind
  | arguments | group => .right .round
  | subscript | list => .right .square
  | entry => .colon
  | dict => .right .curly

def message : Delimiter → String
  | arguments => "Expected ')' after arguments"
  | subscript => "Expected ']' after subscript"
  | group => "Expected ')'"
  | list => "Expected ']'"
  | entry => "Expected ':' in dict display"
  | dict => "Expected '\x7d'"

end Delimiter

/-- Why a token list is no program. -/
inductive ParseError.Cause where
  | unterminated
  | missing (delimiter : Delimiter)
  | notCallable (form : Expr.Form)
  | expectedExpression
  | notAssignable (form : Expr.Form)
deriving DecidableEq, Inhabited

namespace ParseError.Cause

def message : Cause → String
  | unterminated => "Unexpected token"
  | missing d => d.message
  | notCallable form => "Cannot call a " ++ form.text
  | expectedExpression => "Expected expression"
  | notAssignable form => "Cannot assign to " ++ form.text

/-- The tokens that would have been right. -/
def expected : Cause → List String
  | unterminated => ["newline", ";"]
  | missing d => [d.kind.name]
  | _ => []

end ParseError.Cause

/-- A cause, the place it was met, and the token found there. -/
structure ParseError where
  cause : ParseError.Cause
  span : Span
  found : Option Token.Kind
deriving DecidableEq, Inhabited

def ParseError.message (e : ParseError) : String :=
  let expected :=
    match e.cause.expected with
    | [] => ""
    | names => " (expected: " ++ ", ".intercalate names ++ ")"
  let found :=
    match e.found with
    | none => ""
    | some kind => " (found: " ++ kind.name ++ ")"
  e.cause.message ++ " at " ++ e.span.text ++ expected ++ found

/-- Constructs that the language has and a domain, a body or the emitted code cannot hold. -/
inductive Unsupported where
  | constraint (form : Expr.Form) (span : Span)
  | disjunction (span : Span)
  | operand (form : Expr.Form) (span : Span)
  | targets (count : Nat)
  | tupleTarget (span : Span)
  | subscriptBase (form : Expr.Form) (span : Span)
  | component (form : Expr.Form) (span : Span)
  | argument (form : Expr.Form) (span : Span)
  | matrixProduct
  | tupleValue (span : Span)
  | listValue (span : Span)
  | dictValue (span : Span)
deriving DecidableEq, Inhabited

def Unsupported.message : Unsupported → String
  | constraint form span => form.text ++ " used as a domain constraint at " ++ span.text
  | disjunction span => "disjunction in a domain at " ++ span.text
  | operand form span => form.text ++ " in a domain expression at " ++ span.text
  | targets count => "assignment to " ++ toString count ++ " targets"
  | tupleTarget span => "tuple assignment target at " ++ span.text
  | subscriptBase form span => "subscript of a " ++ form.text ++ " at " ++ span.text
  | component form span => form.text ++ " in a subscript at " ++ span.text
  | argument form span => form.text ++ " as a call argument at " ++ span.text
  | matrixProduct => "matrix multiplication operator '@'"
  | tupleValue span => "tuple expression at " ++ span.text
  | listValue span => "list display at " ++ span.text
  | dictValue span => "dict display at " ++ span.text

/-- Ways in which a program is not a list of computations. -/
inductive Malformed where
  | headerTarget
  | headerValue (name : String) (form : Expr.Form)
  | headerAugmented
  | headerUnnamed
  | iteratorList (form : Expr.Form)
  | iteratorName (form : Expr.Form)
  | missingOperand
  | danglingOperand (name : String) (span : Span)
  | missingHeader (span : Span)
  | noComputations
  | noFields (name : String)
deriving DecidableEq, Inhabited

def Malformed.message : Malformed → String
  | headerTarget => "domain header must assign to exactly one name"
  | headerValue name form => "domain '" ++ name ++ "' must be a dict display, found " ++ form.text
  | headerAugmented => "domain header cannot be an augmented assignment"
  | headerUnnamed => "domain header must be an assignment"
  | iteratorList form => "iterator list expected, found " ++ form.text
  | iteratorName form => "iterator must be a name, found " ++ form.text
  | missingOperand => "relation is missing an operand"
  | danglingOperand name span =>
    "dangling operand after '^' in domain '" ++ name ++ "' at " ++ span.text
  | missingHeader span => "first statement at " ++ span.text ++ " must be a domain header"
  | noComputations => "no computations in source"
  | noFields name => "computation '" ++ name ++ "' accesses no fields"

/-- Why a file could not be read, written or run. -/
inductive FileError where
  | notFound | denied | notADirectory | isADirectory | nameTooLong | nulInName | notText
deriving DecidableEq, Inhabited

def FileError.message : FileError → String
  | notFound => "No such file or directory (os error 2)"
  | denied => "Permission denied (os error 13)"
  | notADirectory => "Not a directory (os error 20)"
  | isADirectory => "Is a directory (os error 21)"
  | nameTooLong => "File name too long (os error 36)"
  | nulInName => "nul byte found in provided data"
  | notText => "stream did not contain valid UTF-8"

/-- Everything that can end a compilation. -/
inductive CompileError where
  | scan (e : ScanError)
  | parse (e : ParseError)
  | unsupportedOperator (symbol : String)
  | unsupported (e : Unsupported)
  | malformed (e : Malformed)
  | engine (output : String)
  | file (e : FileError)
deriving DecidableEq, Inhabited

/-- What an engine reports is shown as it is; every other error says of which sort it is. -/
def CompileError.message : CompileError → String
  | scan e => "Lexer error: " ++ e.message
  | parse e => "Parse error: " ++ e.message
  | unsupportedOperator symbol => "Unsupported operator: " ++ symbol
  | unsupported e => "Unsupported construct: " ++ e.message
  | malformed e => "Structural assertion failed: " ++ e.message
  | engine output => output
  | file e => "I/O error: " ++ e.message

end LoopNest
