/-! # Log lines and failure reports -/

namespace LoopNest.Command

inductive Severity where
  | error | warn | info
deriving DecidableEq, Inhabited

namespace Severity

def rank : Severity → Nat
  | error => 1
  | warn => 2
  | info => 3

/-- The name of a severity, five characters wide. -/
def label : Severity → String
  | error => "ERROR"
  | warn => "WARN "
  | info => "INFO "

end Severity

/-- The lines of a message with all but the first moved to the right. -/
def indent (margin : String) (message : String) : String :=
  String.ofList (message.toList.flatMap fun c => if c = '\n' then '\n' :: margin.toList else [c])

structure Entry where
  severity : Severity
  origin : String
  message : String
deriving DecidableEq, Inhabited

def Entry.text (e : Entry) : String :=
  "[" ++ e.severity.label ++ " " ++ e.origin ++ "] " ++ indent "    " e.message

/-- What went wrong, and what made it go wrong, each cause followed by its own. -/
structure Failure where
  message : String
  causes : List String
deriving DecidableEq, Inhabited

namespace Failure

/-- Several causes are numbered. -/
def numbered (n : Nat) : List String → List String
  | [] => []
  | c :: cs => ("    " ++ toString n ++ ": " ++ indent "       " c) :: numbered (n + 1) cs

def causeLines : List String → List String
  | [c] => ["    " ++ indent "    " c]
  | cs => numbered 0 cs

def text (f : Failure) : String :=
  let causes :=
    match f.causes with
    | [] => ""
    | cs => "\n\nCaused by:\n" ++ "\n".intercalate (causeLines cs)
  "Error: " ++ f.message ++ causes

end Failure

end LoopNest.Command
