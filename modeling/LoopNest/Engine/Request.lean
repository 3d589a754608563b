import LoopNest.Error
import LoopNest.Table
import LoopNest.Text.Trim

/-! # Requests to a scanning engine

A scanning engine turns sets and schedules into loops. It is asked with texts and answers with a
text; an answer in which the word error occurs is a failure.
-/

namespace LoopNest

/-- The sets by name, the schedules of each, the names to scan, and what may be assumed. -/
structure Request where
  relations : Table String
  schedules : Table (List String)
  names : List String
  constraints : List String
deriving Inhabited

namespace Request

/-- The request for one set. -/
def single (name relation : String) (schedules constraints : List String) : Request :=
  ⟨[(name, relation)], [(name, schedules)], [name], constraints⟩

end Request

abbrev Engine := Request → String

namespace Engine

def errorWord : List Char :=
  ['e', 'r', 'r', 'o', 'r']

/-- The word error occurs, in letters of either case. Only ASCII letters have e, r and o as their
small letters. -/
def reportsError (output : String) : Bool :=
  Text.occursIn errorWord (output.toList.map Char.toLower)

/-- The answer of an engine, unless it reports an error. -/
def scan (engine : Engine) (request : Request) : Except CompileError String :=
  let output := engine request
  if reportsError output then .error (.engine output) else .ok output

end Engine

end LoopNest
