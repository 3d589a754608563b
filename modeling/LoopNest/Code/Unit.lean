import LoopNest.Code.Define
import LoopNest.Code.Guard
import LoopNest.Code.Schedule
import LoopNest.Code.Statement
import LoopNest.Computation
import LoopNest.Config
import LoopNest.Domain.Rendering
import LoopNest.Engine.Request

/-! # Units of code

Each computation becomes a unit: the definitions of its statements, and a function whose body is the
loop nest that the engine answers. Its parameters are the constants of the space and the fields.
-/

namespace LoopNest

/-- A scalar that is only read is passed by value, every other field by a pointer. -/
def Field.parameter (config : Config) (f : Field) : String :=
  if f.isReadOnly then
    if f.isScalar then "const " ++ config.elemType ++ " " ++ f.name
    else "const " ++ config.elemType ++ " *" ++ f.name
  else config.elemType ++ " *" ++ f.name

/-- The parameters of the function of a unit. -/
def Config.parameters (config : Config) (constants : List String) (fields : Fields) :
    List String :=
  constants.map (fun c => "const " ++ config.indexType ++ " " ++ c) ++
    fields.map (Field.parameter config)

namespace Computation

/-- The lines that define the statements from number `k` on. -/
def definesFrom (iterators pointers : List String) :
    Nat → List Stmt → Except CompileError (List String)
  | _, [] => .ok []
  | k, s :: ss => do
    let text ← s.cText
    return Define.line k iterators pointers text :: (← definesFrom iterators pointers (k + 1) ss)

def defines (c : Computation) : Except CompileError (List String) :=
  definesFrom c.space.iterators c.fields.writtenScalars 0 c.body

/-- What the engine is asked. Every constant is assumed to be positive if the configuration says
so. -/
def request (config : Config) (c : Computation) : Request :=
  let space := c.space
  let constraints :=
    if config.assumePositive then space.writtenConstants.map (· ++ " >= 1") else []
  .single space.name space.engineText
    (Schedule.ofBody space.name space.iterators c.body.length) constraints

/-- The loop nest inside an answer. -/
def loops (config : Config) (answer : String) : String :=
  if config.stripGuard then Guard.strip answer
  else String.ofList (Text.trim answer.toList)

/-- The line that declares the loop variables, if there are any. -/
def declaration (config : Config) (c : Computation) : String :=
  match Schedule.temporaries c.space.iterators.length with
  | [] => ""
  | ts => "  " ++ config.indexType ++ " " ++ ", ".intercalate ts ++ ";\n"

/-- The lines that take the definitions back, each behind a newline. -/
def undefs (c : Computation) : String :=
  String.join ((List.range c.body.length).map fun k => "\n" ++ Define.undefLine k)

/-- The text of a unit around the answer of the engine. -/
def assemble (config : Config) (undef : Bool) (c : Computation) (defines : List String)
    (answer : String) : String :=
  let parameters := config.parameters c.space.writtenConstants c.fields
  "\n".intercalate defines ++ "\n\nvoid " ++ c.space.name ++ "(" ++
    ", ".intercalate parameters ++ ") \x7b\n" ++ declaration config c ++ loops config answer ++
    "\n\x7d" ++ if undef then undefs c else ""

/-- The text of a unit. The engine is asked only if every statement has a C text. -/
def unit (engine : Engine) (config : Config) (undef : Bool) (c : Computation) :
    Except CompileError String := do
  let defines ← c.defines
  let answer ← engine.scan (c.request config)
  return assemble config undef c defines answer

/-- The units of computations from number `k` on, where the `k`-th request goes to the engine
`engines k`. -/
def unitsFrom (engines : Nat → Engine) (config : Config) (undef : Bool) :
    Nat → List Computation → Except CompileError (List String)
  | _, [] => .ok []
  | k, c :: cs => do
    let text ← c.unit (engines k) config undef
    return text :: (← unitsFrom engines config undef (k + 1) cs)

/-- The code of some computations. Definitions are taken back if there are several units. -/
def code (engines : Nat → Engine) (config : Config) (cs : List Computation) :
    Except CompileError String := do
  let units ← unitsFrom engines config (1 < cs.length) 0 cs
  return "\n\n".intercalate units

/-- The requests that making units puts to the engines, up to the first failure. -/
def requestsFrom (engines : Nat → Engine) (config : Config) :
    Nat → List Computation → List Request
  | _, [] => []
  | k, c :: cs =>
    match c.defines with
    | .error _ => []
    | .ok _ =>
      let request := c.request config
      match (engines k).scan request with
      | .error _ => [request]
      | .ok _ => request :: requestsFrom engines config (k + 1) cs

end Computation

/-- The code for the computations that a text describes. -/
def compile (source : String) (engines : Nat → Engine) (config : Config) :
    Except CompileError String := do
  Computation.code engines config (← (lower source).result)

end LoopNest
