import LoopNest.Json.Reader

/-! # Configuration

The types in the emitted code, what is assumed and stripped, and the program that scans. As JSON a
configuration is an object in which every member may be missing and others are passed over, or an
array of the first members in their order.
-/

namespace LoopNest

structure Config where
  elemType : String
  indexType : String
  assumePositive : Bool
  stripGuard : Bool
  enginePath : String
deriving DecidableEq, Inhabited

namespace Config

def standard : Config :=
  ⟨"float", "int", true, true, "omegacalc"⟩

/-- The members of a configuration. -/
inductive Key where
  | elemType | indexType | assumePositive | stripGuard | enginePath
deriving DecidableEq, Inhabited

namespace Key

def text : Key → String
  | elemType => "elem_type"
  | indexType => "index_type"
  | assumePositive => "assume_positive"
  | stripGuard => "strip_guard"
  | enginePath => "engine_path"

def all : List Key :=
  [elemType, indexType, assumePositive, stripGuard, enginePath]

def ofText? (s : String) : Option Key :=
  all.find? (·.text = s)

end Key

/-- A member set to a value, which has to be of its type. -/
def set? (c : Config) (key : Key) (value : Json) : Option Config :=
  match key, value with
  | .elemType, .string s => some { c with elemType := s }
  | .indexType, .string s => some { c with indexType := s }
  | .assumePositive, .bool b => some { c with assumePositive := b }
  | .stripGuard, .bool b => some { c with stripGuard := b }
  | .enginePath, .string s => some { c with enginePath := s }
  | _, _ => none

/-- Sets the members of an object in turn; `seen` are the keys that must not come again. -/
def ofMembers? (c : Config) (seen : List Key) : List (String × Json) → Option Config
  | [] => some c
  | (name, value) :: rest =>
    match Key.ofText? name with
    | none => ofMembers? c seen rest
    | some key =>
      if key ∈ seen then none
      else do ofMembers? (← c.set? key value) (key :: seen) rest

/-- Sets members in their order, at most as many as there are. -/
def ofItems? (c : Config) : List Key → List Json → Option Config
  | _, [] => some c
  | [], _ :: _ => none
  | key :: keys, value :: values => do ofItems? (← c.set? key value) keys values

def ofJson? : Json → Option Config
  | .object members => ofMembers? standard [] members
  | .array items => ofItems? standard Key.all items
  | _ => none

def ofText? (text : String) : Option Config := do
  ofJson? (← Json.parse? text)

def toJson (c : Config) : Json :=
  .object
    [(Key.elemType.text, .string c.elemType), (Key.indexType.text, .string c.indexType),
     (Key.assumePositive.text, .bool c.assumePositive), (Key.stripGuard.text, .bool c.stripGuard),
     (Key.enginePath.text, .string c.enginePath)]

end Config

end LoopNest
