import LoopNest.Domain.Space

/-! # Fields

A field is an array or a scalar that the statements of a computation read and write. It knows each
access to it, in order. The fields of a computation are kept in the order in which they were first
met.
-/

namespace LoopNest

structure Access where
  index : List Term
  isWrite : Bool
deriving Inhabited

structure Field where
  name : String
  accesses : List Access
deriving Inhabited

namespace Field

def add (f : Field) (a : Access) : Field :=
  { f with accesses := f.accesses ++ [a] }

def isReadOnly (f : Field) : Bool :=
  f.accesses.all (!·.isWrite)

/-- A scalar is accessed, and never with an index. -/
def isScalar (f : Field) : Bool :=
  !f.accesses.isEmpty && f.accesses.all (·.index.isEmpty)

def symbols (f : Field) : List String :=
  f.accesses.flatMap fun a => Term.symbolsAll a.index

end Field

/-- Fields with distinct names. -/
abbrev Fields := List Field

namespace Fields

def has (fs : Fields) (name : String) : Bool :=
  fs.any (·.name = name)

/-- A field takes the place of the one with its name, or the last place. -/
def insert (fs : Fields) (f : Field) : Fields :=
  if has fs f.name then fs.map fun old => if old.name = f.name then f else old
  else fs ++ [f]

/-- Makes sure that a name has a field. -/
def touch (fs : Fields) (name : String) : Fields :=
  if has fs name then fs else fs ++ [⟨name, []⟩]

/-- Adds an access to the field with a name, which is new if there is none. -/
def record (fs : Fields) (name : String) (a : Access) : Fields :=
  (touch fs name).map fun f => if f.name = name then f.add a else f

/-- Scalars that are written reach the emitted function as pointers. -/
def writtenScalars (fs : Fields) : List String :=
  (fs.filter fun f => f.isScalar && !f.isReadOnly).map (·.name)

end Fields

end LoopNest
