/-! # Tables

A table maps names to values and keeps the order in which the names were first entered.
-/

namespace LoopNest

abbrev Table (α : Type) := List (String × α)

namespace Table

variable {α : Type}

/-- A name that has a value keeps its place and gets the new value. -/
def insert (t : Table α) (name : String) (value : α) : Table α :=
  if t.any (·.1 = name) then t.map fun e => if e.1 = name then (name, value) else e
  else t ++ [(name, value)]

def ofList (entries : List (String × α)) : Table α :=
  entries.foldl (fun t e => insert t e.1 e.2) []

def find? (t : Table α) (name : String) : Option α :=
  (List.find? (·.1 = name) t).map (·.2)

def names (t : Table α) : List String :=
  t.map (·.1)

end Table

end LoopNest
