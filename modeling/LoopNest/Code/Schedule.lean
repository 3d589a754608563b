/-! # Schedules

A schedule maps the points of a space to times, which are compared lexicographically. Statement `k`
at the point `(i, j)` has the time `(0, i, 0, j, k)`, so the statements at one point follow each other
in their order.
-/

namespace LoopNest.Schedule

def name (k : Nat) (space : String) : String :=
  "r" ++ toString k ++ space

/-- The coordinates of the time of statement `k`. -/
def time (iterators : List String) (k : Nat) : List String :=
  iterators.flatMap (fun i => ["0", i]) ++ [toString k]

def text (space : String) (iterators : List String) (k : Nat) : String :=
  name k space ++ " := \x7b[" ++ ",".intercalate iterators ++ "] -> [" ++
    ", ".intercalate (time iterators k) ++ "]\x7d"

/-- The schedules of the statements of a body; an empty body has one. -/
def ofBody (space : String) (iterators : List String) (statements : Nat) : List String :=
  (List.range (max statements 1)).map (text space iterators)

/-- The loop variables of the engine: every second coordinate of a time has one. -/
def temporaries (count : Nat) : List String :=
  (List.range count).map fun n => "t" ++ toString (2 * (n + 1))

end LoopNest.Schedule
