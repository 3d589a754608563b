import LoopNest.Text.Word

/-! # Statement definitions

The loops that the engine writes call the statement with number `k` as `s<k>`. Each statement is
therefore defined as a C preprocessor function of the iterators. Since an argument can be any
expression, every iterator in the statement is put in parentheses; a scalar that the function gets as
a pointer is dereferenced.
-/

namespace LoopNest.Define

def protectIterators (iterators : List String) (statement : String) : String :=
  Text.wrapWords iterators "(" ")" statement

def dereference (pointers : List String) (statement : String) : String :=
  Text.wrapWords pointers "(*" ")" statement

def name (k : Nat) : String :=
  "s" ++ toString k

/-- The line that defines a statement. -/
def line (k : Nat) (iterators pointers : List String) (statement : String) : String :=
  "#define " ++ name k ++ "(" ++ ", ".intercalate iterators ++ ") \x7b " ++
    protectIterators iterators (dereference pointers statement) ++ "; \x7d"

/-- The line that takes the definition back. -/
def undefLine (k : Nat) : String :=
  "#undef " ++ name k

end LoopNest.Define
