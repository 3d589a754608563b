import LoopNest.Text.Trim

/-! # The guard around a loop nest

An engine may put its loops under a condition that the constraints on the constants make superfluous.
-/

namespace LoopNest.Guard

/-- The text without blanks at its ends and, if it starts with `if`, only what stands between the
first left brace and the last right brace. -/
def strip (code : String) : String :=
  let cs := Text.trim code.toList
  if ['i', 'f'].isPrefixOf cs then
    match Text.between? '{' '}' cs with
    | some inside => String.ofList (Text.trim inside)
    | none => String.ofList cs
  else String.ofList cs

end LoopNest.Guard
