import LoopNest.Command.Run

/-! # The command

Reads the files that the arguments name, runs, and prints or writes what comes out. No other program
is started from here, so every engine is answered as one that cannot be run; the emitted spaces,
definitions and dumps need none.
-/

namespace LoopNest.Command

/-- The reason behind an error of the system, whose codes are reported with either sign. -/
def fileErrorOf : IO.Error → FileError
  | .permissionDenied .. => .denied
  | .inappropriateType _ code _ =>
    if code = 21 || 0 - code = 21 then .isADirectory else .notADirectory
  | .invalidArgument .. => .nameTooLong
  | _ => .notFound

def readText (path : String) : IO (Except FileError String) := do
  try
    let bytes ← IO.FS.readBinFile path
    match String.fromUTF8? bytes with
    | some text => return .ok text
    | none => return .error .notText
  catch e => return .error (fileErrorOf e)

def writeText (path text : String) : IO (Option FileError) := do
  try
    IO.FS.writeFile path text
    return none
  catch e => return some (fileErrorOf e)

/-- The files that a run with these options reads. -/
def loadFiles (o : Options) : IO (String → Except FileError String) := do
  let source ← readText o.input
  match o.config with
  | none => return fun _ => source
  | some path =>
    let config ← readText path
    return fun p => if p = path then config else source

def start (args : List String) : IO Ending := do
  match Options.ofArguments args with
  | .error stop => return stop.ending
  | .ok o =>
    let outcome := run ⟨← loadFiles o, fun _ => .error .notFound⟩ o
    match outcome.write? o with
    | none => return outcome.ending o none
    | some (path, text) => return outcome.ending o (← writeText path text)

end LoopNest.Command

def main (args : List String) : IO UInt32 := do
  let ending ← LoopNest.Command.start args
  IO.eprint ending.errors
  IO.print ending.output
  return ending.exit.toUInt32
