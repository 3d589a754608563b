/-! # Command line arguments

An argument is an option, the value of the option before it, or the input file. Long options take
their value behind an equals sign or as the next argument; short ones may be written together, and
the last of them takes the rest as its value. Behind `--` everything is a file.
-/

namespace LoopNest.Command

/-- What is written out. -/
inductive Emit where
  | code | space | macros | ir
deriving DecidableEq, Inhabited

def Emit.ofText? (s : String) : Option Emit :=
  if s = "code" then some .code
  else if s = "space" then some .space
  else if s = "macros" then some .macros
  else if s = "ir" then some .ir
  else none

structure Options where
  input : String
  output : Option String
  emit : Emit
  elemType : Option String
  indexType : Option String
  engine : Option String
  config : Option String
  verbosity : Nat
  quiet : Bool
deriving DecidableEq, Inhabited

/-- Reasons not to start: the arguments make no sense, or ask for something else. -/
inductive Stop where
  | usage | version | help
deriving DecidableEq, Inhabited

/-- The options that have a value. -/
inductive Key where
  | output | emit | elemType | indexType | engine | config
deriving DecidableEq, Inhabited

/-- The options that have none. -/
inductive Switch where
  | verbose | quiet | version | help
deriving DecidableEq, Inhabited

def Key.ofLong? (s : String) : Option Key :=
  if s = "output" then some .output
  else if s = "emit" then some .emit
  else if s = "elem-type" then some .elemType
  else if s = "index-type" then some .indexType
  else if s = "engine" then some .engine
  else if s = "config" then some .config
  else none

def Switch.ofLong? (s : String) : Option Switch :=
  if s = "verbose" then some .verbose
  else if s = "quiet" then some .quiet
  else if s = "version" then some .version
  else if s = "help" then some .help
  else none

def Key.ofShort? (c : Char) : Option Key :=
  if c = 'o' then some .output else none

def Switch.ofShort? (c : Char) : Option Switch :=
  if c = 'v' then some .verbose
  else if c = 'q' then some .quiet
  else if c = 'V' then some .version
  else if c = 'h' then some .help
  else none

/-- What the arguments read so far have set. -/
structure Given where
  input : Option String
  output : Option String
  emit : Option Emit
  elemType : Option String
  indexType : Option String
  engine : Option String
  config : Option String
  verbosity : Nat
  quiet : Bool
deriving DecidableEq, Inhabited

def Given.none : Given :=
  ⟨.none, .none, .none, .none, .none, .none, .none, 0, false⟩

/-- A value that has not been given before. -/
def once {α : Type} (old : Option α) (new : α) : Except Stop (Option α) :=
  if old.isSome then .error .usage else .ok (some new)

/-- A path is not empty. -/
def path (s : String) : Except Stop String :=
  if s.isEmpty then .error .usage else .ok s

namespace Given

def set (g : Given) (key : Key) (value : String) : Except Stop Given :=
  match key with
  | .output => do return { g with output := ← once g.output (← path value) }
  | .emit =>
    match Emit.ofText? value with
    | some emit => do return { g with emit := ← once g.emit emit }
    | .none => .error .usage
  | .elemType => do return { g with elemType := ← once g.elemType value }
  | .indexType => do return { g with indexType := ← once g.indexType value }
  | .engine => do return { g with engine := ← once g.engine value }
  | .config => do return { g with config := ← once g.config (← path value) }

def switch (g : Given) : Switch → Except Stop Given
  | .verbose => .ok { g with verbosity := g.verbosity + 1 }
  | .quiet => if g.quiet then .error .usage else .ok { g with quiet := true }
  | .version => .error .version
  | .help => .error .help

/-- There is one input file. -/
def file (g : Given) (s : String) : Except Stop Given := do
  return { g with input := ← once g.input (← path s) }

end Given

/-- What an argument looks like by its first characters. -/
inductive Shape where
  | escape
  | long (name : String) (value : Option String)
  | short (letters : List Char)
  | plain

/-- A long option with its value cut off at the first equals sign. -/
def cutLong (cs : List Char) : Shape :=
  let name := String.ofList (cs.takeWhile (· != '='))
  match cs.dropWhile (· != '=') with
  | _ :: value => .long name (some (String.ofList value))
  | [] => .long name none

def shapeOf (arg : String) : Shape :=
  match arg.toList with
  | ['-', '-'] => .escape
  | '-' :: '-' :: cs => cutLong cs
  | '-' :: c :: cs => .short (c :: cs)
  | _ => .plain

/-- Only a plain argument can be the value of an option before it. -/
def isPlain (arg : String) : Bool :=
  match shapeOf arg with
  | .plain => true
  | _ => false

/-- Short options written together. If the last one still needs a value, it is returned too. -/
def readShorts (g : Given) : List Char → Except Stop (Given × Option Key)
  | [] => .ok (g, none)
  | c :: cs =>
    match Switch.ofShort? c, Key.ofShort? c with
    | some s, _ => do readShorts (← g.switch s) cs
    | none, some key =>
      match cs with
      | [] => .ok (g, some key)
      | '=' :: value => do return (← g.set key (String.ofList value), none)
      | value => do return (← g.set key (String.ofList value), none)
    | none, none => .error .usage

/-- A long option. If it still needs a value, it is returned too. -/
def readLong (g : Given) (name : String) (value : Option String) :
    Except Stop (Given × Option Key) :=
  match Key.ofLong? name, Switch.ofLong? name, value with
  | some key, _, some v => do return (← g.set key v, none)
  | some key, _, none => .ok (g, some key)
  | none, some s, none => do return (← g.switch s, none)
  | none, _, _ => .error .usage

/-- One argument that is no value, and the option that the next argument is the value of. -/
def readArgument (g : Given) (arg : String) : Except Stop (Given × Option Key) :=
  match shapeOf arg with
  | .long name value => readLong g name value
  | .short letters => readShorts g letters
  | _ => do return (← g.file arg, none)

/-- The files behind `--`. -/
def readFiles (g : Given) : List String → Except Stop Given
  | [] => .ok g
  | arg :: rest => do readFiles (← g.file arg) rest

/-- The arguments in order, where `pending` is the option that awaits its value. -/
def readAll (g : Given) (pending : Option Key) : List String → Except Stop Given
  | [] => if pending.isSome then .error .usage else .ok g
  | arg :: rest =>
    match pending with
    | some key => if isPlain arg then do readAll (← g.set key arg) none rest else .error .usage
    | none =>
      if arg = "--" then readFiles g rest
      else do
        let (g, pending) ← readArgument g arg
        readAll g pending rest

/-- The options that a list of arguments gives. -/
def Options.ofArguments (args : List String) : Except Stop Options := do
  let g ← readAll Given.none none args
  match g.input with
  | none => .error .usage
  | some input =>
    return ⟨input, g.output, g.emit.getD .code, g.elemType, g.indexType, g.engine, g.config,
      g.verbosity, g.quiet⟩

end LoopNest.Command
