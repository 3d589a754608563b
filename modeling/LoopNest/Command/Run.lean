import LoopNest.Code.Unit
import LoopNest.Command.Arguments
import LoopNest.Command.Log
import LoopNest.Dump
import LoopNest.Engine.Script
import LoopNest.Text.Quoted

/-! # A run of the command

A run reads a configuration and a description and makes one text out of them. What it needs from its
surroundings, the files and the programs, it is given; what it does to them, a list of log lines and
a text to print or to write, it returns.
-/

namespace LoopNest

/-- An error found by a part of the compiler is the cause of the error that it ends with. -/
def CompileError.causes : CompileError → List String
  | .scan e => [e.message]
  | .parse e => [e.message]
  | .file e => [e.message]
  | _ => []

namespace Command

def programName : String :=
  "omegagen"

def release : String :=
  "0.1.0"

/-- Where a run takes place. -/
structure Surroundings where
  read : String → Except FileError String
  programs : Script.Programs

/-- What a run has to say and the text it made. -/
structure Outcome where
  log : List Entry
  result : Except Failure String

def info (message : String) : Entry :=
  ⟨.info, programName, message⟩

def error (message : String) : Entry :=
  ⟨.error, programName, message⟩

def warning (w : Warning) : Entry :=
  ⟨.warn, programName ++ "::ir::nodes", w.message⟩

/-- An error as the end of a run. -/
def failure (e : CompileError) : Failure :=
  ⟨e.message, e.causes⟩

/-- An error met while something was done. -/
def failureIn (context : String) (e : CompileError) : Failure :=
  ⟨context, e.message :: e.causes⟩

/-- The configuration in a file, or the standard one. -/
def configFile (read : String → Except FileError String) : Option String → Except Failure Config
  | none => .ok Config.standard
  | some path =>
    match read path with
    | .error e => .error ⟨"Failed to read config file: " ++ Text.quote path, [e.message]⟩
    | .ok text =>
      match Config.ofText? text with
      | some config => .ok config
      | none => .error ⟨"Invalid config file: " ++ Text.quote path, ["not a configuration"]⟩

/-- Options on the command line go before those in the file. -/
def override (o : Options) (c : Config) : Config :=
  { c with
    elemType := o.elemType.getD c.elemType
    indexType := o.indexType.getD c.indexType
    enginePath := o.engine.getD c.enginePath }

/-- The definitions of all statements, computation after computation. -/
def allDefines : List Computation → Except CompileError (List String)
  | [] => .ok []
  | c :: cs => do
    let lines ← c.defines
    return lines ++ (← allDefines cs)

/-- The code of computations, with what is said while it is made. -/
def emitCode (programs : Script.Programs) (config : Config) (cs : List Computation) : Outcome :=
  let start := info ("Generating code for " ++ toString cs.length ++ " computation(s)...")
  let missing :=
    match programs.find config.enginePath with
    | .ok _ => []
    | .error _ => [error ("Omega calculator '" ++ config.enginePath ++ "' not found")]
  match Computation.code (fun _ => Script.engine programs config.enginePath) config cs with
  | .ok text => ⟨start :: missing, .ok text⟩
  | .error e =>
    ⟨start :: missing ++ [error ("Code generation failed: " ++ e.message)], .error (failure e)⟩

def emit (programs : Script.Programs) (config : Config) (cs : List Computation) :
    Emit → Outcome
  | .space => ⟨[], .ok ("\n".intercalate (cs.map (·.space.sourceText)))⟩
  | .macros => ⟨[], ((allDefines cs).map ("\n".intercalate)).mapError failure⟩
  | .ir => ⟨[], .ok (Computation.dump cs)⟩
  | .code => emitCode programs config cs

/-- Reads the description and makes the text. -/
def compileFile (s : Surroundings) (o : Options) (config : Config) : Outcome :=
  let context := "Failed to compile input file: " ++ Text.quote o.input
  match s.read o.input with
  | .error e => ⟨[], .error (failureIn context (.file e))⟩
  | .ok source =>
    let lowered := lower source
    let warnings := lowered.warnings.map warning
    match lowered.result with
    | .error e => ⟨warnings, .error (failureIn context e)⟩
    | .ok cs =>
      let rest := emit s.programs config cs o.emit
      ⟨warnings ++ rest.log, rest.result⟩

def run (s : Surroundings) (o : Options) : Outcome :=
  let start := info (programName ++ " v" ++ release)
  match configFile s.read o.config with
  | .error f => ⟨[start], .error f⟩
  | .ok config =>
    let rest := compileFile s o (override o config)
    ⟨start :: info "Parsing..." :: rest.log, rest.result⟩

/-! ### How a run ends -/

/-- What a command leaves behind: its exit code and what it printed. -/
structure Ending where
  exit : Nat
  output : String
  errors : String
deriving DecidableEq, Inhabited

/-- The severest entries are always shown, others as the options ask for. -/
def threshold (o : Options) : Nat :=
  if o.quiet then Severity.error.rank
  else if o.verbosity = 0 then Severity.warn.rank
  else Severity.info.rank

def shownLog (o : Options) (log : List Entry) : String :=
  String.join ((log.filter fun e => e.severity.rank ≤ threshold o).map fun e => e.text ++ "\n")

/-- The text a run wants to have written to a file. -/
def Outcome.write? (r : Outcome) (o : Options) : Option (String × String) :=
  match r.result, o.output with
  | .ok text, some path => some (path, text)
  | _, _ => none

/-- The end of a run, given why its text could not be written to the file it asked for. -/
def Outcome.ending (r : Outcome) (o : Options) (refused : Option FileError) : Ending :=
  let log := shownLog o r.log
  match r.result, o.output, refused with
  | .error f, _, _ => ⟨1, "", log ++ f.text ++ "\n"⟩
  | .ok text, none, _ => ⟨0, text ++ "\n", log⟩
  | .ok _, some _, none => ⟨0, "", log⟩
  | .ok _, some path, some e =>
    let f : Failure := ⟨"Failed to write output file: " ++ Text.quote path, [e.message]⟩
    ⟨1, "", log ++ f.text ++ "\n"⟩

def usageLine : String :=
  "Usage: " ++ programName ++ " [OPTIONS] <FILE>"

def helpText : String :=
  "\n".intercalate
    ["Generate C loop nests from domain descriptions via the Omega calculator", "", usageLine, "",
     "Arguments:",
     "  <FILE>  Input file", "",
     "Options:",
     "  -o, --output <FILE>      Output file (defaults to stdout)",
     "      --emit <EMIT>        What to emit [default: code] [possible values: code, space, macros, ir]",
     "      --elem-type <TYPE>   C type of field elements",
     "      --index-type <TYPE>  C type of constants and loop temporaries",
     "      --engine <PATH>      Omega calculator binary",
     "      --config <FILE>      JSON configuration file; flags override it",
     "  -v, --verbose...         Verbose output (-v, -vv, -vvv)",
     "  -q, --quiet              Quiet mode (suppress warnings)",
     "  -h, --help               Print help",
     "  -V, --version            Print version", ""]

/-- What happens instead of a run. -/
def Stop.ending : Stop → Ending
  | .usage => ⟨2, "", "error: invalid arguments\n\n" ++ usageLine ++ "\n"⟩
  | .version => ⟨0, programName ++ " " ++ release ++ "\n", ""⟩
  | .help => ⟨0, helpText, ""⟩

end Command

end LoopNest
