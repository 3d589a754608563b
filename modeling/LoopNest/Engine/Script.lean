import LoopNest.Engine.Request
import LoopNest.Names
import LoopNest.Source.Lines

/-! # Scripts for the calculator

A request is written out as a script for a calculator that scans sets. The calculator knows functions
only when they are applied to the first iterators of a set, so every call is written with the
iterators up to the last one that its arguments mention. Calls of one function with different
arguments are calls of different functions there, and each gets a name of its own.
-/

namespace LoopNest.Script

/-! ### Reading a set -/

/-- A set as it stands in a request: its iterators and the conditions on them. -/
structure SetText where
  iterators : List String
  conditions : List Char
deriving DecidableEq, Inhabited

/-- The conditions behind a tuple, with or without a colon before them. -/
def conditionsOf (cs : List Char) : List Char :=
  match Text.trim cs with
  | ':' :: rest => Text.trim rest
  | rest => rest

/-- Reads what stands between braces: a tuple of iterators up to the first right bracket, of which the
opening character takes one byte, and the conditions behind it. -/
def SetText.ofText? (text : String) : Option SetText := do
  let body ← Text.between? '{' '}' text.toList
  match Text.trim body with
  | [] => none
  | opening :: rest =>
    if opening = ']' || opening.utf8Size != 1 then none
    else
      let (tuple, conditions) ← Text.cutAt? ']' rest
      let iterators := ((tuple.splitOn ',').map Text.trim).filter (!·.isEmpty)
      return ⟨iterators.map String.ofList, conditionsOf conditions⟩

/-! ### Words and calls in conditions -/

def isWordStart (c : Char) : Bool :=
  c.isAlpha || c = '_'

def isWordRest (c : Char) : Bool :=
  Text.isAsciiAlphanumeric c || c = '_'

/-- The words of a text in order, each with whether a left parenthesis follows it. The characters still
to be passed over belong to a word already found. -/
def wordsFrom : Nat → List Char → List (List Char × Bool)
  | _, [] => []
  | skip + 1, _ :: cs => wordsFrom skip cs
  | 0, c :: cs =>
    if isWordStart c then
      let tail := cs.takeWhile isWordRest
      (c :: tail, (cs.drop tail.length).head? = some '(') :: wordsFrom tail.length cs
    else wordsFrom 0 cs

/-- The call at the head of a text, without parentheses in its arguments: its function and the text of
its arguments. -/
def callHere? : List Char → Option (List Char × List Char)
  | [] => none
  | c :: cs =>
    if isWordStart c then
      let tail := cs.takeWhile isWordRest
      match cs.drop tail.length with
      | '(' :: inside =>
        let args := inside.takeWhile fun d => d != '(' && d != ')'
        match inside.drop args.length with
        | ')' :: _ => some (c :: tail, args)
        | _ => none
      | _ => none
    else none

/-- A name is mentioned if it is one of the words of a text. -/
def mentions (text : List Char) (name : String) : Bool :=
  (text.splitOnP fun c => !(Text.isAlphanumeric c || c = '_')).any (· = name.toList)

/-- The iterators up to the last one that is mentioned. -/
def reach (args : List (List Char)) (iterators : List String) : List String :=
  (iterators.reverse.dropWhile fun i => !args.any (mentions · i)).reverse

/-! ### Functions of the calculator -/

/-- A function of the calculator: the function and the arguments it stands for, its name, and the
arguments it is applied to. -/
structure Variant where
  source : List Char
  arguments : List Char
  name : List Char
  applied : List (List Char)
deriving DecidableEq, Inhabited

/-- The functions in the order of their first calls. -/
abbrev Variants := List Variant

def Variant.call (v : Variant) : List Char :=
  v.name ++ '(' :: [','].intercalate v.applied ++ [')']

def Variant.declaration (v : Variant) : String :=
  String.ofList v.name ++ "(" ++ toString v.applied.length ++ ")"

/-- The first function of a source has its name, later ones are numbered. A number after a digit is
set off. -/
def variantName (source : List Char) (siblings : Nat) : List Char :=
  if siblings = 0 then source
  else if source.getLast?.any Char.isDigit then source ++ '_' :: (toString siblings).toList
  else source ++ (toString siblings).toList

/-- The function for a call, which is new unless the same call was met before. Spaces in the arguments
make no difference. -/
def Variants.resolve (vs : Variants) (source args : List Char) (applied : List (List Char)) :
    Variant × Variants :=
  let arguments := args.filter (· != ' ')
  match vs.find? fun v => v.source = source && v.arguments = arguments with
  | some v => (v, vs)
  | none =>
    let siblings := (vs.filter (·.source = source)).length
    let v := ⟨source, arguments, variantName source siblings, applied⟩
    (v, vs ++ [v])

/-- Writes every call in a text as a call of a function of the calculator. The characters still to be
passed over belong to a call already written. -/
def tupledFrom (iterators : List String) : Nat → Variants → List Char → List Char × Variants
  | _, vs, [] => ([], vs)
  | skip + 1, vs, _ :: cs => tupledFrom iterators skip vs cs
  | 0, vs, c :: cs =>
    match callHere? (c :: cs) with
    | none =>
      let (text, vs) := tupledFrom iterators 0 vs cs
      (c :: text, vs)
    | some (source, args) =>
      let arguments := (args.splitOn ',').map Text.trim
      let applied :=
        match reach arguments iterators with
        | [] => arguments
        | is => is.map String.toList
      let (v, vs) := vs.resolve source args applied
      let (text, vs) := tupledFrom iterators (source.length + args.length + 1) vs cs
      (v.call ++ text, vs)

/-- The calculator writes an equality with one sign. -/
def singleEquals : List Char → List Char
  | '=' :: '=' :: cs => '=' :: singleEquals cs
  | c :: cs => c :: singleEquals cs
  | [] => []

/-- The words that the calculator keeps for itself. -/
def keywords : List String :=
  ["exists", "union", "intersection", "complement", "compose", "inverse", "domain", "range", "hull",
   "codegen", "farkas", "forall", "given", "and", "or", "not", "within", "subsetof", "supersetof",
   "symbolic"]

/-- The constants in conditions: the words that are neither called nor iterators nor keywords. -/
def constantsIn (iterators : List String) (conditions : List Char) : List String :=
  ((wordsFrom 0 conditions).filter fun (word, called) =>
      !called && !(String.ofList word ∈ iterators) &&
        !(String.ofList (word.map Char.toLower) ∈ keywords)).map
    fun w => String.ofList w.1

/-! ### Scripts -/

/-- What the sets of a request have brought about so far: the symbols to declare, the lines, the
arguments of the final command, and the iterators of the widest set. -/
structure Parts where
  constants : List String
  functions : Variants
  lines : List String
  arguments : List String
  widest : List String
deriving Inhabited

def setLine (name : String) (iterators : List String) (conditions : List Char) : String :=
  let tuple := name ++ " := \x7b[" ++ ",".intercalate iterators ++ "]"
  if conditions.isEmpty then tuple ++ "\x7d;"
  else tuple ++ " : " ++ String.ofList conditions ++ "\x7d;"

/-- The schedules of a set as arguments of the final command. -/
def scheduled (name : String) (schedules : List String) : List String :=
  schedules.filterMap fun s =>
    (Text.firstWord? s.toList).map fun w => String.ofList w ++ ":" ++ name

/-- Adds one set. A name without a readable set is passed over. -/
def Parts.add (request : Request) (p : Parts) (name : String) : Parts :=
  match (request.relations.find? name).bind SetText.ofText? with
  | none => p
  | some set =>
    let (written, functions) := tupledFrom set.iterators 0 p.functions set.conditions
    let conditions := singleEquals written
    let schedules := (request.schedules.find? name).getD []
    { constants := Names.union p.constants (constantsIn set.iterators conditions)
      functions
      lines := p.lines ++ setLine name set.iterators conditions :: schedules.map (· ++ ";")
      arguments := p.arguments ++ scheduled name schedules
      widest := if p.widest.length < set.iterators.length then set.iterators else p.widest }

/-- The names a request asks for are all its sets if it gives none. -/
def scannedNames (request : Request) : List String :=
  if request.names.isEmpty then request.relations.names else request.names

def parts (request : Request) : Parts :=
  (scannedNames request).foldl (Parts.add request) ⟨[], [], [], [], []⟩

/-- The script of a request: the symbols, the sets with their schedules, and the command to scan
them under the constraints. -/
def ofRequest (request : Request) : String :=
  let p := parts request
  let symbols := p.constants ++ p.functions.map Variant.declaration
  let declaration :=
    if symbols.isEmpty then "" else "symbolic " ++ ", ".intercalate symbols ++ ";\n"
  let lines := String.join (p.lines.map (· ++ "\n"))
  let given :=
    if request.constraints.isEmpty then ""
    else
      " given \x7b[" ++ ",".intercalate p.widest ++ "] : " ++
        " && ".intercalate request.constraints ++ "\x7d"
  declaration ++ lines ++ "codegen " ++ ",".intercalate p.arguments ++ given ++ ";\n"

/-! ### The calculator as an engine -/

/-- The output of the calculator without the lines that are comments and without newlines at its
ends. -/
def filterOutput (output : String) : String :=
  let kept := (Source.lines output).filter fun l => (l.toList.dropWhile Text.isBlank).head? != some '#'
  String.ofList (Text.trimMatches (· = '\n') ("\n".intercalate kept).toList)

/-- How a program turns its input into its output, or why it cannot be run. -/
abbrev Programs := String → Except FileError (String → String)

/-- The program with a name. No program has a name with a NUL in it. -/
def Programs.find (programs : Programs) (name : String) : Except FileError (String → String) :=
  if name.toList.any (·.toNat = 0) then .error .nulInName else programs name

/-- An engine that gives the script to a program. -/
def engine (programs : Programs) (program : String) : Engine := fun request =>
  match programs.find program with
  | .ok run => filterOutput (run (ofRequest request))
  | .error e => "error: failed to run " ++ program ++ ": " ++ e.message

end LoopNest.Script
