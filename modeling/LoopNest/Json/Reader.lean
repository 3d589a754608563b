import LoopNest.Json.Basic

/-! # Reading JSON

Each value takes a character at least, so twice the number of
characters bounds the nesting of the functions below.
-/

namespace LoopNest.Json

def isSpace (c : Char) : Bool :=
  c = ' ' || c = '\n' || c = '\t' || c = '\r'

def skipSpace (cs : List Char) : List Char :=
  cs.dropWhile isSpace

/-- A string is made of characters, some of them written as UTF-16 code units. -/
inductive Piece where
  | char (c : Char)
  | unit (n : Nat)
deriving DecidableEq, Inhabited

def hexValue? (c : Char) : Option Nat :=
  if c.isDigit then some (c.toNat - '0'.toNat)
  else if 'a' ≤ c && c ≤ 'f' then some (c.toNat - 'a'.toNat + 10)
  else if 'A' ≤ c && c ≤ 'F' then some (c.toNat - 'A'.toNat + 10)
  else none

def hexUnit? (a b c d : Char) : Option Nat := do
  let a ← hexValue? a
  let b ← hexValue? b
  let c ← hexValue? c
  let d ← hexValue? d
  return ((a * 16 + b) * 16 + c) * 16 + d

def unescape? (c : Char) : Option Char :=
  if c = '"' || c = '\\' || c = '/' then some c
  else if c = 'b' then some (Char.ofNat 8)
  else if c = 'f' then some (Char.ofNat 12)
  else if c = 'n' then some '\n'
  else if c = 'r' then some '\r'
  else if c = 't' then some '\t'
  else none

/-- The pieces of a string behind its first quote, and the text behind its last. -/
def pieces? : List Char → Option (List Piece × List Char)
  | [] => none
  | '"' :: rest => some ([], rest)
  | '\\' :: 'u' :: a :: b :: c :: d :: rest => do
    let n ← hexUnit? a b c d
    let (ps, rest) ← pieces? rest
    return (.unit n :: ps, rest)
  | '\\' :: c :: rest => do
    let c ← unescape? c
    let (ps, rest) ← pieces? rest
    return (.char c :: ps, rest)
  | c :: rest =>
    if c = '\\' || c.toNat < 32 then none
    else do
      let (ps, rest) ← pieces? rest
      return (.char c :: ps, rest)

def isHigh (n : Nat) : Bool :=
  0xD800 ≤ n && n < 0xDC00

def isLow (n : Nat) : Bool :=
  0xDC00 ≤ n && n < 0xE000

/-- The characters that pieces stand for, if every half of a pair has its other half. -/
def charsOf? : List Piece → Option (List Char)
  | [] => some []
  | .char c :: ps => (charsOf? ps).map (c :: ·)
  | .unit n :: ps =>
    if isHigh n then
      match ps with
      | .unit m :: rest =>
        if isLow m then
          (charsOf? rest).map (Char.ofNat (0x10000 + (n - 0xD800) * 0x400 + (m - 0xDC00)) :: ·)
        else none
      | _ => none
    else if isLow n then none
    else (charsOf? ps).map (Char.ofNat n :: ·)

/-- The text of a number and what stands behind it. A whole number has no zero before other digits. -/
def number? (cs : List Char) : Option (List Char × List Char) :=
  let sign := cs.takeWhile (· = '-')
  let whole := (cs.drop sign.length).takeWhile Char.isDigit
  let start := cs.drop (sign.length + whole.length)
  if 1 < sign.length || whole.isEmpty || (whole.head? = some '0' && 1 < whole.length) then none
  else do
    let fraction ←
      match start with
      | '.' :: rest =>
        match rest.takeWhile Char.isDigit with
        | [] => none
        | ds => some ('.' :: ds)
      | _ => some []
    let exponent ←
      match start.drop fraction.length with
      | e :: rest =>
        if e = 'e' || e = 'E' then
          let sign := (rest.takeWhile fun c => c = '+' || c = '-').take 1
          match (rest.drop sign.length).takeWhile Char.isDigit with
          | [] => none
          | ds => some (e :: sign ++ ds)
        else some []
      | [] => some []
    let text := sign ++ whole ++ fraction ++ exponent
    return (text, cs.drop text.length)

/-- The value of a string with the given pieces. -/
def ofPieces (ps : List Piece) : Json :=
  match charsOf? ps with
  | some cs => .string (String.ofList cs)
  | none => .unpaired

/-- Members keep their order. Without the text of every key there is no object. -/
def ofMembers (ms : List (Option String × Json)) : Json :=
  match ms.mapM fun (key, v) => key.map (·, v) with
  | some ms => .object ms
  | none => .unpaired

def keyOf (ps : List Piece) : Option String :=
  (charsOf? ps).map String.ofList

mutual

/-- The value at the head of a text and what stands behind it. -/
def value? : Nat → List Char → Option (Json × List Char)
  | 0, _ => none
  | n + 1, cs =>
    match skipSpace cs with
    | 'n' :: 'u' :: 'l' :: 'l' :: rest => some (.null, rest)
    | 't' :: 'r' :: 'u' :: 'e' :: rest => some (.bool true, rest)
    | 'f' :: 'a' :: 'l' :: 's' :: 'e' :: rest => some (.bool false, rest)
    | '"' :: rest => do
      let (ps, rest) ← pieces? rest
      return (ofPieces ps, rest)
    | '[' :: rest =>
      match skipSpace rest with
      | ']' :: rest => some (.array [], rest)
      | rest => do
        let (vs, rest) ← items? n rest
        return (.array vs, rest)
    | '{' :: rest =>
      match skipSpace rest with
      | '}' :: rest => some (.object [], rest)
      | rest => do
        let (ms, rest) ← members? n rest
        return (ofMembers ms, rest)
    | rest => do
      let (text, rest) ← number? rest
      return (.number (String.ofList text), rest)

/-- The values of an array up to its right bracket. -/
def items? : Nat → List Char → Option (List Json × List Char)
  | 0, _ => none
  | n + 1, cs => do
    let (v, rest) ← value? n cs
    match skipSpace rest with
    | ',' :: rest =>
      let (vs, rest) ← items? n rest
      return (v :: vs, rest)
    | ']' :: rest => return ([v], rest)
    | _ => none

/-- The members of an object up to its right brace. -/
def members? : Nat → List Char → Option (List (Option String × Json) × List Char)
  | 0, _ => none
  | n + 1, cs => do
    match skipSpace cs with
    | '"' :: rest =>
      let (ps, rest) ← pieces? rest
      match skipSpace rest with
      | ':' :: rest =>
        let (v, rest) ← value? n rest
        match skipSpace rest with
        | ',' :: rest =>
          let (ms, rest) ← members? n rest
          return ((keyOf ps, v) :: ms, rest)
        | '}' :: rest => return ([(keyOf ps, v)], rest)
        | _ => none
      | _ => none
    | _ => none

end

/-- The value of a text that holds one and nothing else but space around it. -/
def parse? (text : String) : Option Json := do
  let cs := text.toList
  let (v, rest) ← value? (2 * cs.length + 2) cs
  if (skipSpace rest).isEmpty then some v else none

end LoopNest.Json
