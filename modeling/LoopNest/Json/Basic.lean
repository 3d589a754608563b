/-! # JSON values and their text

Values are written over several lines, each level indented by two blanks more than the one around it.
An array or object without members is written on one line.
-/

namespace LoopNest

/-- A JSON value. Numbers keep their text. A text can name half of a surrogate pair, which no string
holds: a string with such an escape, or an object with such a key, is `unpaired`. -/
inductive Json where
  | null
  | bool (b : Bool)
  | number (text : String)
  | string (s : String)
  | array (items : List Json)
  | object (members : List (String × Json))
  | unpaired
deriving Inhabited

namespace Json

def ofNat (n : Nat) : Json :=
  .number (toString n)

def ofOption {α : Type} (f : α → Json) : Option α → Json
  | some a => f a
  | none => .null

/-- An object with one member says which of several cases its value is. -/
def tagged (tag : String) (value : Json) : Json :=
  .object [(tag, value)]

/-- A digit of the hexadecimal system, in small letters. -/
def hexDigit (n : Nat) : Char :=
  Nat.digitChar n

/-- The characters that cannot stand in a string as they are. -/
def escape (c : Char) : List Char :=
  if c = '"' then ['\\', '"']
  else if c = '\\' then ['\\', '\\']
  else if c = '\n' then ['\\', 'n']
  else if c = '\r' then ['\\', 'r']
  else if c = '\t' then ['\\', 't']
  else if c.toNat = 8 then ['\\', 'b']
  else if c.toNat = 12 then ['\\', 'f']
  else if c.toNat < 32 then ['\\', 'u', '0', '0', hexDigit (c.toNat / 16), hexDigit (c.toNat % 16)]
  else [c]

def quoted (s : String) : String :=
  String.ofList ('"' :: s.toList.flatMap escape ++ ['"'])

/-- The start of a line at a level. -/
def newline (level : Nat) : String :=
  "\n" ++ String.ofList (List.replicate (2 * level) ' ')

/-- Members on lines of their own between brackets. -/
def block (level : Nat) (left right : String) : List String → String
  | [] => left ++ right
  | members =>
    left ++ newline (level + 1) ++ ("," ++ newline (level + 1)).intercalate members ++
      newline level ++ right

mutual

/-- The text of a value inside the given number of others. -/
def prettyAt (level : Nat) : Json → String
  | .null => "null"
  | .bool b => if b then "true" else "false"
  | .number text => text
  | .string s => quoted s
  | .array items => block level "[" "]" (prettyItems (level + 1) items)
  | .object members => block level "\x7b" "\x7d" (prettyMembers (level + 1) members)
  | .unpaired => "null"

def prettyItems (level : Nat) : List Json → List String
  | [] => []
  | v :: vs => prettyAt level v :: prettyItems level vs

def prettyMembers (level : Nat) : List (String × Json) → List String
  | [] => []
  | (key, v) :: ms => (quoted key ++ ": " ++ prettyAt level v) :: prettyMembers level ms

end

def pretty (v : Json) : String :=
  prettyAt 0 v

end Json

end LoopNest
