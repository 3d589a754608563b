import LoopNest.Code.Statement
import LoopNest.Proofs.Spelling

/-!
# The expressions of C

A C text is cut into names, numbers and symbols, always the longest one that fits, and where a
comment would begin there is no expression. The words of C are read as names. The levels of the
grammar run from `||` to the operators behind an operand; the binary ones group to the left. Lists
with commas stand inside square brackets and inside the parentheses of a call.
-/

namespace LoopNest.C

/-! ### Tokens -/

inductive Token where
  | name (text : String)
  | number (text : String)
  | symbol (text : String)
deriving DecidableEq

/-- What comments begin with. -/
def comments : List String :=
  ["//", "/*"]

/-- The punctuators of C, the longer ones first. -/
def punctuators : List String :=
  ["%:%:", "...", "<<=", ">>=", "->", "++", "--", "<<", ">>", "<=", ">=", "==", "!=", "&&", "||",
   "*=", "/=", "%=", "+=", "-=", "&=", "^=", "|=", "##", "<:", ":>", "<%", "%>", "%:",
   "[", "]", "(", ")", "\x7b", "\x7d", ".", "&", "*", "+", "-", "~", "!", "/", "%", "<", ">", "^",
   "|", "?", ":", ";", "=", ",", "#"]

/-- The comment or the punctuator a text starts with. -/
def punctuator? (cs : List Char) : Option String :=
  (comments ++ punctuators).find? fun p => p.toList.isPrefixOf cs

/-- The letters that a sign may follow in a number. -/
def isExponentLetter (c : Char) : Bool :=
  c = 'e' || c = 'E' || c = 'p' || c = 'P'

/-- What a number goes on with: points, letters and digits, and a sign behind the letter of an
exponent. -/
def numberTail (exponent : Bool) : List Char → List Char
  | [] => []
  | c :: cs =>
    if c = '.' || Scan.continuesName c || (exponent && (c = '+' || c = '-')) then
      c :: numberTail (isExponentLetter c) cs
    else []

/-- The token a text starts with. -/
def token? : List Char → Option (Token × List Char)
  | [] => none
  | c :: cs =>
    if c.isDigit || (c = '.' && Scan.startsWithDigit cs) then
      some (.number (String.ofList (c :: numberTail false cs)),
        cs.drop (numberTail false cs).length)
    else if Scan.startsName c then
      some (.name (String.ofList (c :: cs.takeWhile Scan.continuesName)),
        cs.dropWhile Scan.continuesName)
    else
      match punctuator? (c :: cs) with
      | some p => if p ∈ comments then none else some (.symbol p, (c :: cs).drop p.toList.length)
      | none => none

def lexer : Lexer Unit Token where
  step _ cs := (token? cs).map fun t => (t.1, (), t.2)
  step_nil _ := rfl
  step_blank _ cs := by
    have hnone : punctuator? (' ' :: cs) = none := by simp [punctuator?, comments, punctuators]
    simp [token?, hnone, Scan.startsName, Text.isIdentifierStart, Text.isAscii]

/-! ### Trees and their grammar -/

inductive Tree where
  | name (text : String)
  | number (text : String)
  | unary (op : String) (operand : Tree)
  | binary (left : Tree) (op : String) (right : Tree)
  | stepped (operand : Tree) (op : String)
  | call (callee : Tree) (args : List Tree)
  | subscript (base : Tree) (index : List Tree)

/-- The operators that stand before an operand. -/
def signs : List String :=
  ["-", "+", "~", "!", "*", "&", "++", "--"]

/-- The operators that stand behind an operand. -/
def steps : List String :=
  ["++", "--"]

/-- The binary operators of a level. -/
def operators : CLevel → List String
  | .or => ["||"]
  | .and => ["&&"]
  | .bitOr => ["|"]
  | .bitXor => ["^"]
  | .bitAnd => ["&"]
  | .equality => ["==", "!="]
  | .relational => ["<", ">", "<=", ">="]
  | .shift => ["<<", ">>"]
  | .additive => ["+", "-"]
  | .multiplicative => ["*", "/", "%"]
  | .unary | .postfixed => []

/-- The level of the operands of a level. -/
def tighter? : CLevel → Option CLevel
  | .or => some .and
  | .and => some .bitOr
  | .bitOr => some .bitXor
  | .bitXor => some .bitAnd
  | .bitAnd => some .equality
  | .equality => some .relational
  | .relational => some .shift
  | .shift => some .additive
  | .additive => some .multiplicative
  | .multiplicative => some .unary
  | .unary => some .postfixed
  | .postfixed => none

inductive Symbol where
  | primary
  | level (l : CLevel)
  | args
  | list

/-- What a symbol stands for. -/
inductive Phrase where
  | tree (t : Tree)
  | trees (ts : List Tree)

/-- `Derives symbol words phrase` holds if the words can be derived from the symbol with that phrase
as the tree of the derivation. -/
inductive Derives : Symbol → List Token → Phrase → Prop where
  | name (text : String) : Derives .primary [.name text] (.tree (.name text))
  | number (text : String) : Derives .primary [.number text] (.tree (.number text))
  | group {ws : List Token} {t : Tree} (inner : Derives (.level .or) ws (.tree t)) :
      Derives .primary (.symbol "(" :: (ws ++ [.symbol ")"])) (.tree t)
  | primary {ws : List Token} {t : Tree} (h : Derives .primary ws (.tree t)) :
      Derives (.level .postfixed) ws (.tree t)
  | call {ws vs : List Token} {callee : Tree} {args : List Tree}
      (head : Derives (.level .postfixed) ws (.tree callee))
      (inner : Derives .args vs (.trees args)) :
      Derives (.level .postfixed) (ws ++ .symbol "(" :: (vs ++ [.symbol ")"]))
        (.tree (.call callee args))
  | subscript {ws vs : List Token} {base : Tree} {index : List Tree}
      (head : Derives (.level .postfixed) ws (.tree base))
      (inner : Derives .list vs (.trees index)) :
      Derives (.level .postfixed) (ws ++ .symbol "[" :: (vs ++ [.symbol "]"]))
        (.tree (.subscript base index))
  | stepped {ws : List Token} {t : Tree} {op : String} (h : op ∈ steps)
      (head : Derives (.level .postfixed) ws (.tree t)) :
      Derives (.level .postfixed) (ws ++ [.symbol op]) (.tree (.stepped t op))
  | sign {ws : List Token} {t : Tree} {op : String} (h : op ∈ signs)
      (operand : Derives (.level .unary) ws (.tree t)) :
      Derives (.level .unary) (.symbol op :: ws) (.tree (.unary op t))
  | operand {l m : CLevel} {ws : List Token} {t : Tree} (h : tighter? l = some m)
      (inner : Derives (.level m) ws (.tree t)) : Derives (.level l) ws (.tree t)
  | binary {l m : CLevel} {ws vs : List Token} {left right : Tree} {op : String}
      (hop : op ∈ operators l) (h : tighter? l = some m) (head : Derives (.level l) ws (.tree left))
      (last : Derives (.level m) vs (.tree right)) :
      Derives (.level l) (ws ++ .symbol op :: vs) (.tree (.binary left op right))
  | noArg : Derives .args [] (.trees [])
  | args {ws : List Token} {ts : List Tree} (h : Derives .list ws (.trees ts)) :
      Derives .args ws (.trees ts)
  | last {ws : List Token} {t : Tree} (h : Derives (.level .or) ws (.tree t)) :
      Derives .list ws (.trees [t])
  | more {ws vs : List Token} {t : Tree} {ts : List Tree} (head : Derives (.level .or) ws (.tree t))
      (rest : Derives .list vs (.trees ts)) :
      Derives .list (ws ++ .symbol "," :: vs) (.trees (t :: ts))

/-- A text that is read as an expression with the given tree. -/
def Reads (text : String) (t : Tree) : Prop :=
  ∃ ws, lexer.Reads () text.toList ws () [] ∧ Derives (.level .or) ws (.tree t)

end LoopNest.C
