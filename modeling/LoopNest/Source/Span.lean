/-! # Locations and spans in a source text

A location counts lines and columns from one, columns in characters, and keeps the offset in bytes
of the UTF-8 encoding beside them. A span is the stretch between two locations. The span with both
lines zero stands for no place at all.
-/

namespace LoopNest

structure Location where
  line : Nat
  column : Nat
  offset : Nat
deriving DecidableEq, Inhabited

namespace Location

/-- The place before the first character. -/
def start : Location :=
  ⟨1, 1, 0⟩

/-- The place after one more character. Only a newline opens a line. -/
def next (l : Location) (c : Char) : Location :=
  if c = '\n' then ⟨l.line + 1, 1, l.offset + c.utf8Size⟩
  else ⟨l.line, l.column + 1, l.offset + c.utf8Size⟩

/-- The place after a stretch of text. -/
def after (l : Location) (text : List Char) : Location :=
  text.foldl next l

@[simp] theorem after_nil (l : Location) : l.after [] = l := rfl

@[simp] theorem after_cons (l : Location) (c : Char) (text : List Char) :
    l.after (c :: text) = (l.next c).after text := rfl

theorem after_append (l : Location) (s t : List Char) : l.after (s ++ t) = (l.after s).after t :=
  List.foldl_append

def text (l : Location) : String :=
  toString l.line ++ ":" ++ toString l.column

end Location

structure Span where
  start : Location
  stop : Location
deriving DecidableEq, Inhabited

namespace Span

/-- The span of nothing in the source. -/
def nowhere : Span :=
  ⟨⟨0, 0, 0⟩, ⟨0, 0, 0⟩⟩

def isNowhere (s : Span) : Bool :=
  s.start.line = 0 && s.stop.line = 0

/-- The least span around two: the earlier start and the later stop by offset, those of the first
where they agree. A span of nothing adds nothing. -/
def merge (a b : Span) : Span :=
  if a.isNowhere then b
  else if b.isNowhere then a
  else
    { start := if a.start.offset ≤ b.start.offset then a.start else b.start
      stop := if b.stop.offset ≤ a.stop.offset then a.stop else b.stop }

/-- A span within one line is written with its two columns, any other with both locations. -/
def text (s : Span) : String :=
  if s.start.line = s.stop.line then
    s.start.text ++ "-" ++ toString s.stop.column
  else
    s.start.text ++ "-" ++ s.stop.text

end Span

end LoopNest
