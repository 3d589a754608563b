import LoopNest.Proofs.Grammar

/-!
# Trees at other places

A tree is relocated by a function on spans, and keeps its shape and its words. Text that is put
behind other text moves down by lines and on by bytes, and within a line it stays where it is. Such
a shift goes through the merging of spans, as long as these are places in a text.
-/

namespace LoopNest

/-! ### Shifting places -/

namespace Location

/-- The place some lines further down, at the same column. -/
def shift (lines bytes : Nat) (l : Location) : Location :=
  ⟨l.line + lines, l.column, l.offset + bytes⟩

variable (lines bytes : Nat)

theorem shift_next (l : Location) (c : Char) :
    (l.next c).shift lines bytes = (l.shift lines bytes).next c := by
  unfold next
  split <;> simp only [shift, mk.injEq, true_and] <;> omega

theorem shift_after (l : Location) (text : List Char) :
    (l.after text).shift lines bytes = (l.shift lines bytes).after text := by
  induction text generalizing l with
  | nil => rfl
  | cons c text ih => rw [after_cons, after_cons, ih, shift_next]

theorem line_after (l : Location) (text : List Char) :
    (l.after text).line = l.line + text.count '\n' := by
  induction text generalizing l with
  | nil => rfl
  | cons c text ih =>
    rw [after_cons, ih, List.count_cons]
    by_cases h : c = '\n'
    · simp only [next, h, if_true, beq_self_eq_true]
      omega
    · simp [next, h]

theorem offset_after (l : Location) (text : List Char) :
    (l.after text).offset = l.offset + (String.ofList text).utf8ByteSize := by
  induction text generalizing l with
  | nil => rfl
  | cons c text ih =>
    have hnext : (l.next c).offset = l.offset + c.utf8Size := by
      unfold next
      split <;> rfl
    rw [after_cons, ih, hnext, String.ofList_cons, String.utf8ByteSize_append,
      String.utf8ByteSize_singleton]
    omega

/-- What stands on the line behind a text begins where a text begins, shifted by that text. -/
theorem start_after_line (source : String) :
    (start.after source.toList).next '\n' =
      start.shift (source.toList.count '\n' + 1) (source.utf8ByteSize + 1) := by
  have hline := line_after start source.toList
  have hoffset := offset_after start source.toList
  rw [String.ofList_toList] at hoffset
  have hsize : '\n'.utf8Size = 1 := rfl
  rw [next, if_pos rfl, hline, hoffset, hsize]
  simp only [start, shift, mk.injEq, true_and]
  omega

end Location

namespace Span

def shift (lines bytes : Nat) (s : Span) : Span :=
  ⟨s.start.shift lines bytes, s.stop.shift lines bytes⟩

/-- A span between two places of a text. -/
def IsReal (s : Span) : Prop :=
  0 < s.start.line ∧ 0 < s.stop.line

theorem IsReal.isNowhere {s : Span} (h : s.IsReal) : s.isNowhere = false := by
  have hstart : s.start.line ≠ 0 := Nat.ne_of_gt h.1
  simp [Span.isNowhere, hstart]

theorem IsReal.merge {a b : Span} (ha : a.IsReal) (hb : b.IsReal) : (a.merge b).IsReal := by
  rw [Span.merge, ha.isNowhere, hb.isNowhere]
  constructor
  · simp only [Bool.false_eq_true, if_false]
    split
    · exact ha.1
    · exact hb.1
  · simp only [Bool.false_eq_true, if_false]
    split
    · exact ha.2
    · exact hb.2

/-- A function on spans under which merged places are the merged images. -/
def KeepsMerge (f : Span → Span) : Prop :=
  ∀ a b : Span, a.IsReal → b.IsReal → f (a.merge b) = (f a).merge (f b)

theorem keepsMerge_id : KeepsMerge id :=
  fun _ _ _ _ => rfl

theorem keepsMerge_shift (lines bytes : Nat) : KeepsMerge (shift lines bytes) := by
  intro a b ha hb
  have hreal : ∀ s : Span, s.IsReal → (s.shift lines bytes).isNowhere = false := by
    intro s hs
    exact IsReal.isNowhere ⟨Nat.lt_of_lt_of_le hs.1 (Nat.le_add_right ..),
      Nat.lt_of_lt_of_le hs.2 (Nat.le_add_right ..)⟩
  rw [merge, merge, ha.isNowhere, hb.isNowhere, hreal a ha, hreal b hb]
  simp only [Bool.false_eq_true, if_false, shift, mk.injEq, Location.shift,
    Nat.add_le_add_iff_right]
  constructor <;> split <;> rfl

end Span

/-! ### Relocating trees -/

/-- A token with the image of its span. -/
def Token.relocate (f : Span → Span) (t : Token) : Token :=
  { t with span := f t.span }

@[simp] theorem Token.relocate_id : Token.relocate id = id := rfl

mutual

/-- An expression with the image of every span in its place. -/
def Expr.relocate (f : Span → Span) : Expr → Expr
  | .name s text => .name (f s) text
  | .number s text => .number (f s) text
  | .binary s left op right => .binary (f s) (left.relocate f) op (right.relocate f)
  | .unary s op operand => .unary (f s) op (operand.relocate f)
  | .connect s op values => .connect (f s) op (relocateAll f values)
  | .compare s left links => .compare (f s) (left.relocate f) (relocateLinks f links)
  | .call s callee args => .call (f s) callee (relocateAll f args)
  | .subscript s base index => .subscript (f s) (base.relocate f) (index.relocate f)
  | .tuple s items => .tuple (f s) (relocateAll f items)
  | .list s items => .list (f s) (relocateAll f items)
  | .dict s entries => .dict (f s) (relocateEntries f entries)

def relocateAll (f : Span → Span) : List Expr → List Expr
  | [] => []
  | e :: es => e.relocate f :: relocateAll f es

def relocateLinks (f : Span → Span) : List (CompareOp × Expr) → List (CompareOp × Expr)
  | [] => []
  | (op, e) :: links => (op, e.relocate f) :: relocateLinks f links

def relocateEntries (f : Span → Span) : List (Expr × Expr) → List (Expr × Expr)
  | [] => []
  | (key, value) :: entries => (key.relocate f, value.relocate f) :: relocateEntries f entries

end

/-- A statement with the image of every span in its place. -/
def Stmt.relocate (f : Span → Span) : Stmt → Stmt
  | .assign s targets value => .assign (f s) (relocateAll f targets) (value.relocate f)
  | .augment s target op value => .augment (f s) (target.relocate f) op (value.relocate f)
  | .eval s value => .eval (f s) (value.relocate f)

theorem relocateAll_eq_map (f : Span → Span) (es : List Expr) :
    relocateAll f es = es.map (Expr.relocate f) := by
  induction es with
  | nil => simp [relocateAll]
  | cons e es ih => simp [relocateAll, ih]

@[simp] theorem Expr.span_relocate (f : Span → Span) (e : Expr) :
    (e.relocate f).span = f e.span := by
  cases e <;> simp [relocate, span]

/-- Relocating a joined operation relocates its operands. -/
theorem Expr.relocate_join {f : Span → Span} (hf : Span.KeepsMerge f) {left right : Expr}
    (op : BinaryOp) (hleft : left.span.IsReal) (hright : right.span.IsReal) :
    (left.join op right).relocate f = (left.relocate f).join op (right.relocate f) := by
  rw [join, join, relocate, hf _ _ hleft hright, span_relocate, span_relocate]

mutual

@[simp] theorem Expr.bare_relocate (f : Span → Span) : ∀ e : Expr, (e.relocate f).bare = e.bare
  | .name .. | .number .. => by simp only [Expr.relocate, Expr.bare]
  | .binary _ left _ right => by
    simp only [Expr.relocate, Expr.bare, Expr.bare_relocate f left, Expr.bare_relocate f right]
  | .unary _ _ operand => by simp only [Expr.relocate, Expr.bare, Expr.bare_relocate f operand]
  | .connect _ _ values => by simp only [Expr.relocate, Expr.bare, bareAll_relocateAll f values]
  | .compare _ left links => by
    simp only [Expr.relocate, Expr.bare, Expr.bare_relocate f left, bareLinks_relocateLinks f links]
  | .call _ _ args => by simp only [Expr.relocate, Expr.bare, bareAll_relocateAll f args]
  | .subscript _ base index => by
    simp only [Expr.relocate, Expr.bare, Expr.bare_relocate f base, Expr.bare_relocate f index]
  | .tuple _ items => by simp only [Expr.relocate, Expr.bare, bareAll_relocateAll f items]
  | .list _ items => by simp only [Expr.relocate, Expr.bare, bareAll_relocateAll f items]
  | .dict _ entries => by
    simp only [Expr.relocate, Expr.bare, bareEntries_relocateEntries f entries]

@[simp] theorem bareAll_relocateAll (f : Span → Span) :
    ∀ es : List Expr, bareAll (relocateAll f es) = bareAll es
  | [] => by simp only [relocateAll]
  | e :: es => by
    simp only [relocateAll, bareAll, Expr.bare_relocate f e, bareAll_relocateAll f es]

theorem bareLinks_relocateLinks (f : Span → Span) :
    ∀ links : List (CompareOp × Expr), bareLinks (relocateLinks f links) = bareLinks links
  | [] => by simp only [relocateLinks]
  | (_, e) :: links => by
    simp only [relocateLinks, bareLinks, Expr.bare_relocate f e, bareLinks_relocateLinks f links]

theorem bareEntries_relocateEntries (f : Span → Span) :
    ∀ entries : List (Expr × Expr), bareEntries (relocateEntries f entries) = bareEntries entries
  | [] => by simp only [relocateEntries]
  | (key, value) :: entries => by
    simp only [relocateEntries, bareEntries, Expr.bare_relocate f key, Expr.bare_relocate f value,
      bareEntries_relocateEntries f entries]

end

@[simp] theorem Stmt.bare_relocate (f : Span → Span) (s : Stmt) : (s.relocate f).bare = s.bare := by
  cases s <;> simp [relocate, bare]

mutual

@[simp] theorem Expr.relocate_id : ∀ e : Expr, e.relocate id = e
  | .name .. | .number .. => by simp only [Expr.relocate, id]
  | .binary _ left _ right => by
    simp only [Expr.relocate, Expr.relocate_id left, Expr.relocate_id right, id]
  | .unary _ _ operand => by simp only [Expr.relocate, Expr.relocate_id operand, id]
  | .connect _ _ values => by simp only [Expr.relocate, relocateAll_id values, id]
  | .compare _ left links => by
    simp only [Expr.relocate, Expr.relocate_id left, relocateLinks_id links, id]
  | .call _ _ args => by simp only [Expr.relocate, relocateAll_id args, id]
  | .subscript _ base index => by
    simp only [Expr.relocate, Expr.relocate_id base, Expr.relocate_id index, id]
  | .tuple _ items => by simp only [Expr.relocate, relocateAll_id items, id]
  | .list _ items => by simp only [Expr.relocate, relocateAll_id items, id]
  | .dict _ entries => by simp only [Expr.relocate, relocateEntries_id entries, id]

@[simp] theorem relocateAll_id : ∀ es : List Expr, relocateAll id es = es
  | [] => by simp only [relocateAll]
  | e :: es => by simp only [relocateAll, Expr.relocate_id e, relocateAll_id es]

theorem relocateLinks_id : ∀ links : List (CompareOp × Expr), relocateLinks id links = links
  | [] => by simp only [relocateLinks]
  | (_, e) :: links => by simp only [relocateLinks, Expr.relocate_id e, relocateLinks_id links]

theorem relocateEntries_id : ∀ entries : List (Expr × Expr), relocateEntries id entries = entries
  | [] => by simp only [relocateEntries]
  | (key, value) :: entries => by
    simp only [relocateEntries, Expr.relocate_id key, Expr.relocate_id value,
      relocateEntries_id entries]

end

@[simp] theorem Stmt.relocate_id : Stmt.relocate id = id := by
  funext s
  cases s <;> simp [relocate]

end LoopNest
