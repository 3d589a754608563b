import LoopNest.Proofs.SourcePlaces
import LoopNest.Proofs.Subexpressions

/-!
# Trees at their places in a text

The span of a node lies between two places of the text and around the spans of its children, which
follow one another in the order of a walk. Only the keys of a dict display are walked before its
values, so with more than one entry its children do not stand in that order. Here are the ways in
which such trees are put together: nodes from children between a first and a last span, and rows of
expressions from shorter ones.
-/

namespace LoopNest

namespace Span

/-- A span between two places of a text. -/
structure In (source : String) (s : Span) : Prop where
  start : s.start.In source
  stop : s.stop.In source
  le : s.start.offset ≤ s.stop.offset

def Within (inner outer : Span) : Prop :=
  outer.start.offset ≤ inner.start.offset ∧ inner.stop.offset ≤ outer.stop.offset

def Before (a b : Span) : Prop :=
  a.stop.offset ≤ b.start.offset

/-- A span that starts and stops no later than another. -/
def Upto (a b : Span) : Prop :=
  a.start.offset ≤ b.start.offset ∧ a.stop.offset ≤ b.stop.offset

variable {source : String} {a b c : Span}

theorem Upto.refl (a : Span) : a.Upto a :=
  ⟨Nat.le_refl _, Nat.le_refl _⟩

theorem Upto.trans (h : a.Upto b) (h' : b.Upto c) : a.Upto c :=
  ⟨Nat.le_trans h.1 h'.1, Nat.le_trans h.2 h'.2⟩

theorem Before.upto (h : a.Before b) (ha : a.In source) (hb : b.In source) : a.Upto b :=
  ⟨Nat.le_trans ha.le h, Nat.le_trans h hb.le⟩

theorem In.isReal (h : a.In source) : a.IsReal := by
  obtain ⟨⟨before, rest, -, hstart⟩, ⟨before', rest', -, hstop⟩, -⟩ := h
  rw [IsReal, hstart, hstop]
  exact ⟨Nat.succ_pos _, Nat.succ_pos _⟩

theorem In.merge (ha : a.In source) (hb : b.In source) (h : a.Upto b) :
    (a.merge b).In source ∧ (a.merge b).start.offset = a.start.offset ∧
      (a.merge b).stop.offset = b.stop.offset := by
  have hmerge : a.merge b =
      ⟨a.start, if b.stop.offset ≤ a.stop.offset then a.stop else b.stop⟩ := by
    rw [Span.merge, ha.isReal.isNowhere, hb.isReal.isNowhere]
    simp only [Bool.false_eq_true, if_false, if_pos h.1]
  rw [hmerge]
  split
  · next hle => exact ⟨⟨ha.start, ha.stop, ha.le⟩, rfl, Nat.le_antisymm h.2 hle⟩
  · exact ⟨⟨ha.start, hb.stop, Nat.le_trans ha.le h.2⟩, rfl, rfl⟩

theorem merge_self (a : Span) : a.merge a = a := by
  unfold merge
  split
  · rfl
  · simp

/-- Spans one behind the other between two offsets. -/
def Row (lo : Nat) : List Span → Nat → Prop
  | [], hi => lo ≤ hi
  | s :: ss, hi => lo ≤ s.start.offset ∧ s.start.offset ≤ s.stop.offset ∧ Row s.stop.offset ss hi

namespace Row

variable {lo hi lo' hi' mid : Nat} {ss ts : List Span}

theorem le (h : Row lo ss hi) : lo ≤ hi := by
  induction ss generalizing lo with
  | nil => exact h
  | cons s ss ih => exact Nat.le_trans h.1 (Nat.le_trans h.2.1 (ih h.2.2))

theorem append (h : Row lo ss mid) (h' : Row mid ts hi) : Row lo (ss ++ ts) hi := by
  induction ss generalizing lo with
  | nil =>
    cases ts with
    | nil => exact Nat.le_trans h h'
    | cons t ts => exact ⟨Nat.le_trans h h'.1, h'.2⟩
  | cons s ss ih => exact ⟨h.1, h.2.1, ih h.2.2⟩

theorem mono (h : Row lo ss hi) (hlo : lo' ≤ lo) (hhi : hi ≤ hi') : Row lo' ss hi' := by
  have hfirst : Row lo' [] lo := hlo
  have hlast : Row hi [] hi' := hhi
  simpa using (hfirst.append h).append hlast

theorem within (h : Row lo ss hi) : ∀ s ∈ ss, lo ≤ s.start.offset ∧ s.stop.offset ≤ hi := by
  induction ss generalizing lo with
  | nil => simp
  | cons s ss ih =>
    refine List.forall_mem_cons.mpr ⟨⟨h.1, le h.2.2⟩, fun t ht => ?_⟩
    obtain ⟨hlo, hhi⟩ := ih h.2.2 t ht
    exact ⟨Nat.le_trans h.1 (Nat.le_trans h.2.1 hlo), hhi⟩

theorem pairwise (h : Row lo ss hi) : ss.Pairwise Before := by
  induction ss generalizing lo with
  | nil => exact .nil
  | cons s ss ih => exact .cons (fun t ht => (within h.2.2 t ht).1) (ih h.2.2)

/-- A row goes as far as its last span. -/
theorem getLast {s : Span} (h : Row lo ss hi) (hs : s ∈ ss.getLast?) : Row lo ss s.stop.offset := by
  obtain ⟨init, rfl⟩ := List.getLast?_eq_some_iff.mp hs
  clear hs
  induction init generalizing lo with
  | nil => exact ⟨h.1, h.2.1, Nat.le_refl _⟩
  | cons t init ih => exact ⟨h.1, h.2.1, ih h.2.2⟩

end Row

end Span

/-! ### Expressions -/

/-- The keys of a dict display. -/
def Expr.keys : Expr → List Expr
  | .dict _ entries => entries.map Prod.fst
  | _ => []

/-- How a node and its children stand in a text. -/
structure Expr.WellPlaced (source : String) (e : Expr) : Prop where
  place : e.span.In source
  somewhere : e.span.isNowhere = false
  within : ∀ child ∈ e.children, child.span.Within e.span
  ordered : (e.form = .dict → e.keys.length ≤ 1) →
    e.children.Pairwise fun a b => a.span.Before b.span

/-- An expression that is placed well at every depth. -/
def Expr.Placed (source : String) (e : Expr) : Prop :=
  ∀ inner : Expr, inner.Occurs e → inner.WellPlaced source

/-- Expressions one behind the other between two offsets. -/
structure Laid (source : String) (lo : Nat) (es : List Expr) (hi : Nat) : Prop where
  placed : ∀ e ∈ es, e.Placed source
  row : Span.Row lo (es.map Expr.span) hi

namespace Laid

variable {source : String} {lo hi lo' hi' mid : Nat} {e : Expr} {es ds : List Expr} {a b : Span}

theorem nil (h : lo ≤ hi) : Laid source lo [] hi :=
  ⟨by simp, h⟩

theorem append (h : Laid source lo es mid) (h' : Laid source mid ds hi) :
    Laid source lo (es ++ ds) hi := by
  refine ⟨List.forall_mem_append.mpr ⟨h.placed, h'.placed⟩, ?_⟩
  rw [List.map_append]
  exact h.row.append h'.row

theorem mono (h : Laid source lo es hi) (hlo : lo' ≤ lo) (hhi : hi ≤ hi') :
    Laid source lo' es hi' :=
  ⟨h.placed, h.row.mono hlo hhi⟩

/-- One expression between two offsets. -/
theorem singleton_iff : Laid source lo [e] hi ↔
    e.Placed source ∧ lo ≤ e.span.start.offset ∧ e.span.stop.offset ≤ hi := by
  constructor
  · rintro ⟨hplaced, hlo, -, hhi⟩
    exact ⟨hplaced e List.mem_cons_self, hlo, hhi⟩
  · rintro ⟨hplaced, hlo, hhi⟩
    exact ⟨List.forall_mem_singleton.mpr hplaced, hlo, (hplaced e .here).place.le, hhi⟩

/-- The span from the first to the last of some places lies around a row between them. -/
theorem around (ha : a.In source) (hb : b.In source) (hab : a.Upto b)
    (h : Laid source a.start.offset es b.stop.offset) :
    (∀ e ∈ es, e.span.Within (a.merge b)) ∧ es.Pairwise fun d e => d.span.Before e.span := by
  obtain ⟨-, hstart, hstop⟩ := ha.merge hb hab
  refine ⟨fun e he => ?_, List.pairwise_map.mp h.row.pairwise⟩
  rw [Span.Within, hstart, hstop]
  exact h.row.within e.span (List.mem_map_of_mem he)

/-- A node around a row of its children. The row may have them in another order than the node if this
is a dict display with more than one entry. -/
theorem node_of_parts (ha : a.In source) (hb : b.In source) (hab : a.Upto b)
    (h : Laid source a.start.offset es b.stop.offset) (hspan : e.span = a.merge b)
    (hchildren : ∀ child ∈ e.children, child ∈ es)
    (hordered : (e.form = .dict → e.keys.length ≤ 1) → e.children = es) :
    Laid source a.start.offset [e] b.stop.offset := by
  obtain ⟨hplace, hstart, hstop⟩ := ha.merge hb hab
  obtain ⟨hwithin, hpairwise⟩ := h.around ha hb hab
  rw [← hspan] at hplace hstart hstop hwithin
  refine singleton_iff.mpr ⟨?_, Nat.le_of_eq hstart.symm, Nat.le_of_eq hstop⟩
  refine Expr.forall_occurs_iff.mpr ⟨⟨hplace, hplace.isReal.isNowhere, ?_, ?_⟩, ?_⟩
  · exact fun child hchild => hwithin child (hchildren child hchild)
  · exact fun hentries => (hordered hentries).symm ▸ hpairwise
  · exact fun child hchild => h.placed child (hchildren child hchild)

end Laid

end LoopNest
