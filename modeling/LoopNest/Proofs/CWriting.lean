import LoopNest.Proofs.CLexer
import LoopNest.Proofs.CTrees
import Mathlib.Data.List.Forall2

/-!
# C texts with their trees

A text is put together from the texts of operands, with parentheses around those that bind looser
than their place asks. It is derived from the level of its operation, and its tree is made of the
trees of the operands, only that a conjunction of conjunctions, or a disjunction of disjunctions, is
associated to the left.
-/

namespace LoopNest.C

open Scan

/-- A text that begins as an operand does and is derived from a level, with a tree that differs from
the given one only in its association. -/
def Writes (l : CLevel) (text : String) (source : Tree) : Prop :=
  ∃ ws t, lexer.Spells text ws ∧ Derives (.level l) ws (.tree t) ∧ t.Alike source ∧ Opens text

theorem rank_tighter {l m : CLevel} (h : tighter? l = some m) : m.rank = l.rank + 1 := by
  cases l <;> cases h <;> rfl

theorem rank_injective {l m : CLevel} (h : l.rank = m.rank) : l = m := by
  cases l <;> cases m <;> first | rfl | cases h

theorem rank_or_le (l : CLevel) : CLevel.or.rank ≤ l.rank := by
  cases l <;> decide

theorem rank_le_postfixed (l : CLevel) : l.rank ≤ CLevel.postfixed.rank := by
  cases l <;> decide

theorem exists_tighter {l m : CLevel} (h : l.rank < m.rank) : ∃ k, tighter? l = some k := by
  cases l with
  | postfixed => exact absurd h (Nat.not_lt.mpr (rank_le_postfixed m))
  | _ => exact ⟨_, rfl⟩

/-- What binds tighter may stand where something looser is asked for. -/
theorem Derives.loosen {l m : CLevel} {ws : List Token} {t : Tree}
    (h : Derives (.level m) ws (.tree t)) (hle : l.rank ≤ m.rank) :
    Derives (.level l) ws (.tree t) := by
  obtain ⟨n, hn⟩ := Nat.exists_eq_add_of_le hle
  induction n generalizing l with
  | zero => exact rank_injective hn ▸ h
  | succ n ih =>
    obtain ⟨k, hk⟩ := exists_tighter (show l.rank < m.rank by omega)
    have hrank := rank_tighter hk
    exact .operand hk (ih (by omega) (by omega))

theorem connectiveOf_mem (c : Connective) : connectiveOf c ∈ operators (.ofConnective c) := by
  cases c <;> decide

theorem compare_mem (op : CompareOp) : op.symbol ∈ operators (.ofCompare op) := by
  cases op <;> decide

/-- Two conjunctions, or two disjunctions, are joined to one. -/
theorem Derives.join (c : Connective) {ws vs : List Token} {t u : Tree}
    (ht : Derives (.level (.ofConnective c)) ws (.tree t))
    (hu : Derives (.level (.ofConnective c)) vs (.tree u)) :
    ∃ v, Derives (.level (.ofConnective c)) (ws ++ .symbol (connectiveOf c) :: vs) (.tree v) ∧
      v.Alike (.binary t (connectiveOf c) u) := by
  have hconnective : connectiveOf c = "&&" ∨ connectiveOf c = "||" := by
    cases c <;> simp [connectiveOf]
  generalize hsymbol : Symbol.level (.ofConnective c) = symbol at hu
  generalize hphrase : Phrase.tree u = phrase at hu
  -- the right one is taken apart from its end, and what is before that is joined first
  induction hu generalizing u with
  | operand h inner =>
    cases hsymbol
    cases hphrase
    exact ⟨_, .binary (connectiveOf_mem c) h ht inner, .refl _⟩
  | @binary l m ws' vs' left right op hop' h head last ihead =>
    cases hsymbol
    cases hphrase
    have hsame : op = connectiveOf c := by
      cases c <;> simpa [operators, CLevel.ofConnective, connectiveOf] using hop'
    subst hsame
    obtain ⟨v, hv, halike⟩ := ihead rfl rfl
    refine ⟨.binary v (connectiveOf c) right, ?_, ?_⟩
    · have hwords := Derives.binary hop' h hv last
      rwa [List.append_assoc] at hwords
    · exact .trans (.binary _ halike (.refl right)) (.assoc hconnective t left right)
  | _ => cases c <;> cases hsymbol

namespace Writes

theorem loosen {l m : CLevel} {text : String} {s : Tree} (h : Writes m text s)
    (hle : l.rank ≤ m.rank) : Writes l text s := by
  obtain ⟨ws, t, hspells, hderives, halike, hopens⟩ := h
  exact ⟨ws, t, hspells, hderives.loosen hle, halike, hopens⟩

/-- Parentheses let a text stand in every place. -/
theorem grouped {l : CLevel} {text : String} {s : Tree} (h : Writes l text s) :
    Writes .postfixed (CText.grouped text) s := by
  obtain ⟨ws, t, hspells, hderives, halike, -⟩ := h
  have hinner : Derives (.level .or) ws (.tree t) := hderives.loosen (rank_or_le l)
  exact ⟨_, t, hspells.enclosed encloses_round, .primary (.group hinner), halike,
    '(', (text ++ ")").toList, by simp [CText.grouped], by decide⟩

theorem operand {t : CText} {s : Tree} (h : Writes t.level t.text s) (l : CLevel) :
    Writes l (t.operand l.rank) s := by
  unfold CText.operand
  split
  · exact h.grouped.loosen (rank_le_postfixed l)
  · next hlt => exact h.loosen (Nat.le_of_not_lt hlt)

theorem operation {l m : CLevel} {op a b : String} {s s' : Tree} (hop : op ∈ operators l)
    (hm : tighter? l = some m) (ha : Writes l a s) (hb : Writes m b s') :
    Writes l (a ++ " " ++ op ++ " " ++ b) (.binary s op s') := by
  obtain ⟨ws, t, hspells, hderives, halike, hopens⟩ := ha
  obtain ⟨ws', t', hspells', hderives', halike', -⟩ := hb
  exact ⟨_, .binary t op t', hspells.operation (separates_operator hop) hspells',
    .binary hop hm hderives hderives', .binary op halike halike',
    (((hopens.append _).append _).append _).append _⟩

theorem binary {l : CLevel} {op : String} {a b : CText} {s s' : Tree} (hop : op ∈ operators l)
    (ha : Writes a.level a.text s) (hb : Writes b.level b.text s') :
    Writes l (CText.binary l op a b).text (.binary s op s') := by
  obtain ⟨m, hm⟩ : ∃ m, tighter? l = some m := by
    cases l with
    | postfixed => simp [operators] at hop
    | _ => exact ⟨_, rfl⟩
  have hb : Writes m (b.operand (l.rank + 1)) s' := rank_tighter hm ▸ hb.operand m
  exact (ha.operand l).operation hop hm hb

theorem join (c : Connective) {a b : String} {s s' : Tree} (ha : Writes (.ofConnective c) a s)
    (hb : Writes (.ofConnective c) b s') :
    Writes (.ofConnective c) (a ++ (" " ++ connectiveOf c ++ " ") ++ b)
      (.binary s (connectiveOf c) s') := by
  obtain ⟨ws, t, hspells, hderives, halike, hopens⟩ := ha
  obtain ⟨ws', t', hspells', hderives', halike', -⟩ := hb
  obtain ⟨v, hv, hvalike⟩ := hderives.join c hderives'
  exact ⟨_, v, hspells.separated (separates_operator (connectiveOf_mem c)) hspells', hv,
    hvalike.trans (.binary _ halike halike'), (hopens.append _).append _⟩

theorem junction (c : Connective) {texts : List String} {ss : List Tree}
    (h : List.Forall₂ (Writes (.ofConnective c)) texts ss) (hne : texts ≠ []) :
    ∃ s, junction? (connectiveOf c) ss = some s ∧
      Writes (.ofConnective c) ((" " ++ connectiveOf c ++ " ").intercalate texts) s := by
  induction h with
  | nil => exact absurd rfl hne
  | @cons text s texts ss hhead hrest ih =>
    cases hrest with
    | nil => exact ⟨s, rfl, by rwa [String.intercalate_singleton]⟩
    | @cons text' s' texts ss _ _ =>
      obtain ⟨u, hu, hwrites⟩ := ih (by simp)
      rw [String.intercalate_cons_cons]
      exact ⟨.binary s (connectiveOf c) u, by simp [junction?, hu], hhead.join c hwrites⟩

theorem connect (c : Connective) {ts : List CText} {ss : List Tree}
    (h : List.Forall₂ (fun t s => Writes t.level t.text s) ts ss) (hne : ts ≠ []) :
    ∃ s, junction? (connectiveOf c) ss = some s ∧
      Writes (.ofConnective c) (CText.connect c ts).text s := by
  have hsymbol : CText.connectiveSymbol c = connectiveOf c := by cases c <;> rfl
  have hoperands : List.Forall₂ (Writes (.ofConnective c))
      (ts.map (CText.operand (CLevel.ofConnective c).rank)) ss :=
    List.forall₂_map_left_iff.mpr (h.imp fun t s hwrites => hwrites.operand _)
  simp only [CText.connect, hsymbol]
  exact junction c hoperands (by simpa using hne)

/-- The arguments of a call and the indices of a subscript. -/
theorem list {ts : List CText} {ss : List Tree}
    (h : List.Forall₂ (fun t s => Writes t.level t.text s) ts ss) (hne : ts ≠ []) :
    ∃ ws us, lexer.Spells (", ".intercalate (ts.map (·.text))) ws ∧
      Derives .list ws (.trees us) ∧ Tree.AllAlike us ss := by
  induction h with
  | nil => exact absurd rfl hne
  | @cons t s ts ss hhead hrest ih =>
    obtain ⟨ws, u, hspells, hderives, halike, -⟩ : Writes .or t.text s :=
      hhead.loosen (rank_or_le _)
    cases hrest with
    | nil =>
      rw [List.map_singleton, String.intercalate_singleton]
      exact ⟨ws, [u], hspells, .last hderives, .cons halike .nil⟩
    | cons _ _ =>
      obtain ⟨vs, us, hspells', hderives', halike'⟩ := ih (by simp)
      rw [List.map_cons, List.map_cons, String.intercalate_cons_cons]
      exact ⟨_, u :: us, hspells.separated separates_comma hspells', .more hderives hderives',
        .cons halike halike'⟩

theorem name {text : String} (h : IsName text) : Writes .postfixed text (.name text) :=
  ⟨_, _, spells_name h, .primary (.name text), .refl _, opens_of_isName h⟩

theorem number {text : String} (h : IsNumeral text) : Writes .postfixed text (.number text) :=
  ⟨_, _, spells_numeral h, .primary (.number text), .refl _, opens_of_isNumeral h⟩

theorem call {callee : String} {ts : List CText} {ss : List Tree} (hc : IsName callee)
    (h : List.Forall₂ (fun t s => Writes t.level t.text s) ts ss) :
    Writes .postfixed (CText.call callee (ts.map (·.text))).text (.call (.name callee) ss) := by
  have hcallee : Derives (.level .postfixed) [.name callee] (.tree (.name callee)) :=
    .primary (.name callee)
  have hopens : Opens (callee ++ "(" ++ ", ".intercalate (ts.map (·.text)) ++ ")") :=
    (((opens_of_isName hc).append _).append _).append _
  have hargs : ∃ ws us, lexer.Spells (", ".intercalate (ts.map (·.text))) ws ∧
      Derives .args ws (.trees us) ∧ Tree.AllAlike us ss := by
    cases h with
    | nil => exact ⟨[], [], .empty, .noArg, .nil⟩
    | cons hhead hrest =>
      obtain ⟨ws, us, hspells, hderives, halike⟩ := list (.cons hhead hrest) (by simp)
      exact ⟨ws, us, hspells, .args hderives, halike⟩
  obtain ⟨ws, us, hspells, hderives, halike⟩ := hargs
  exact ⟨_, _, (spells_name hc).applied encloses_round hspells, .call hcallee hderives,
    .call (.refl _) halike, hopens⟩

theorem subscript {base : CText} {index : List CText} {s : Tree} {ss : List Tree}
    (hb : Writes base.level base.text s)
    (h : List.Forall₂ (fun t s => Writes t.level t.text s) index ss) (hne : index ≠ []) :
    Writes .postfixed (CText.subscript base index).text (.subscript s ss) := by
  obtain ⟨ws, t, hspells, hderives, halike, hopens⟩ := hb.operand .postfixed
  obtain ⟨ws', us, hspells', hderives', halike'⟩ := list h hne
  exact ⟨_, _, hspells.applied encloses_square hspells', .subscript hderives hderives',
    .subscript halike halike', ((hopens.append _).append _).append _⟩

theorem signed (op : UnaryOp) {text : String} {s : Tree} (h : Writes .unary text s)
    (hc : CText.clashes op text = false) :
    Writes .unary (CText.signSymbol op ++ text) (.unary (signOf op) s) := by
  obtain ⟨ws, t, hspells, hderives, halike, hopens⟩ := h
  have hsign : CText.signSymbol op = signOf op ∧ signOf op ∈ signs := by cases op <;> decide
  have hopens' : Opens (CText.signSymbol op ++ text) := by
    cases op <;> exact ⟨_, text.toList, by rw [String.toList_append]; rfl, by decide⟩
  refine ⟨_, .unary (signOf op) t, spells_sign hspells hopens hc, ?_, .unary _ halike, hopens'⟩
  rw [hsign.1]
  exact .sign hsign.2 hderives

theorem unary (op : UnaryOp) {t : CText} {s : Tree} (h : Writes t.level t.text s) :
    Writes .unary (CText.unary op t).text (.unary (signOf op) s) := by
  have hoperand : Writes .unary (t.operand CLevel.unary.rank) s := h.operand .unary
  simp only [CText.unary]
  split
  · have hgrouped : Writes .unary (CText.grouped (t.operand CLevel.unary.rank)) s :=
      hoperand.grouped.loosen (by decide)
    exact hgrouped.signed op (by cases op <;> simp [CText.clashes, CText.grouped])
  · next hc => exact hoperand.signed op (by simpa using hc)

/-- The comparisons of a chain are those of its neighbours. -/
theorem comparisons {left : CText} {s : Tree} {links : List (CompareOp × CText)}
    {sources : List (CompareOp × Tree)} (hl : Writes left.level left.text s)
    (h : List.Forall₂ (fun t s => t.1 = s.1 ∧ Writes t.2.level t.2.text s.2) links sources) :
    List.Forall₂ (Writes .and) (CText.comparisons left links) (neighbours s sources) := by
  induction h generalizing left s with
  | nil => exact .nil
  | @cons link source links sources hhead _ ih =>
    obtain ⟨op, right⟩ := link
    obtain ⟨_, s'⟩ := source
    obtain ⟨rfl, hright⟩ := hhead
    exact .cons ((hl.binary (compare_mem op) hright).loosen (by cases op <;> decide)) (ih hright)

theorem compare {left : CText} {s : Tree} {links : List (CompareOp × CText)}
    {sources : List (CompareOp × Tree)} (hl : Writes left.level left.text s)
    (h : List.Forall₂ (fun t s => t.1 = s.1 ∧ Writes t.2.level t.2.text s.2) links sources)
    (hne : links ≠ []) :
    ∃ u, junction? "&&" (neighbours s sources) = some u ∧
      Writes (CText.compare left links).level (CText.compare left links).text u := by
  have hcomparisons := hl.comparisons h
  -- one comparison keeps its own level, which binds tighter than a conjunction
  match links, sources, h, hne with
  | [(op, right)], [(_, s')], .cons ⟨rfl, hright⟩ .nil, _ =>
    exact ⟨_, rfl, hl.binary (compare_mem op) hright⟩
  | (op, right) :: link :: links, _, _, _ =>
    exact junction .and hcomparisons (by simp [CText.comparisons])

end Writes

end LoopNest.C
