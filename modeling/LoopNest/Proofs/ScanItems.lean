import LoopNest.Proofs.CursorReading

/-!
# The items of a text

Every lexeme takes a character at least, so the scanner reaches the end of its text within as many
items as there are characters. The end of the input is then the last item, and the only one of its
kind.
-/

namespace LoopNest

namespace Scan

theorem spelling?_eq_some {cs : List Char} {s : List Char × Token.Kind}
    (h : spelling? cs = some s) : s ∈ spellings ∧ s.1 <+: cs := by
  unfold spelling? at h
  exact ⟨List.mem_of_find?_eq_some h, by simpa using List.find?_some h⟩

theorem spellings_ne_nil : ∀ s ∈ spellings, s.1 ≠ [] := by
  decide

/-- The digits and the fraction that a number begins with. -/
def mantissa (cs : List Char) : List Char :=
  let whole := cs.takeWhile Char.isDigit
  whole ++ fraction (cs.drop whole.length)

theorem mantissa_ne_nil {c : Char} {cs : List Char}
    (h : c.isDigit || (c = '.' && startsWithDigit cs)) : mantissa (c :: cs) ≠ [] := by
  unfold mantissa
  by_cases hc : c.isDigit
  · simp [hc]
  · have hdot : c = '.' ∧ startsWithDigit cs = true := by simpa [hc] using h
    simp [fraction, hdot]

/-- A number is its mantissa and what may follow it. -/
theorem number_text (cs : List Char) : ∃ tail, (number cs).text = mantissa cs ++ tail := by
  unfold number mantissa
  dsimp only
  split
  · exact ⟨_, rfl⟩
  · split
    · split
      · exact ⟨_, List.append_assoc ..⟩
      · exact ⟨_, rfl⟩
    · exact ⟨_, rfl⟩

theorem lexeme?_text_ne_nil {depth : Nat} {cs : List Char} {l : Lexeme}
    (h : lexeme? depth cs = some l) : l.text ≠ [] := by
  unfold lexeme? at h
  split at h
  · cases h
  · split at h
    · next hs =>
      cases h
      exact spellings_ne_nil _ (spelling?_eq_some hs).1
    · split at h
      · next c cs _ _ hd =>
        cases h
        obtain ⟨tail, htext⟩ := number_text (c :: cs)
        rw [htext]
        exact List.append_ne_nil_of_left_ne_nil (mantissa_ne_nil hd) tail
      · split at h <;> cases h <;> simp [identifier]

end Scan

namespace Scanner

/-- An item that is not the end of the input takes a character at least. -/
theorem next_length_lt {s : Scanner} (h : s.next.1.isEnd = false) :
    s.next.2.rest.length < s.rest.length := by
  unfold next at h ⊢
  dsimp only at h ⊢
  split at h
  · simp [Scan.Item.isEnd, Token.isEnd] at h
  · next l hl =>
    have hdrop : ((s.rest.drop (Scan.gap s.depth false s.rest).length).drop l.text.length).length <
        s.rest.length := by
      have hpos := List.length_pos_iff.mpr (Scan.lexeme?_text_ne_nil hl)
      have hrest : s.rest.drop (Scan.gap s.depth false s.rest).length ≠ [] := by
        intro hnil
        rw [hnil] at hl
        cases hl
      have hlen := List.length_pos_iff.mpr hrest
      simp only [List.length_drop] at hlen ⊢
      omega
    split <;> exact hdrop

theorem run_ended {n : Nat} {s : Scanner} (h : s.rest.length < n) :
    Cursor.Ended (s.run n).1 := by
  induction n generalizing s with
  | zero => omega
  | succ n ih =>
    rw [run]
    cases hend : s.next.1.isEnd with
    | true => simp [hend, Cursor.Ended]
    | false =>
      have hrest := ih (Nat.lt_of_lt_of_le (next_length_lt hend) (Nat.le_of_lt_succ h))
      simp only [hend, Bool.false_eq_true, if_false]
      cases hrun : (s.next.2.run n).1 with
      | nil =>
        rw [hrun] at hrest
        exact hrest.elim
      | cons i is =>
        rw [hrun] at hrest
        exact ⟨hend, hrest⟩

end Scanner

namespace Scan

/-- The end of the input is the last item of a text, and no other. -/
theorem items_ended (source : String) : Cursor.Ended (items source) :=
  Scanner.run_ended (Nat.lt_succ_self _)

theorem tokensOf_eq_ok_iff {is : List Item} {ts : List Token} :
    tokensOf is = .ok ts ↔ is = ts.map .token := by
  induction is generalizing ts with
  | nil =>
    cases ts <;> simp [tokensOf]
  | cons i is ih =>
    cases i with
    | fault e => cases ts <;> simp [tokensOf]
    | token t =>
      rw [tokensOf]
      constructor
      · intro h
        cases hrest : tokensOf is with
        | error e => simp [hrest] at h
        | ok us =>
          simp only [hrest, Except.ok.injEq] at h
          rw [← h, List.map_cons, ih.mp hrest]
      · intro h
        cases ts with
        | nil => cases h
        | cons u us =>
          simp only [List.map_cons, List.cons.injEq, Item.token.injEq] at h
          rw [ih.mpr h.2, h.1]

end Scan

end LoopNest
