import LoopNest.Proofs.Relocation
import LoopNest.Source.Lines
import Mathlib.Data.List.Induction

/-!
# Places in a text

What stands before a place determines it: the offset is the size of that text, the line is one more
than the newlines in it, and the column one more than the characters behind the last of them. Going
on character by character from the start of a text leads to the same place. The line with the number
of a place shows, from its column on, what stands there.
-/

namespace LoopNest

namespace Source

/-- What stands behind the last newline of a text. -/
def lastLine (cs : List Char) : List Char :=
  (cs.reverse.takeWhile (· != '\n')).reverse

/-- The stretch of a text between two offsets. -/
def Covers (source : String) (start stop : Nat) (text : String) : Prop :=
  ∃ before behind, source = before ++ text ++ behind ∧ start = before.utf8ByteSize ∧
    stop = (before ++ text).utf8ByteSize

end Source

open Source

namespace Location

/-- The place behind a text. -/
def behind (text : String) : Location where
  line := text.toList.count '\n' + 1
  column := (lastLine text.toList).length + 1
  offset := text.utf8ByteSize

/-- A place in a text. -/
def In (source : String) (l : Location) : Prop :=
  ∃ before rest, source = before ++ rest ∧ l = behind before

end Location

namespace Source

theorem lastLine_concat (cs : List Char) (c : Char) :
    lastLine (cs ++ [c]) = if c = '\n' then [] else lastLine cs ++ [c] := by
  by_cases hc : c = '\n' <;> simp [lastLine, hc]

end Source

namespace Location

theorem column_after (l : Location) (cs : List Char) (c : Char) :
    (l.after (cs ++ [c])).column = if c = '\n' then 1 else (l.after cs).column + 1 := by
  rw [after_append, after_cons, after_nil, next]
  split <;> rfl

theorem column_start_after (cs : List Char) :
    (start.after cs).column = (lastLine cs).length + 1 := by
  induction cs using List.reverseRecOn with
  | nil => rfl
  | append_singleton cs c ih =>
    rw [column_after, lastLine_concat, ih]
    split <;> simp

/-- The place behind a text is found by going through it. -/
theorem start_after (cs : List Char) : start.after cs = behind (String.ofList cs) := by
  have hline := line_after start cs
  have hoffset := offset_after start cs
  rw [behind, String.toList_ofList, ← column_start_after]
  simp only [start, Nat.zero_add, Nat.add_comm 1] at hline hoffset
  rw [← hline, ← hoffset]
  rfl

/-- Within a line every character takes a column. -/
theorem column_after_line (l : Location) {text : List Char} (h : '\n' ∉ text) :
    (l.after text).column = l.column + text.length := by
  induction text generalizing l with
  | nil => rfl
  | cons c text ih =>
    rw [List.mem_cons, not_or] at h
    have hnext : (l.next c).column = l.column + 1 := by rw [next, if_neg (Ne.symm h.1)]
    rw [after_cons, ih _ h.2, hnext, List.length_cons]
    omega

theorem offset_le_after (l : Location) (text : List Char) : l.offset ≤ (l.after text).offset := by
  rw [offset_after]
  exact Nat.le_add_right ..

theorem offset_lt_after (l : Location) {text : List Char} (h : text ≠ []) :
    l.offset < (l.after text).offset := by
  have hsize : (String.ofList text).utf8ByteSize ≠ 0 := by simpa using h
  rw [offset_after]
  exact Nat.lt_add_of_pos_right (Nat.pos_of_ne_zero hsize)

theorem offset_start_after (cs : List Char) :
    (start.after cs).offset = (String.ofList cs).utf8ByteSize := by
  rw [start_after]
  rfl

theorem in_start_after {source : String} {before rest : List Char}
    (h : source.toList = before ++ rest) : (start.after before).In source := by
  refine ⟨String.ofList before, String.ofList rest, ?_, start_after before⟩
  rw [← String.ofList_append, ← h, String.ofList_toList]

end Location

/-- The stretch that is gone through between two places. -/
theorem Source.covers_after {source : String} {before text behind : List Char}
    (h : source.toList = before ++ (text ++ behind)) :
    Covers source (Location.start.after before).offset
      ((Location.start.after before).after text).offset (String.ofList text) := by
  refine ⟨String.ofList before, String.ofList behind, ?_, Location.offset_start_after before, ?_⟩
  · rw [← String.ofList_append, ← String.ofList_append, List.append_assoc, ← h, String.ofList_toList]
  · rw [← Location.after_append, Location.offset_start_after, String.ofList_append]

theorem Source.covers_rest {source : String} {before rest : List Char}
    (h : source.toList = before ++ rest) :
    Covers source (Location.start.after before).offset source.utf8ByteSize (String.ofList rest) := by
  refine ⟨String.ofList before, "", ?_, Location.offset_start_after before, ?_⟩
  · rw [String.append_empty, ← String.ofList_append, ← h, String.ofList_toList]
  · rw [← String.ofList_append, ← h, String.ofList_toList]

/-! ### Lines -/

namespace Source

theorem length_splitOn_newline (cs : List Char) :
    (cs.splitOn '\n').length = cs.count '\n' + 1 := by
  induction cs with
  | nil => rfl
  | cons c cs ih =>
    rw [List.splitOn_cons_eq_if_modifyHead, List.count_cons]
    split
    · rw [List.length_cons, ih]
    · rw [List.length_modifyHead, ih]

theorem getElem?_zero_splitOn_newline (cs : List Char) :
    (cs.splitOn '\n')[0]? = some (cs.takeWhile (· != '\n')) := by
  induction cs with
  | nil => rfl
  | cons c cs ih =>
    rw [List.splitOn_cons_eq_if_modifyHead]
    by_cases hc : c = '\n'
    · simp [hc]
    · simp [hc, ih]

/-- The stretch around a place: what stands before it on its line, and what stands behind it. -/
theorem getElem?_splitOn_newline (before rest : List Char) :
    ((before ++ rest).splitOn '\n')[before.count '\n']? =
      some (lastLine before ++ rest.takeWhile (· != '\n')) := by
  -- from the back, so that a character moves from the text before the place to the text behind it
  induction before using List.reverseRecOn generalizing rest with
  | nil => exact getElem?_zero_splitOn_newline rest
  | append_singleton before c ih =>
    rw [List.append_assoc, List.singleton_append, lastLine_concat]
    by_cases hc : c = '\n'
    · have hcount : (before ++ ['\n']).count '\n' = (before.splitOn '\n').length := by
        rw [length_splitOn_newline, List.count_append, List.count_singleton_self]
      rw [hc, List.splitOn_append_cons_self, hcount, List.getElem?_append_right (Nat.le_refl _),
        Nat.sub_self, getElem?_zero_splitOn_newline]
      simp
    · have hcount : (before ++ [c]).count '\n' = before.count '\n' := by simp [hc]
      rw [hcount, ih, if_neg hc, List.append_assoc]
      simp [hc]

/-- A stretch that holds something is a line, but for the carriage return at its end. -/
theorem getElem?_endLines {ls : List (List Char)} {k : Nat} {l : List Char} (h : ls[k]? = some l)
    (hne : l ≠ []) :
    (endLines ls)[k]? = some l ∨ (endLines ls)[k]? = some (dropReturn l) := by
  fun_induction endLines ls generalizing k with
  | case1 => cases h
  | case2 last hempty =>
    cases k with
    | zero => simp_all
    | succ k => cases h
  | case3 last hempty => exact .inl h
  | case4 first ls hls ih =>
    cases k with
    | zero =>
      cases h
      exact .inr rfl
    | succ k => exact ih h

theorem dropReturn_append {text : List Char} (hne : text ≠ []) (hreturn : '\r' ∉ text)
    (before more : List Char) :
    ∃ rest, dropReturn (before ++ text ++ more) = before ++ text ++ rest := by
  rw [dropReturn]
  split
  · next hlast =>
    by_cases hmore : more = []
    · rw [hmore, List.append_nil, List.getLast?_append, List.getLast?_eq_some_getLast hne] at hlast
      have hmem := List.getLast_mem hne
      rw [Option.some.inj hlast] at hmem
      exact absurd hmem hreturn
    · exact ⟨more.dropLast, List.dropLast_append_of_ne_nil hmore⟩
  · exact ⟨more, rfl⟩

/-- A stretch of text that ends no line is found on the line of its place, from the column of its
place on. -/
theorem exists_line {source : String} {before text behind : List Char}
    (h : source.toList = before ++ (text ++ behind)) (hne : text ≠ []) (hnewline : '\n' ∉ text)
    (hreturn : '\r' ∉ text) :
    ∃ rest, line? source (before.count '\n' + 1) =
      some (String.ofList (lastLine before ++ text ++ rest)) := by
  have htext : (text ++ behind).takeWhile (· != '\n') = text ++ behind.takeWhile (· != '\n') := by
    rw [List.takeWhile_append_of_pos]
    intro c hc
    simpa using fun heq : c = '\n' => hnewline (heq ▸ hc)
  have hstretch := getElem?_splitOn_newline before (text ++ behind)
  rw [← h, htext, ← List.append_assoc] at hstretch
  obtain ⟨rest, hrest⟩ :=
    dropReturn_append hne hreturn (lastLine before) (behind.takeWhile (· != '\n'))
  have hlines := getElem?_endLines hstretch (by simp [hne])
  rw [hrest] at hlines
  simp only [line?, lines, List.getElem?_map]
  rcases hlines with hline | hline
  · exact ⟨_, by rw [hline]; rfl⟩
  · exact ⟨_, by rw [hline]; rfl⟩

end Source

end LoopNest
