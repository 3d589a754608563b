import LoopNest.Text.Trim
import Mathlib.Data.List.DropRight

/-!
# What trimming and cutting leave

A trimmed text stands between blanks in the text it comes from, and a text without blanks at its ends
is its own trimmed form. Cutting is described by where the first or the last separator stands.
-/

namespace LoopNest.Text

/-! ### Trimming -/

theorem trim_eq (cs : List Char) : trim cs = (cs.dropWhile isBlank).rdropWhile isBlank := rfl

/-- A trimmed text has lost blanks on both sides and nothing else. -/
theorem exists_blanks_trim (cs : List Char) :
    ∃ before after, cs = before ++ (trim cs ++ after) ∧ (∀ c ∈ before, isBlank c) ∧
      ∀ c ∈ after, isBlank c := by
  refine ⟨cs.takeWhile isBlank, (cs.dropWhile isBlank).rtakeWhile isBlank, ?_, ?_, ?_⟩
  · rw [trim_eq, List.rdropWhile_append_rtakeWhile, List.takeWhile_append_dropWhile]
  · exact fun c hc => List.mem_takeWhile_imp hc
  · exact fun c hc => List.mem_rtakeWhile_imp hc

theorem length_trim_le (cs : List Char) : (trim cs).length ≤ cs.length := by
  obtain ⟨before, after, h, -⟩ := exists_blanks_trim cs
  have hlength := congrArg List.length h
  simp only [List.length_append] at hlength
  omega

/-- A text that neither begins nor ends with a blank. -/
structure Tight (cs : List Char) : Prop where
  head : ∀ c ∈ cs.head?, isBlank c = false
  last : ∀ c ∈ cs.getLast?, isBlank c = false

theorem Tight.trim_eq {cs : List Char} (h : Tight cs) : trim cs = cs := by
  have hstart : cs.dropWhile isBlank = cs := by
    cases cs with
    | nil => rfl
    | cons c cs => exact List.dropWhile_cons_of_neg (by simp [h.head c rfl])
  rw [Text.trim_eq, hstart, List.rdropWhile_eq_self_iff]
  intro hne
  simp [h.last _ (List.getLast?_eq_some_getLast hne)]

theorem Tight.trim_concat {cs : List Char} (h : Tight cs) {c : Char} (hc : isBlank c) :
    trim (cs ++ [c]) = cs := by
  have htrim := h.trim_eq
  cases cs with
  | nil => simp [Text.trim_eq, hc]
  | cons d cs =>
    have hd : ¬ isBlank d := by simp [h.head d rfl]
    rw [Text.trim_eq, List.dropWhile_cons_of_neg hd] at htrim
    rw [Text.trim_eq, List.cons_append, List.dropWhile_cons_of_neg hd, ← List.cons_append,
      List.rdropWhile_concat_pos _ _ _ hc, htrim]

theorem tight_of_noBlank {cs : List Char} (h : ∀ c ∈ cs, isBlank c = false) : Tight cs :=
  ⟨fun c hc => h c (List.mem_of_mem_head? hc), fun c hc => h c (List.mem_of_mem_getLast? hc)⟩

/-- What is put between two texts does not matter for the ends. -/
theorem Tight.append {a b : List Char} (ha : Tight a) (hane : a ≠ []) (between : List Char)
    (hb : Tight b) (hbne : b ≠ []) : Tight (a ++ between ++ b) := by
  refine ⟨fun c hc => ha.head c ?_, fun c hc => hb.last c ?_⟩
  · rwa [List.append_assoc, List.head?_append_of_ne_nil _ hane] at hc
  · rwa [List.getLast?_append_of_ne_nil _ hbne] at hc

/-- The marks that divide the text of a set or of a map, blanks apart. -/
def dividers : List Char :=
  [',', ':', '[', ']', '\x7b', '\x7d', '-', '>']

/-- A text that nothing divides. -/
structure Undivided (cs : List Char) : Prop where
  ne_nil : cs ≠ []
  blank : ∀ c ∈ cs, isBlank c = false
  divider : ∀ c ∈ cs, c ∉ dividers

theorem Undivided.tight {cs : List Char} (h : Undivided cs) : Tight cs :=
  tight_of_noBlank h.blank

theorem Undivided.not_mem {cs : List Char} (h : Undivided cs) {c : Char} (hc : c ∈ dividers) :
    c ∉ cs :=
  fun hmem => h.divider c hmem hc

theorem Undivided.append {a b : List Char} (ha : Undivided a) (hb : Undivided b) :
    Undivided (a ++ b) :=
  ⟨List.append_ne_nil_of_left_ne_nil ha.ne_nil b, List.forall_mem_append.mpr ⟨ha.blank, hb.blank⟩,
    List.forall_mem_append.mpr ⟨ha.divider, hb.divider⟩⟩

theorem trim_cons_blank {c : Char} (hc : isBlank c) (cs : List Char) : trim (c :: cs) = trim cs := by
  rw [trim_eq, trim_eq, List.dropWhile_cons_of_pos hc]

/-! ### Cutting -/

theorem bne_of_not_mem {c : Char} {cs : List Char} (h : c ∉ cs) : ∀ d ∈ cs, (d != c) = true := by
  intro d hd
  simpa using fun hdc : d = c => h (hdc ▸ hd)

theorem cutAt?_append {c : Char} {before : List Char} (h : c ∉ before) (after : List Char) :
    cutAt? c (before ++ c :: after) = some (before, after) := by
  have hne := bne_of_not_mem h
  simp [cutAt?, List.dropWhile_append_of_pos hne, List.takeWhile_append_of_pos hne]

theorem cutAt?_eq_none {c : Char} {cs : List Char} (h : c ∉ cs) : cutAt? c cs = none := by
  have hne : cs.dropWhile (· != c) = [] := List.dropWhile_eq_nil_iff.mpr (bne_of_not_mem h)
  simp [cutAt?, hne]

theorem beforeLast?_append {c : Char} {after : List Char} (h : c ∉ after) (before : List Char) :
    beforeLast? c (before ++ c :: after) = some before := by
  have hne : ∀ d ∈ after.reverse, (d != c) = true := bne_of_not_mem (by simpa using h)
  simp [beforeLast?, List.dropWhile_append_of_pos hne]

theorem beforeLast?_eq_none {c : Char} {cs : List Char} (h : c ∉ cs) : beforeLast? c cs = none := by
  have hne : cs.reverse.dropWhile (· != c) = [] :=
    List.dropWhile_eq_nil_iff.mpr (bne_of_not_mem (by simpa using h))
  simp [beforeLast?, hne]

/-- A text that has a character has a last one of it. -/
theorem exists_last_of_mem {c : Char} {cs : List Char} (h : c ∈ cs) :
    ∃ before after, cs = before ++ c :: after ∧ c ∉ after := by
  obtain ⟨after, before, hcs, hafter⟩ := List.eq_append_cons_of_mem (List.mem_reverse.mpr h)
  refine ⟨before.reverse, after.reverse, ?_, by simpa using hafter⟩
  rw [← List.reverse_reverse cs, hcs]
  simp

/-- What stands between the first left and the last right. -/
theorem between?_append {left right : Char} {before after : List Char} (hb : left ∉ before)
    (ha : right ∉ after) (inside : List Char) :
    between? left right (before ++ left :: (inside ++ right :: after)) = some inside := by
  rw [between?, cutAt?_append hb]
  exact beforeLast?_append ha inside

theorem exists_of_between? {left right : Char} {cs inside : List Char}
    (h : between? left right cs = some inside) :
    ∃ before after, cs = before ++ left :: (inside ++ right :: after) := by
  by_cases hleft : left ∈ cs
  · obtain ⟨before, behind, rfl, hbefore⟩ := List.eq_append_cons_of_mem hleft
    rw [between?, cutAt?_append hbefore] at h
    dsimp only at h
    by_cases hright : right ∈ behind
    · obtain ⟨inside', after, rfl, hafter⟩ := exists_last_of_mem hright
      rw [beforeLast?_append hafter] at h
      cases h
      exact ⟨before, after, rfl⟩
    · rw [beforeLast?_eq_none hright] at h
      cases h
  · rw [between?, cutAt?_eq_none hleft] at h
    cases h

theorem between?_eq_none {left right : Char} {cs : List Char} (h : left ∉ cs) :
    between? left right cs = none := by
  rw [between?, cutAt?_eq_none h]

end LoopNest.Text
