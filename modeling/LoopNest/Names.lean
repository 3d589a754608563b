/-! # Lists of distinct names

Names are kept in the order in which they were first met.
-/

namespace LoopNest.Names

/-- A name is added behind the others unless it is among them. -/
def insert (names : List String) (name : String) : List String :=
  if name ∈ names then names else names ++ [name]

/-- More names, each added in turn. -/
def union (names more : List String) : List String :=
  more.foldl insert names

/-- The names without their repetitions. -/
def distinct (names : List String) : List String :=
  union [] names

@[simp] theorem mem_insert {names : List String} {name other : String} :
    other ∈ insert names name ↔ other ∈ names ∨ other = name := by
  unfold insert
  split <;> simp_all

theorem nodup_insert {names : List String} {name : String} (h : names.Nodup) :
    (insert names name).Nodup := by
  unfold insert
  split
  · exact h
  · next hn =>
    rw [List.nodup_append]
    exact ⟨h, by simp, fun a ha b hb => by simp at hb; subst hb; exact fun he => hn (he ▸ ha)⟩

theorem union_append (names more rest : List String) :
    union names (more ++ rest) = union (union names more) rest :=
  List.foldl_append

theorem mem_union {names more : List String} {name : String} :
    name ∈ union names more ↔ name ∈ names ∨ name ∈ more := by
  induction more generalizing names with
  | nil => simp [union]
  | cons first more ih =>
    rw [union, List.foldl_cons, ← union, ih, mem_insert, List.mem_cons, or_assoc]

theorem nodup_union {names more : List String} (h : names.Nodup) : (union names more).Nodup := by
  induction more generalizing names with
  | nil => exact h
  | cons first more ih => exact ih (nodup_insert h)

theorem union_of_nodup {names more : List String} (h : (names ++ more).Nodup) :
    union names more = names ++ more := by
  induction more generalizing names with
  | nil => simp [union]
  | cons first more ih =>
    have hfirst : first ∉ names := by
      intro hmem
      exact (List.nodup_append.mp h).2.2 first hmem first List.mem_cons_self rfl
    have hinsert : insert names first = names ++ [first] := by simp [insert, hfirst]
    rw [union, List.foldl_cons, hinsert, ← union, ih (by simpa using h), List.append_assoc]
    rfl

@[simp] theorem mem_distinct {names : List String} {name : String} :
    name ∈ distinct names ↔ name ∈ names := by
  simp [distinct, mem_union]

theorem nodup_distinct (names : List String) : (distinct names).Nodup :=
  nodup_union List.nodup_nil

/-- A last name is added to the distinct names before it. -/
theorem distinct_concat (names : List String) (name : String) :
    distinct (names ++ [name]) = insert (distinct names) name := by
  simp [distinct, union]

theorem insert_eraseDups (names : List String) (name : String) :
    insert names.eraseDups name = (names ++ [name]).eraseDups := by
  rw [List.eraseDups_append, insert]
  by_cases h : name ∈ names <;> simp [List.removeAll, List.eraseDups_cons, h]

theorem union_eraseDups (names more : List String) :
    union names.eraseDups more = (names ++ more).eraseDups := by
  induction more generalizing names with
  | nil => simp [union]
  | cons first more ih =>
    rw [union, List.foldl_cons, insert_eraseDups, ← union, ih, List.append_assoc]
    rfl

/-- Each name stays at its first appearance. -/
theorem distinct_eq_eraseDups (names : List String) : distinct names = names.eraseDups :=
  union_eraseDups [] names

end LoopNest.Names
