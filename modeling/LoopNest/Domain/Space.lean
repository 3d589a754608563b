import LoopNest.Domain.Term

/-! # Iteration spaces

A space is a name, its iterators from the outermost loop inwards, and the relations between terms
that its points satisfy. It is written in two forms: for the scanning engine, and as the header it
came from.
-/

namespace LoopNest

/-- A comparison of two terms, or of three when it has a middle one. The identity tells relations
apart while a header is read. -/
structure Relation where
  id : Nat
  left : Term
  leftOp : CompareOp
  mid : Option Term
  rightOp : Option CompareOp
  right : Term
deriving Inhabited

namespace Relation

def isBounded (r : Relation) : Bool :=
  r.mid.isSome

/-- All terms of a relation from left to right. -/
def terms (r : Relation) : List Term :=
  r.left :: r.mid.toList ++ [r.right]

/-- The middle term is written only with the operator behind it. -/
def middle? (r : Relation) : Option (Term × CompareOp) :=
  match r.mid, r.rightOp with
  | some mid, some op => some (mid, op)
  | _, _ => none

/-- The terms that the text of a relation shows. -/
def writtenTerms (r : Relation) : List Term :=
  r.left :: (r.middle?.map (·.1)).toList ++ [r.right]

/-- All terms of a relation are written, unless a middle term or a right operator stands alone. -/
theorem writtenTerms_eq_terms {r : Relation} (h : r.mid.isSome = r.rightOp.isSome) :
    r.writtenTerms = r.terms := by
  obtain ⟨_, left, leftOp, mid, rightOp, right⟩ := r
  cases mid <;> cases rightOp <;> simp_all [terms, writtenTerms, middle?]

def text (r : Relation) : String :=
  let middle :=
    match r.middle? with
    | some (mid, op) => mid.text ++ " " ++ op.symbol ++ " "
    | none => ""
  r.left.text ++ " " ++ r.leftOp.symbol ++ " " ++ middle ++ r.right.text

def symbols (r : Relation) : List String :=
  Term.symbolsAll r.terms

/-- The terms of a relation are walked from left to right. -/
def walk {σ : Type} (v : Term.Visitor σ) (r : Relation) (state : σ) : σ :=
  let state := r.left.walk v state
  let state :=
    match r.mid with
    | some mid => mid.walk v state
    | none => state
  r.right.walk v state

theorem walk_eq_walkAll {σ : Type} (v : Term.Visitor σ) (r : Relation) (state : σ) :
    r.walk v state = Term.walkAll v r.terms state := by
  unfold walk terms
  cases r.mid <;> rfl

/-- The constants met while a relation is written. -/
def writtenConstants (r : Relation) : List String :=
  Term.constantsAll r.writtenTerms

/-- The relations with this one in the place of the last one that has its identity. -/
def replaceLast? (r : Relation) : List Relation → Option (List Relation)
  | [] => none
  | old :: rest =>
    match replaceLast? r rest with
    | some rest => some (old :: rest)
    | none => if old.id = r.id then some (r :: rest) else none

theorem replaceLast?_eq_none_iff {r : Relation} {rs : List Relation} :
    r.replaceLast? rs = none ↔ ∀ old ∈ rs, old.id ≠ r.id := by
  induction rs with
  | nil => simp [replaceLast?]
  | cons old rest ih =>
    rw [replaceLast?, List.forall_mem_cons, ← ih]
    cases r.replaceLast? rest <;> simp

/-- One relation is replaced, and none behind it has the identity. -/
theorem exists_of_replaceLast? {r : Relation} {rs rs' : List Relation}
    (h : r.replaceLast? rs = some rs') :
    ∃ before old after, rs = before ++ old :: after ∧ rs' = before ++ r :: after ∧
      old.id = r.id ∧ ∀ later ∈ after, later.id ≠ r.id := by
  induction rs generalizing rs' with
  | nil => cases h
  | cons first rest ih =>
    rw [replaceLast?] at h
    cases hrest : r.replaceLast? rest with
    | some rest' =>
      rw [hrest] at h
      cases h
      obtain ⟨before, old, after, rfl, rfl, hid, hafter⟩ := ih hrest
      exact ⟨first :: before, old, after, rfl, rfl, hid, hafter⟩
    | none =>
      simp only [hrest, Option.ite_none_right_eq_some] at h
      obtain ⟨hid, hnew⟩ := h
      cases hnew
      exact ⟨[], first, rest, rfl, rfl, hid, replaceLast?_eq_none_iff.mp hrest⟩

theorem replaceLast?_concat {r old : Relation} (rs : List Relation) (h : old.id = r.id) :
    r.replaceLast? (rs ++ [old]) = some (rs ++ [r]) := by
  induction rs with
  | nil => simp [replaceLast?, h]
  | cons first rest ih => rw [List.cons_append, replaceLast?, ih, List.cons_append]

end Relation

structure Space where
  name : String
  iterators : List String
  relations : List Relation
deriving Inhabited

namespace Space

def named (name : String) : Space :=
  ⟨name, [], []⟩

/-- An iterator that is there already keeps its place. -/
def addIterator (s : Space) (iterator : String) : Space :=
  { s with iterators := Names.insert s.iterators iterator }

/-- A relation takes the place of the last one with its identity, or a place behind all. -/
def addRelation (s : Space) (r : Relation) : Space :=
  { s with relations := (r.replaceLast? s.relations).getD (s.relations ++ [r]) }

def hasIterator (s : Space) (name : String) : Bool :=
  name ∈ s.iterators

/-- The relations of a space are walked in turn. -/
def walk {σ : Type} (v : Term.Visitor σ) (s : Space) (state : σ) : σ :=
  s.relations.foldl (fun state r => r.walk v state) state

/-- The constants of a space, each at its first appearance. -/
def constants (s : Space) : List String :=
  s.walk .constants []

theorem constants_eq_distinct (s : Space) :
    s.constants = Names.distinct (s.relations.flatMap fun r => Term.constantsAll r.terms) := by
  have hwalk (rs : List Relation) (names : List String) :
      rs.foldl (fun names r => r.walk .constants names) names =
        Names.union names (rs.flatMap fun r => Term.constantsAll r.terms) := by
    induction rs generalizing names with
    | nil => rfl
    | cons r rs ih =>
      rw [List.foldl_cons, ih, Relation.walk_eq_walkAll, Term.walkAll_constants, List.flatMap_cons,
        Names.union_append]
  exact hwalk s.relations []

theorem nodup_constants (s : Space) : s.constants.Nodup :=
  s.constants_eq_distinct ▸ Names.nodup_distinct _

def symbols (s : Space) : List String :=
  s.relations.flatMap Relation.symbols

/-- The two ways of writing a space. -/
inductive Form where
  | engine | source
deriving DecidableEq, Inhabited

/-- What stands before the relations of a space. -/
def Form.opening : Form → String
  | engine => " : "
  | source => ": "

/-- What stands between the relations of a space. -/
def Form.conjunction : Form → String
  | engine => " && "
  | source => " ^ "

def text (s : Space) (form : Form) : String :=
  let relations :=
    match s.relations with
    | [] => ""
    | rs => form.opening ++ form.conjunction.intercalate (rs.map Relation.text)
  s.name ++ " = \x7b[" ++ ", ".intercalate s.iterators ++ "]" ++ relations ++ "\x7d"

end Space

end LoopNest
