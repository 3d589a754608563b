import LoopNest.Engine.Script
import Mathlib.Data.List.Basic

/-!
# How calls are rewritten in a script

A text is cut into pieces, which are calls and the characters between them. The table of functions
only grows while the calls are met, and a call that was met once is found again. So the rewritten text
is the text in which every call is written with the function that the last table has for it, and this
remains so when the conditions of further sets are read.
-/

namespace LoopNest.Script

/-- A call as it is written: the function and the text between the parentheses. -/
structure Call where
  source : List Char
  args : List Char
deriving DecidableEq, Inhabited

namespace Call

/-- The arguments without spaces. -/
def compact (c : Call) : List Char :=
  c.args.filter (· != ' ')

def arguments (c : Call) : List (List Char) :=
  (c.args.splitOn ',').map Text.trim

/-- What a function is applied to that is made for a call. -/
def applied (iterators : List String) (c : Call) : List (List Char) :=
  match reach c.arguments iterators with
  | [] => c.arguments
  | is => is.map String.toList

end Call

/-! ### The table of functions -/

def Variant.standsFor (v : Variant) (c : Call) : Bool :=
  v.source = c.source && v.arguments = c.compact

theorem Variant.standsFor_iff {v : Variant} {c : Call} :
    v.standsFor c ↔ v.source = c.source ∧ v.arguments = c.compact := by
  simp [standsFor]

namespace Variants

/-- The function for a call that was met. -/
def lookup? (vs : Variants) (c : Call) : Option Variant :=
  vs.find? (·.standsFor c)

/-- The functions of a source. -/
def of (vs : Variants) (source : List Char) : Variants :=
  vs.filter (·.source = source)

/-- A new function for a call. -/
def made (iterators : List String) (vs : Variants) (c : Call) : Variant :=
  ⟨c.source, c.compact, variantName c.source (vs.of c.source).length, c.applied iterators⟩

/-- The table after a call. -/
def meet (iterators : List String) (vs : Variants) (c : Call) : Variants :=
  (vs.resolve c.source c.args (c.applied iterators)).2

/-- The table after some calls. -/
def after (iterators : List String) (vs : Variants) (calls : List Call) : Variants :=
  calls.foldl (meet iterators) vs

@[simp] theorem after_nil (iterators : List String) (vs : Variants) : vs.after iterators [] = vs := rfl

@[simp] theorem after_cons (iterators : List String) (vs : Variants) (c : Call)
    (calls : List Call) :
    vs.after iterators (c :: calls) = (vs.meet iterators c).after iterators calls := rfl

variable {iterators : List String} {vs vs' : Variants} {c d : Call} {v : Variant}

theorem resolve_eq (vs : Variants) (c : Call) (iterators : List String) :
    vs.resolve c.source c.args (c.applied iterators) =
      match vs.lookup? c with
      | some v => (v, vs)
      | none => (vs.made iterators c, vs ++ [vs.made iterators c]) := rfl

theorem meet_of_some (h : vs.lookup? c = some v) : vs.meet iterators c = vs := by
  rw [meet, resolve_eq, h]

theorem meet_of_none (h : vs.lookup? c = none) :
    vs.meet iterators c = vs ++ [vs.made iterators c] := by
  rw [meet, resolve_eq, h]

theorem standsFor_made : (vs.made iterators c).standsFor c :=
  Variant.standsFor_iff.mpr ⟨rfl, rfl⟩

theorem prefix_meet (iterators : List String) (vs : Variants) (c : Call) :
    vs <+: vs.meet iterators c := by
  cases h : vs.lookup? c with
  | some v =>
    exact ⟨[], by rw [meet_of_some h, List.append_nil]⟩
  | none =>
    rw [meet_of_none h]
    exact List.prefix_append _ _

theorem prefix_after (iterators : List String) (vs : Variants) (calls : List Call) :
    vs <+: vs.after iterators calls := by
  induction calls generalizing vs with
  | nil => exact List.prefix_rfl
  | cons c calls ih => exact (vs.prefix_meet iterators c).trans (ih (vs.meet iterators c))

/-- A call that is found in a table is found in every longer one. -/
theorem lookup?_of_prefix (h : vs <+: vs') (hv : vs.lookup? c = some v) :
    vs'.lookup? c = some v := by
  obtain ⟨more, rfl⟩ := h
  rw [lookup?] at hv ⊢
  rw [List.find?_append, hv, Option.some_or]

/-- The function that a call is written with is in the table from then on. -/
theorem lookup?_meet (iterators : List String) (vs : Variants) (c : Call) :
    (vs.meet iterators c).lookup? c =
      some (vs.resolve c.source c.args (c.applied iterators)).1 := by
  rw [resolve_eq]
  cases h : vs.lookup? c with
  | some v => rw [meet_of_some h, h]
  | none =>
    rw [meet_of_none h]
    rw [lookup?] at h ⊢
    rw [List.find?_append, h, Option.none_or, List.find?_cons_of_pos (by exact standsFor_made)]

theorem exists_lookup?_after (iterators : List String) (vs : Variants) {calls : List Call}
    (hc : c ∈ calls) : ∃ v, (vs.after iterators calls).lookup? c = some v := by
  induction calls generalizing vs with
  | nil => cases hc
  | cons d calls ih =>
    rcases List.mem_cons.mp hc with rfl | hc
    · have hmet := vs.lookup?_meet iterators c
      exact ⟨_, lookup?_of_prefix (prefix_after iterators (vs.meet iterators c) calls) hmet⟩
    · exact ih (vs.meet iterators d) hc

end Variants

/-! ### The pieces of a text -/

inductive Piece where
  | plain (c : Char)
  | call (c : Call)
deriving DecidableEq, Inhabited

namespace Piece

def call? : Piece → Option Call
  | plain _ => none
  | call c => some c

/-- A piece as it is rewritten. -/
def written (vs : Variants) : Piece → List Char
  | plain c => [c]
  | call c => ((vs.lookup? c).map Variant.call).getD []

end Piece

/-- The calls of a text and the characters between them. The characters still to be passed over
belong to a call already found. -/
def piecesFrom : Nat → List Char → List Piece
  | _, [] => []
  | skip + 1, _ :: cs => piecesFrom skip cs
  | 0, c :: cs =>
    match callHere? (c :: cs) with
    | none => .plain c :: piecesFrom 0 cs
    | some (source, args) => .call ⟨source, args⟩ :: piecesFrom (source.length + args.length + 1) cs

def callsOf (ps : List Piece) : List Call :=
  ps.filterMap Piece.call?

@[simp] theorem callsOf_plain (c : Char) (ps : List Piece) :
    callsOf (.plain c :: ps) = callsOf ps := rfl

@[simp] theorem callsOf_call (c : Call) (ps : List Piece) :
    callsOf (.call c :: ps) = c :: callsOf ps := rfl

@[simp] theorem callsOf_append (ps qs : List Piece) :
    callsOf (ps ++ qs) = callsOf ps ++ callsOf qs :=
  List.filterMap_append

theorem tupledFrom_call {iterators : List String} {vs : Variants} {c : Char} {cs : List Char}
    (call : Call) (h : callHere? (c :: cs) = some (call.source, call.args)) :
    tupledFrom iterators 0 vs (c :: cs) =
      ((vs.resolve call.source call.args (call.applied iterators)).1.call ++
        (tupledFrom iterators (call.source.length + call.args.length + 1)
          (vs.meet iterators call) cs).1,
        (tupledFrom iterators (call.source.length + call.args.length + 1)
          (vs.meet iterators call) cs).2) := by
  rw [tupledFrom, h]
  rfl

/-- Rewriting writes every call with the function that the last table has for it. -/
theorem tupledFrom_eq (iterators : List String) (skip : Nat) (vs : Variants) (cs : List Char) :
    tupledFrom iterators skip vs cs =
      ((piecesFrom skip cs).flatMap
        (Piece.written (vs.after iterators (callsOf (piecesFrom skip cs)))),
        vs.after iterators (callsOf (piecesFrom skip cs))) := by
  induction cs generalizing skip vs with
  | nil => cases skip <;> rfl
  | cons c cs ih =>
    cases skip with
    | succ skip =>
      rw [tupledFrom, piecesFrom]
      exact ih skip vs
    | zero =>
      cases hcall : callHere? (c :: cs) with
      | none =>
        simp only [tupledFrom, piecesFrom, hcall, ih, callsOf_plain, List.flatMap_cons,
          Piece.written, List.singleton_append]
      | some found =>
        obtain ⟨source, args⟩ := found
        -- later calls only add functions, so the last table has the one that this call got
        have hlookup := Variants.lookup?_of_prefix
          (Variants.prefix_after iterators (vs.meet iterators ⟨source, args⟩)
            (callsOf (piecesFrom (source.length + args.length + 1) cs)))
          (vs.lookup?_meet iterators ⟨source, args⟩)
        rw [tupledFrom_call ⟨source, args⟩ hcall, ih, piecesFrom, hcall]
        simp only [callsOf_call, List.flatMap_cons, Piece.written, Variants.after_cons, hlookup,
          Option.map_some, Option.getD_some]

/-- A text is rewritten the same with every longer table. -/
theorem flatMap_written_of_prefix {iterators : List String} {vs vs' : Variants} {ps : List Piece}
    (h : vs.after iterators (callsOf ps) <+: vs') :
    ps.flatMap (Piece.written (vs.after iterators (callsOf ps))) = ps.flatMap (Piece.written vs') := by
  apply List.flatMap_congr
  intro p hp
  cases p with
  | plain c => rfl
  | call c =>
    have hc : c ∈ callsOf ps := List.mem_filterMap.mpr ⟨_, hp, rfl⟩
    obtain ⟨v, hv⟩ := vs.exists_lookup?_after iterators hc
    rw [Piece.written, Piece.written, hv, Variants.lookup?_of_prefix h hv]

/-! ### The sets of a request -/

def readSet? (request : Request) (name : String) : Option SetText :=
  (request.relations.find? name).bind SetText.ofText?

/-- The sets that can be read among some names of a request. -/
def setsAmong (request : Request) (names : List String) : List (String × SetText) :=
  names.filterMap fun name => (readSet? request name).map fun set => (name, set)

/-- The sets that a script defines, in order. -/
def setsOf (request : Request) : List (String × SetText) :=
  setsAmong request (scannedNames request)

def SetText.pieces (set : SetText) : List Piece :=
  piecesFrom 0 set.conditions

/-- The calls that a script rewrites, in order. -/
def callsIn (request : Request) : List Call :=
  (setsOf request).flatMap fun entry => callsOf entry.2.pieces

theorem setsAmong_cons_none {request : Request} {name : String} (h : readSet? request name = none)
    (names : List String) : setsAmong request (name :: names) = setsAmong request names := by
  rw [setsAmong, List.filterMap_cons, h]
  rfl

theorem setsAmong_cons_some {request : Request} {name : String} {set : SetText}
    (h : readSet? request name = some set) (names : List String) :
    setsAmong request (name :: names) = (name, set) :: setsAmong request names := by
  rw [setsAmong, List.filterMap_cons, h]
  rfl

/-- The table after the calls of a set. -/
def Variants.afterSet (vs : Variants) (set : SetText) : Variants :=
  vs.after set.iterators (callsOf set.pieces)

/-- The definition of a set with its calls rewritten. -/
def rewrittenLine (vs : Variants) (name : String) (set : SetText) : String :=
  setLine name set.iterators (singleEquals (set.pieces.flatMap (Piece.written vs)))

namespace Parts

theorem add_of_none {request : Request} {name : String} (h : readSet? request name = none)
    (p : Parts) : p.add request name = p := by
  rw [readSet?] at h
  rw [add, h]

theorem functions_add {request : Request} {name : String} {set : SetText}
    (h : readSet? request name = some set) (p : Parts) :
    (p.add request name).functions = p.functions.afterSet set := by
  rw [readSet?] at h
  rw [add, h]
  simp only [tupledFrom_eq]
  rfl

/-- A set adds its definition and the schedules. -/
theorem exists_lines_add {request : Request} {name : String} {set : SetText}
    (h : readSet? request name = some set) (p : Parts) :
    ∃ more, (p.add request name).lines =
      p.lines ++ rewrittenLine (p.functions.afterSet set) name set :: more := by
  rw [readSet?] at h
  rw [add, h]
  simp only [tupledFrom_eq]
  exact ⟨_, rfl⟩

theorem functions_foldl (request : Request) (names : List String) (p : Parts) :
    (names.foldl (Parts.add request) p).functions =
      (setsAmong request names).foldl (fun vs entry => vs.afterSet entry.2) p.functions := by
  induction names generalizing p with
  | nil => rfl
  | cons name names ih =>
    rw [List.foldl_cons, ih]
    cases h : readSet? request name with
    | none => rw [add_of_none h, setsAmong_cons_none h]
    | some set => rw [functions_add h, setsAmong_cons_some h, List.foldl_cons]

theorem prefix_foldl (request : Request) (names : List String) (p : Parts) :
    p.functions <+: (names.foldl (Parts.add request) p).functions ∧
      p.lines <+: (names.foldl (Parts.add request) p).lines := by
  induction names generalizing p with
  | nil => exact ⟨List.prefix_rfl, List.prefix_rfl⟩
  | cons name names ih =>
    obtain ⟨hfunctions, hlines⟩ := ih (p.add request name)
    cases h : readSet? request name with
    | none =>
      rw [add_of_none h] at hfunctions hlines
      rw [List.foldl_cons, add_of_none h]
      exact ⟨hfunctions, hlines⟩
    | some set =>
      obtain ⟨more, hmore⟩ := exists_lines_add h p
      refine ⟨.trans ?_ hfunctions, .trans ?_ hlines⟩
      · rw [functions_add h]
        exact Variants.prefix_after ..
      · rw [hmore]
        exact List.prefix_append _ _

/-- Every set is defined with its calls written by the last table. -/
theorem rewrittenLine_mem_foldl {request : Request} {names : List String} (p : Parts)
    {entry : String × SetText} (h : entry ∈ setsAmong request names) :
    rewrittenLine (names.foldl (Parts.add request) p).functions entry.1 entry.2 ∈
      (names.foldl (Parts.add request) p).lines := by
  induction names generalizing p with
  | nil => cases h
  | cons name names ih =>
    rw [List.foldl_cons]
    cases hset : readSet? request name with
    | none =>
      rw [setsAmong_cons_none hset] at h
      exact ih (p.add request name) h
    | some set =>
      rw [setsAmong_cons_some hset] at h
      rcases List.mem_cons.mp h with rfl | h
      · obtain ⟨hfunctions, hlines⟩ := prefix_foldl request names (p.add request name)
        obtain ⟨more, hmore⟩ := exists_lines_add hset p
        rw [functions_add hset] at hfunctions
        rw [rewrittenLine, ← flatMap_written_of_prefix hfunctions]
        apply hlines.subset
        rw [hmore]
        exact List.mem_append_right _ List.mem_cons_self
      · exact ih (p.add request name) h

end Parts

end LoopNest.Script
