import LoopNest.Code.Schedule
import LoopNest.Proofs.FunctionNames
import LoopNest.Proofs.TermTexts

/-!
# Schedules order points before statements

A schedule is a text, and the engine takes it for a map from the points of a space to times. The text
is read here without the code that writes it: a tuple of variables, an arrow, and a tuple of
coordinates, which are variables or numerals. The times of two statements at two points compare like
the points, and like the numbers of the statements where the points are equal.
-/

namespace LoopNest.Schedule

open Scan Script

/-! ### Reading a map -/

/-- A map of integer vectors as it stands in a text: its name, the variables for the components of a
vector, and the coordinates of the image. -/
structure MapText where
  name : String
  inputs : List String
  outputs : List String
deriving DecidableEq, Inhabited

/-- The text cut around the first `mark`, which `next` has to follow. Both are left out. -/
def cutAtPair? (mark next : Char) (cs : List Char) : Option (List Char × List Char) :=
  match Text.cutAt? mark cs with
  | some (before, c :: after) => if c = next then some (before, after) else none
  | _ => none

/-- The items of a tuple in brackets. -/
def tuple? (cs : List Char) : Option (List String) :=
  (Text.between? '[' ']' cs).map fun inside =>
    (((inside.splitOn ',').map Text.trim).filter (!·.isEmpty)).map String.ofList

/-- Reads a name, a sign of definition, and in braces two tuples with an arrow between them. -/
def MapText.ofText? (text : String) : Option MapText := do
  let (name, definition) ← cutAtPair? ':' '=' text.toList
  let body ← Text.between? '\x7b' '\x7d' definition
  let (source, target) ← cutAtPair? '-' '>' body
  return ⟨String.ofList (Text.trim name), ← tuple? source, ← tuple? target⟩

/-- A coordinate at a vector: a numeral stands for its number, and a variable for the component of the
vector at its place. -/
def coordinate? (inputs : List String) (x : List Int) (coordinate : String) : Option Int :=
  if !coordinate.toList.isEmpty && coordinate.toList.all Char.isDigit then
    some (Nat.ofDigitChars 10 coordinate.toList 0 : Nat)
  else (inputs.zip x).lookup coordinate

/-- The image of a vector with as many components as the map has variables. -/
def MapText.image? (m : MapText) (x : List Int) : Option (List Int) :=
  if x.length = m.inputs.length then m.outputs.mapM (coordinate? m.inputs x) else none

/-- The image of a vector under the map in the `k`-th of some texts. -/
def imageUnder? (texts : List String) (k : Nat) (x : List Int) : Option (List Int) := do
  let text ← texts[k]?
  let m ← MapText.ofText? text
  m.image? x

/-! ### The map of a schedule -/

theorem cutAtPair?_append {mark next : Char} {before : List Char} (h : mark ∉ before)
    (after : List Char) :
    cutAtPair? mark next (before ++ mark :: next :: after) = some (before, after) := by
  rw [cutAtPair?, Text.cutAt?_append h]
  exact if_pos rfl

theorem tuple?_append {before after blanks : List Char} (hbefore : '[' ∉ before)
    (hafter : ']' ∉ after) (hblanks : ∀ c ∈ blanks, Text.isBlank c) {names : List String}
    (h : ∀ name ∈ names, Text.Undivided name.toList) :
    tuple? (before ++
      '[' :: ((',' :: blanks).intercalate (names.map String.toList) ++ ']' :: after)) = some names := by
  rw [tuple?, Text.between?_append hbefore hafter, Option.map_some, names_of_tuple hblanks h]

theorem isWordRest_of_mem_toString {k : Nat} {c : Char} (h : c ∈ (toString k).toList) :
    isWordRest c :=
  isWordRest_of_isDigit (isDigit_of_mem_toString h)

theorem undivided_toString (k : Nat) : Text.Undivided (toString k).toList :=
  undivided_of_isWordRest (toList_toString_ne_nil k) fun _ hc => isWordRest_of_mem_toString hc

theorem undivided_name {space : String} (h : IsName space) (k : Nat) :
    Text.Undivided (name k space).toList := by
  have hnumbered : Text.Undivided ('r' :: (toString k).toList) :=
    undivided_of_isWordRest (List.cons_ne_nil _ _)
      (List.forall_mem_cons.mpr ⟨rfl, fun _ hc => isWordRest_of_mem_toString hc⟩)
  rw [name, String.toList_append, String.toList_append]
  exact hnumbered.append (undivided_of_isName h)

theorem undivided_time {iterators : List String} (h : ∀ i ∈ iterators, IsName i) (k : Nat) :
    ∀ t ∈ time iterators k, Text.Undivided t.toList := by
  refine List.forall_mem_append.mpr ⟨fun t ht => ?_, ?_⟩
  · obtain ⟨i, hi, ht⟩ := List.mem_flatMap.mp ht
    rcases List.mem_cons.mp ht with rfl | ht
    · exact undivided_toString 0
    · rw [List.mem_singleton.mp ht]
      exact undivided_of_isName (h i hi)
  · exact List.forall_mem_singleton.mpr (undivided_toString k)

/-- The text of a schedule is read as the map from the iterators to the time. -/
theorem ofText?_text {space : String} {iterators : List String} (hspace : IsName space)
    (hnames : ∀ i ∈ iterators, IsName i) (k : Nat) :
    MapText.ofText? (text space iterators k) =
      some ⟨name k space, iterators, time iterators k⟩ := by
  have hname := undivided_name hspace k
  have hinputs : ∀ i ∈ iterators, Text.Undivided i.toList :=
    fun i hi => undivided_of_isName (hnames i hi)
  generalize hsource : [','].intercalate (iterators.map String.toList) = source
  generalize htarget : [',', ' '].intercalate ((time iterators k).map String.toList) = target
  have htext : (text space iterators k).toList = ((name k space).toList ++ [' ']) ++ ':' :: '=' ::
      ([' '] ++ '\x7b' :: ((([] ++ '[' :: (source ++ ']' :: [' '])) ++ '-' :: '>' ::
        ([' '] ++ '[' :: (target ++ ']' :: []))) ++ '\x7d' :: [])) := by
    simp [text, String.toList_intercalate, ← hsource, ← htarget]
  have hcolon : ':' ∉ (name k space).toList ++ [' '] := by
    simpa using hname.not_mem (c := ':') (by decide)
  have harrow : '-' ∉ [] ++ '[' :: (source ++ ']' :: [' ']) := by
    simpa [← hsource] using not_mem_tuple (c := '-') (by decide) (by decide) hinputs
  rw [MapText.ofText?, htext, cutAtPair?_append hcolon]
  simp only [Option.bind_eq_bind, Option.bind_some]
  rw [Text.between?_append (by decide) (by decide), Option.bind_some, cutAtPair?_append harrow,
    Option.bind_some]
  dsimp only
  rw [← hsource, ← htarget, tuple?_append (by decide) (by decide) (by simp) hinputs,
    tuple?_append (by decide) (by decide) isBlank_space (undivided_time hnames k),
    hname.tight.trim_concat rfl, String.ofList_toList]
  rfl

/-! ### The time of a statement at a point -/

/-- The time of statement `k` at a point. -/
def timeAt (x : List Int) (k : Nat) : List Int :=
  x.flatMap (fun v => [0, v]) ++ [(k : Int)]

@[simp] theorem timeAt_nil (k : Nat) : timeAt [] k = [(k : Int)] := rfl

@[simp] theorem timeAt_cons (v : Int) (x : List Int) (k : Nat) :
    timeAt (v :: x) k = 0 :: v :: timeAt x k := rfl

theorem coordinate?_toString (inputs : List String) (x : List Int) (k : Nat) :
    coordinate? inputs x (toString k) = some (k : Int) := by
  have hdigits : (toString k).toList.all Char.isDigit :=
    List.all_eq_true.mpr fun c hc => isDigit_of_mem_toString hc
  have hempty : (toString k).toList.isEmpty = false := by
    simpa only [List.isEmpty_eq_false_iff] using toList_toString_ne_nil k
  rw [coordinate?, hdigits, hempty, ofDigitChars_toString]
  rfl

/-- Different variables stand for the components at their own places. -/
theorem coordinate?_name {inputs : List String} {x : List Int}
    (hnodup : ((inputs.zip x).map Prod.fst).Nodup) {i : String} (hi : IsName i) {v : Int}
    (h : (i, v) ∈ inputs.zip x) : coordinate? inputs x i = some v := by
  have hdigits : i.toList.all Char.isDigit = false := by
    obtain ⟨c, cs, hname, hc, -⟩ := hi
    simp [hname, not_isDigit_of_startsName hc]
  rw [coordinate?, hdigits, Bool.and_false, if_neg (by simp), List.lookup_eq_some_iff]
  obtain ⟨before, after, hsplit⟩ := List.append_of_mem h
  refine ⟨before, after, hsplit, fun p hp => ?_⟩
  rw [hsplit, List.map_append, List.nodup_append] at hnodup
  have hne := hnodup.2.2 p.1 (List.mem_map_of_mem hp) i List.mem_cons_self
  simpa using Ne.symm hne

/-- Iterators with a zero before each are read as their values with a zero before each. -/
theorem mapM_interleaved {iterators : List String} {x : List Int} {is : List String}
    {vs : List Int} (hlength : vs.length = is.length)
    (h : ∀ p ∈ is.zip vs, coordinate? iterators x p.1 = some p.2) :
    (is.flatMap fun i => ["0", i]).mapM (coordinate? iterators x) =
      some (vs.flatMap fun v => [0, v]) := by
  have hzero : coordinate? iterators x "0" = some 0 := coordinate?_toString iterators x 0
  induction is generalizing vs with
  | nil =>
    rw [List.length_eq_zero_iff.mp hlength]
    rfl
  | cons i is ih =>
    cases vs with
    | nil => cases hlength
    | cons v vs =>
      rw [List.zip_cons_cons] at h
      obtain ⟨hi, his⟩ := List.forall_mem_cons.mp h
      have hrest := ih (Nat.succ.inj hlength) his
      simp [hzero, hi, hrest]

theorem mapM_time {iterators : List String} (hnames : ∀ i ∈ iterators, IsName i)
    (hnodup : iterators.Nodup) {x : List Int} (hx : x.length = iterators.length) (k : Nat) :
    (time iterators k).mapM (coordinate? iterators x) = some (timeAt x k) := by
  have hvalues : ∀ p ∈ iterators.zip x, coordinate? iterators x p.1 = some p.2 := by
    intro p hp
    refine coordinate?_name ?_ (hnames p.1 (List.of_mem_zip hp).1) hp
    rwa [List.map_fst_zip (Nat.le_of_eq hx.symm)]
  rw [time, List.mapM_append, mapM_interleaved hx hvalues, List.mapM_cons, coordinate?_toString]
  rfl

/-- The schedules of a body map a point to the time of a statement, for each of its statements. -/
theorem imageUnder?_ofBody {space : String} {iterators : List String} (hspace : IsName space)
    (hnames : ∀ i ∈ iterators, IsName i) (hnodup : iterators.Nodup) {m k : Nat} {x y : List Int} :
    imageUnder? (ofBody space iterators m) k x = some y ↔
      (k < max m 1 ∧ x.length = iterators.length) ∧ y = timeAt x k := by
  have hread : imageUnder? (ofBody space iterators m) k x =
      if k < max m 1 ∧ x.length = iterators.length then some (timeAt x k) else none := by
    by_cases hk : k < max m 1
    · have htext : (ofBody space iterators m)[k]? = some (text space iterators k) := by
        rw [ofBody, List.getElem?_map, List.getElem?_range hk, Option.map_some]
      simp only [imageUnder?, htext, Option.bind_eq_bind, Option.bind_some,
        ofText?_text hspace hnames, MapText.image?]
      by_cases hx : x.length = iterators.length
      · rw [if_pos hx, mapM_time hnames hnodup hx, if_pos ⟨hk, hx⟩]
      · rw [if_neg hx, if_neg fun h => hx h.2]
    · have hnone : (ofBody space iterators m)[k]? = none := by
        simpa [ofBody] using hk
      rw [imageUnder?, hnone, if_neg fun h => hk h.1]
      rfl
  rw [hread, Option.ite_none_right_eq_some, Option.some.injEq, eq_comm (a := timeAt x k)]

/-! ### The order of times -/

theorem lex_timeAt_iff {x y : List Int} (h : x.length = y.length) {k l : Nat} :
    List.Lex (· < ·) (timeAt x k) (timeAt y l) ↔ List.Lex (· < ·) x y ∨ x = y ∧ k < l := by
  induction x generalizing y with
  | nil =>
    rw [List.length_eq_zero_iff.mp h.symm]
    simp [List.cons_lex_cons_iff]
  | cons v x ih =>
    cases y with
    | nil => cases h
    | cons w y =>
      have hrest := ih (Nat.succ.inj h)
      simp only [timeAt_cons, List.cons_lex_cons_iff, hrest, List.cons.injEq]
      grind

theorem timeAt_injective {x y : List Int} (h : x.length = y.length) {k l : Nat}
    (heq : timeAt x k = timeAt y l) : k = l ∧ x = y := by
  induction x generalizing y with
  | nil =>
    rw [List.length_eq_zero_iff.mp h.symm] at heq ⊢
    exact ⟨Int.ofNat_inj.mp (List.cons.inj heq).1, rfl⟩
  | cons v x ih =>
    cases y with
    | nil => cases h
    | cons w y =>
      simp only [timeAt_cons, List.cons.injEq, true_and] at heq
      obtain ⟨hk, hx⟩ := ih (Nat.succ.inj h) heq.2
      exact ⟨hk, by rw [heq.1, hx]⟩

/-- The number in the name of a schedule ends where the name of the space begins. -/
theorem takeWhile_isDigit_name {space : String} (h : IsName space) (k : Nat) :
    ((toString k).toList ++ space.toList).takeWhile Char.isDigit = (toString k).toList := by
  obtain ⟨c, cs, hname, hc, -⟩ := h
  rw [List.takeWhile_append_of_pos fun c hc => isDigit_of_mem_toString hc, hname,
    List.takeWhile_cons_of_neg (by simp [not_isDigit_of_startsName hc]), List.append_nil]

theorem name_injective {k l : Nat} {space other : String} (hspace : IsName space)
    (hother : IsName other) (h : name k space = name l other) : k = l ∧ space = other := by
  have hchars : (toString k).toList ++ space.toList = (toString l).toList ++ other.toList := by
    simpa [name] using congrArg String.toList h
  have hdigits := congrArg (List.takeWhile Char.isDigit) hchars
  rw [takeWhile_isDigit_name hspace, takeWhile_isDigit_name hother] at hdigits
  rw [hdigits] at hchars
  have hnumber := congrArg (Nat.ofDigitChars 10 · 0) hdigits
  simp only [ofDigitChars_toString] at hnumber
  exact ⟨hnumber, String.toList_inj.mp (List.append_cancel_left hchars)⟩

/-- What some schedules of statements do to the points of a space: every statement has a time at every
point, times compare like points and then like statements, and no two times are equal. -/
structure OrdersInstances (texts : List String) (dimension statements : Nat) : Prop where
  total : ∀ k < statements, ∀ x : List Int, x.length = dimension → ∃ y, imageUnder? texts k x = some y
  lex_iff : ∀ {k l : Nat} {x x' y y' : List Int}, imageUnder? texts k x = some y →
    imageUnder? texts l x' = some y' →
      (List.Lex (· < ·) y y' ↔ List.Lex (· < ·) x x' ∨ x = x' ∧ k < l)
  injective : ∀ {k l : Nat} {x x' y : List Int}, imageUnder? texts k x = some y →
    imageUnder? texts l x' = some y → k = l ∧ x = x'

/-- The schedules of a body order the points first and the statements at each point next, and the name
of a schedule tells its number and its space. -/
theorem ofBody_ordersInstances {space : String} {iterators : List String} (hspace : IsName space)
    (hnames : ∀ i ∈ iterators, IsName i) (hnodup : iterators.Nodup) (m : Nat) :
    OrdersInstances (ofBody space iterators m) iterators.length m ∧
      ∀ {k l : Nat} {first second : String}, IsName first → IsName second →
        name k first = name l second → k = l ∧ first = second := by
  have himage := @imageUnder?_ofBody space iterators hspace hnames hnodup m
  refine ⟨⟨fun k hk x hx => ?_, fun hy hy' => ?_, fun hy hy' => ?_⟩, name_injective⟩
  · exact ⟨timeAt x k, himage.mpr ⟨⟨Nat.lt_of_lt_of_le hk (Nat.le_max_left m 1), hx⟩, rfl⟩⟩
  · obtain ⟨⟨-, hx⟩, rfl⟩ := himage.mp hy
    obtain ⟨⟨-, hx'⟩, rfl⟩ := himage.mp hy'
    exact lex_timeAt_iff (hx.trans hx'.symm)
  · obtain ⟨⟨-, hx⟩, rfl⟩ := himage.mp hy
    obtain ⟨⟨-, hx'⟩, heq⟩ := himage.mp hy'
    exact timeAt_injective (hx.trans hx'.symm) heq

/-- Statement 9 at a point comes behind statement 10 at an earlier point, and before statement 10 at
the same point. -/
theorem ofBody_ordersInstances_digits :
    IsName "dmv" ∧ (∀ i ∈ ["i", "j"], IsName i) ∧ ["i", "j"].Nodup ∧
      OrdersInstances (ofBody "dmv" ["i", "j"] 11) ["i", "j"].length 11 ∧
      imageUnder? (ofBody "dmv" ["i", "j"] 11) 10 [-1, 7] = some [0, -1, 0, 7, 10] ∧
      imageUnder? (ofBody "dmv" ["i", "j"] 11) 9 [0, -2] = some [0, 0, 0, -2, 9] ∧
      imageUnder? (ofBody "dmv" ["i", "j"] 11) 10 [0, -2] = some [0, 0, 0, -2, 10] ∧
      List.Lex (· < ·) [0, -1, 0, 7, (10 : Int)] [0, 0, 0, -2, 9] ∧
      List.Lex (· < ·) [0, 0, 0, -2, (9 : Int)] [0, 0, 0, -2, 10] ∧
      name 10 "dmv" ≠ name 1 "i" := by
  have hi : IsName "i" := ⟨'i', [], rfl, by decide, by simp, by decide⟩
  have hj : IsName "j" := ⟨'j', [], rfl, by decide, by simp, by decide⟩
  have hspace : IsName "dmv" :=
    ⟨'d', ['m', 'v'], rfl, by decide, List.all_eq_true.mp (by decide), by decide⟩
  have hnames : ∀ i ∈ ["i", "j"], IsName i :=
    List.forall_mem_cons.mpr ⟨hi, List.forall_mem_singleton.mpr hj⟩
  obtain ⟨horders, hinjective⟩ := ofBody_ordersInstances hspace hnames (by decide) 11
  have hearlier : imageUnder? (ofBody "dmv" ["i", "j"] 11) 10 [-1, 7] = some [0, -1, 0, 7, 10] := by
    decide +kernel
  have hnine : imageUnder? (ofBody "dmv" ["i", "j"] 11) 9 [0, -2] = some [0, 0, 0, -2, 9] := by
    decide +kernel
  have hten : imageUnder? (ofBody "dmv" ["i", "j"] 11) 10 [0, -2] = some [0, 0, 0, -2, 10] := by
    decide +kernel
  refine ⟨hspace, hnames, by decide, horders, hearlier, hnine, hten, ?_, ?_, fun h => ?_⟩
  · exact (horders.lex_iff hearlier hnine).mpr (.inl (.rel (by decide)))
  · exact (horders.lex_iff hnine hten).mpr (.inr ⟨rfl, by decide⟩)
  · exact absurd (hinjective hspace hi h).1 (by decide)

end LoopNest.Schedule
