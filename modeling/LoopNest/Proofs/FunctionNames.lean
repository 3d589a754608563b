import LoopNest.Proofs.CallRewriting
import Mathlib.Data.List.Dedup
import Mathlib.Data.List.DropRight
import Mathlib.Data.List.Nodup

/-!
# The names of functions in a script

The functions made for one source are numbered in the order of their first calls, and the number is
written behind the name of the source. A numbered name may be the name of another source, and then two
functions share it. Another way to share a name is a source that ends in a digit beside the one with
an underscore behind it, since the underscore is also what sets a number off. There is no third way.
-/

namespace LoopNest.Script

/-! ### Numbered names -/

def endsInDigit (source : List Char) : Bool :=
  source.getLast?.any Char.isDigit

/-- What the number of a function is written behind. -/
def stem (source : List Char) : List Char :=
  if endsInDigit source then source ++ ['_'] else source

theorem variantName_zero (source : List Char) : variantName source 0 = source := rfl

theorem variantName_pos (source : List Char) {k : Nat} (hk : 0 < k) :
    variantName source k = stem source ++ (toString k).toList := by
  unfold variantName stem
  rw [if_neg (Nat.ne_of_gt hk)]
  rw [endsInDigit]
  split <;> simp

theorem endsInDigit_stem (source : List Char) : endsInDigit (stem source) = false := by
  unfold stem
  split
  · simp [endsInDigit]
  · next h => simpa using h

theorem isDigit_of_mem_toString {k : Nat} {c : Char} (h : c ∈ (toString k).toList) : c.isDigit := by
  rw [Nat.toString_eq_ofList_toDigits, String.toList_ofList] at h
  exact Nat.isDigit_of_mem_toDigits (by decide) (by decide) h

theorem toList_toString_ne_nil (k : Nat) : (toString k).toList ≠ [] := by
  rw [Nat.toString_eq_ofList_toDigits, String.toList_ofList]
  exact Nat.toDigits_ne_nil

theorem ofDigitChars_toString (k : Nat) : Nat.ofDigitChars 10 (toString k).toList 0 = k := by
  simp

/-- The number behind a text that does not end in a digit can be taken off again. -/
theorem rdropWhile_append_toString {cs : List Char} (h : endsInDigit cs = false) (k : Nat) :
    (cs ++ (toString k).toList).rdropWhile Char.isDigit = cs := by
  have hdigits : ∀ c ∈ (toString k).toList.reverse, c.isDigit :=
    fun c hc => isDigit_of_mem_toString (List.mem_reverse.mp hc)
  have hself : cs.rdropWhile Char.isDigit = cs := by
    rw [List.rdropWhile_eq_self_iff]
    intro hne hlast
    rw [endsInDigit, List.getLast?_eq_some_getLast hne, Option.any_some, hlast] at h
    cases h
  rw [List.rdropWhile, List.reverse_append, List.dropWhile_append_of_pos hdigits]
  exact hself

theorem variantName_pos_eq_iff {f g : List Char} {k l : Nat} (hk : 0 < k) (hl : 0 < l) :
    variantName f k = variantName g l ↔ stem f = stem g ∧ k = l := by
  constructor
  · intro h
    rw [variantName_pos f hk, variantName_pos g hl] at h
    have hstem : stem f = stem g := by
      rw [← rdropWhile_append_toString (endsInDigit_stem f) k, h,
        rdropWhile_append_toString (endsInDigit_stem g) l]
    rw [hstem] at h
    have hnumber := congrArg (Nat.ofDigitChars 10 · 0) (List.append_cancel_left h)
    exact ⟨hstem, by simpa only [ofDigitChars_toString] using hnumber⟩
  · rintro ⟨hstem, rfl⟩
    rw [variantName_pos f hk, variantName_pos g hk, hstem]

theorem variantName_ne_self (f : List Char) {k : Nat} (hk : 0 < k) : variantName f k ≠ f := by
  intro h
  rw [variantName_pos f hk] at h
  have hlength := congrArg List.length h
  have hstem : f.length ≤ (stem f).length := by
    unfold stem
    split <;> simp
  have hpos := List.length_pos_iff.mpr (toList_toString_ne_nil k)
  rw [List.length_append] at hlength
  omega

/-- One source gives different numbers different names. -/
theorem variantName_injective {f : List Char} {k l : Nat} (h : variantName f k = variantName f l) :
    k = l := by
  rcases Nat.eq_zero_or_pos k with rfl | hk
  · rcases Nat.eq_zero_or_pos l with rfl | hl
    · rfl
    · exact absurd h.symm (variantName_ne_self f hl)
  · rcases Nat.eq_zero_or_pos l with rfl | hl
    · exact absurd h (variantName_ne_self f hk)
    · exact ((variantName_pos_eq_iff hk hl).mp h).2

/-- Two sources have a stem in common only if one is the other with an underscore behind a digit. -/
theorem eq_or_of_stem_eq {f g : List Char} (h : stem f = stem g) :
    f = g ∨ endsInDigit f ∧ g = f ++ ['_'] ∨ endsInDigit g ∧ f = g ++ ['_'] := by
  unfold stem at h
  split at h
  · next hf =>
    split at h
    · exact .inl (List.append_cancel_right h)
    · exact .inr (.inl ⟨hf, h.symm⟩)
  · split at h
    · next hg => exact .inr (.inr ⟨hg, h⟩)
    · exact .inl h

theorem stem_underscore (f : List Char) : stem (f ++ ['_']) = f ++ ['_'] := by
  simp [stem, endsInDigit]

/-! ### Numbered tables -/

/-- What a function is made for: a source and arguments without spaces. -/
def Variant.key (v : Variant) : List Char × List Char :=
  (v.source, v.arguments)

def Call.key (c : Call) : List Char × List Char :=
  (c.source, c.compact)

theorem Variant.standsFor_iff_key {v : Variant} {c : Call} : v.standsFor c ↔ v.key = c.key := by
  rw [standsFor_iff, key, Call.key, Prod.mk.injEq]

namespace Variants

/-- A table in which every function was new when it was added, and was numbered among those of its
source. -/
inductive Numbered : Variants → Prop where
  | nil : Numbered []
  | concat {vs : Variants} {v : Variant} (h : Numbered vs) (hnew : v.key ∉ vs.map Variant.key)
      (hname : v.name = variantName v.source (vs.of v.source).length) : Numbered (vs ++ [v])

variable {iterators : List String} {vs : Variants} {c : Call} {calls : List Call}

theorem not_mem_keys_of_lookup? (h : vs.lookup? c = none) : c.key ∉ vs.map Variant.key := by
  intro hmem
  obtain ⟨v, hv, hkey⟩ := List.mem_map.mp hmem
  exact List.find?_eq_none.mp h v hv (Variant.standsFor_iff_key.mpr hkey)

theorem mem_keys_of_lookup? {v : Variant} (h : vs.lookup? c = some v) :
    v ∈ vs ∧ v.key = c.key := by
  rw [lookup?] at h
  have hstands := List.find?_some h
  exact ⟨List.mem_of_find?_eq_some h, Variant.standsFor_iff_key.mp hstands⟩

/-- A call keeps a table numbered. -/
theorem Numbered.meet (h : Numbered vs) (iterators : List String) (c : Call) :
    Numbered (vs.meet iterators c) := by
  cases hc : vs.lookup? c with
  | some v => rwa [meet_of_some hc]
  | none =>
    rw [meet_of_none hc]
    exact h.concat (not_mem_keys_of_lookup? hc) rfl

theorem Numbered.after (h : Numbered vs) (iterators : List String) (calls : List Call) :
    Numbered (vs.after iterators calls) := by
  induction calls generalizing vs with
  | nil => exact h
  | cons c calls ih => exact ih (h.meet iterators c)

/-- A call adds its key, if it is not there. -/
theorem mem_keys_meet {key : List Char × List Char} :
    key ∈ (vs.meet iterators c).map Variant.key ↔ key ∈ vs.map Variant.key ∨ key = c.key := by
  cases hc : vs.lookup? c with
  | some v =>
    obtain ⟨hv, hkey⟩ := mem_keys_of_lookup? hc
    rw [meet_of_some hc]
    refine ⟨.inl, fun h => h.elim id ?_⟩
    rintro rfl
    exact hkey ▸ List.mem_map_of_mem hv
  | none =>
    rw [meet_of_none hc, List.map_append, List.mem_append, List.map_singleton, List.mem_singleton]
    rfl

theorem mem_keys_after {key : List Char × List Char} :
    key ∈ (vs.after iterators calls).map Variant.key ↔
      key ∈ vs.map Variant.key ∨ key ∈ calls.map Call.key := by
  induction calls generalizing vs with
  | nil => simp
  | cons c calls ih => rw [after_cons, ih, mem_keys_meet, List.map_cons, List.mem_cons, or_assoc]

theorem Numbered.nodup_keys (h : Numbered vs) : (vs.map Variant.key).Nodup := by
  induction h with
  | nil => exact List.nodup_nil
  | @concat vs v _ hnew _ ih =>
    rw [List.map_append, List.map_singleton, List.nodup_append]
    refine ⟨ih, List.nodup_singleton _, ?_⟩
    rintro key hkey _ hv rfl
    exact hnew (List.mem_singleton.mp hv ▸ hkey)

theorem of_append_singleton (vs : Variants) (v : Variant) (source : List Char) :
    (vs ++ [v]).of source = vs.of source ++ if v.source = source then [v] else [] := by
  unfold of
  rw [List.filter_append, List.filter_singleton]
  simp

theorem length_of_le (vs : Variants) (v : Variant) (source : List Char) :
    (vs.of source).length ≤ ((vs ++ [v]).of source).length := by
  rw [of_append_singleton, List.length_append]
  exact Nat.le_add_right _ _

/-- Every function has a number below the count of its source. -/
theorem Numbered.exists_number (h : Numbered vs) {v : Variant} (hv : v ∈ vs) :
    ∃ k < (vs.of v.source).length, v.name = variantName v.source k := by
  induction h with
  | nil => cases hv
  | @concat vs w _ _ hname ih =>
    rcases List.mem_append.mp hv with hv | hv
    · obtain ⟨k, hk, hvk⟩ := ih hv
      exact ⟨k, Nat.lt_of_lt_of_le hk (length_of_le vs w v.source), hvk⟩
    · obtain rfl := List.mem_singleton.mp hv
      refine ⟨_, ?_, hname⟩
      rw [of_append_singleton, if_pos rfl]
      simp

/-- Every number below the count of a source is that of a function. -/
theorem Numbered.exists_of_number (h : Numbered vs) {source : List Char} {k : Nat}
    (hk : k < (vs.of source).length) :
    ∃ v ∈ vs, v.source = source ∧ v.name = variantName source k := by
  induction h with
  | nil => cases hk
  | @concat vs w _ _ hname ih =>
    by_cases hlt : k < (vs.of source).length
    · obtain ⟨v, hv, hsource, hvk⟩ := ih hlt
      exact ⟨v, List.mem_append_left _ hv, hsource, hvk⟩
    · rw [of_append_singleton, List.length_append] at hk
      by_cases hw : w.source = source
      · rw [if_pos hw, List.length_singleton] at hk
        have hcount : k = (vs.of source).length := by omega
        subst hw
        exact ⟨w, List.mem_append_right _ (List.mem_singleton_self w), rfl, hcount ▸ hname⟩
      · rw [if_neg hw, List.length_nil] at hk
        omega

/-- Functions of one source have different names. -/
theorem Numbered.eq_of_source_of_name (h : Numbered vs) {v w : Variant} (hv : v ∈ vs) (hw : w ∈ vs)
    (hsource : v.source = w.source) (hname : v.name = w.name) : v = w := by
  induction h with
  | nil => cases hv
  | @concat vs u hvs _ hu ih =>
    -- an older function has a number below that of the new one
    have hold : ∀ x ∈ vs, x.source = u.source → x.name ≠ u.name := by
      intro x hx hxu hxname
      obtain ⟨k, hk, hxk⟩ := hvs.exists_number hx
      rw [hxu] at hk hxk
      have hlast := variantName_injective (hxk.symm.trans (hxname.trans hu))
      omega
    rw [List.mem_append, List.mem_singleton] at hv hw
    rcases hv with hv | rfl
    · rcases hw with hw | rfl
      · exact ih hv hw
      · exact absurd hname (hold v hv hsource)
    · rcases hw with hw | rfl
      · exact absurd hname.symm (hold w hw hsource.symm)
      · rfl

/-- A function is found again by a call with its key. -/
theorem Numbered.lookup?_eq (h : Numbered vs) {v : Variant} (hv : v ∈ vs) (hkey : v.key = c.key) :
    vs.lookup? c = some v := by
  cases hc : vs.lookup? c with
  | none =>
    have hmem := List.mem_map_of_mem (f := Variant.key) hv
    exact absurd (hkey ▸ hmem) (not_mem_keys_of_lookup? hc)
  | some w =>
    obtain ⟨hw, hwkey⟩ := mem_keys_of_lookup? hc
    rw [List.inj_on_of_nodup_map h.nodup_keys hw hv (hwkey.trans hkey.symm)]

end Variants

/-! ### Calls and names -/

/-- How many different arguments a source is called with, spaces aside. -/
def spellings (calls : List Call) (source : List Char) : Nat :=
  ((calls.filter (·.source = source)).map Call.compact).dedup.length

/-- A table that was made from some calls. -/
structure Variants.MadeFrom (calls : List Call) (vs : Variants) : Prop where
  numbered : vs.Numbered
  keys : ∀ key, key ∈ vs.map Variant.key ↔ key ∈ calls.map Call.key

namespace Variants.MadeFrom

variable {calls : List Call} {vs : Variants}

theorem empty : MadeFrom [] [] :=
  ⟨.nil, by simp⟩

theorem after (h : MadeFrom calls vs) (iterators : List String) (more : List Call) :
    MadeFrom (calls ++ more) (vs.after iterators more) := by
  refine ⟨h.numbered.after iterators more, fun key => ?_⟩
  rw [mem_keys_after, h.keys, List.map_append, List.mem_append]

theorem foldl (h : MadeFrom calls vs) (sets : List (String × SetText)) :
    MadeFrom (calls ++ sets.flatMap fun entry => callsOf entry.2.pieces)
      (sets.foldl (fun vs entry => vs.afterSet entry.2) vs) := by
  induction sets generalizing calls vs with
  | nil => simpa using h
  | cons entry sets ih =>
    have hrest := ih (h.after entry.2.iterators (callsOf entry.2.pieces))
    rwa [List.append_assoc] at hrest

/-- A source has as many functions as there are different arguments it is called with. -/
theorem length_of (h : MadeFrom calls vs) (source : List Char) :
    (vs.of source).length = spellings calls source := by
  have hnodup : ((vs.of source).map Variant.arguments).Nodup := by
    refine List.Nodup.map_on ?_ ((List.Nodup.of_map _ h.numbered.nodup_keys).filter _)
    intro v hv w hw harguments
    obtain ⟨hv, hvs⟩ := List.mem_filter.mp hv
    obtain ⟨hw, hws⟩ := List.mem_filter.mp hw
    refine List.inj_on_of_nodup_map h.numbered.nodup_keys hv hw ?_
    rw [Variant.key, Variant.key, of_decide_eq_true hvs, of_decide_eq_true hws, harguments]
  have hmem : ∀ arguments, arguments ∈ (vs.of source).map Variant.arguments ↔
      arguments ∈ ((calls.filter (·.source = source)).map Call.compact).dedup := by
    intro arguments
    have hkeys := h.keys (source, arguments)
    simp only [List.mem_map, Variant.key, Call.key, Prod.mk.injEq] at hkeys
    simpa [Variants.of, and_assoc] using hkeys
  have hperm := (List.perm_ext_iff_of_nodup hnodup (List.nodup_dedup _)).mpr hmem
  rw [spellings, ← hperm.length_eq, List.length_map]

end Variants.MadeFrom

/-- Calls whose functions all get names of their own: no numbered name is the name of a source that
is called, and a source that ends in a digit is not called in two ways beside one with an underscore
behind it that is. -/
structure Apart (calls : List Call) : Prop where
  numbers : ∀ f k, 0 < k → k < spellings calls f → spellings calls (variantName f k) = 0
  underscores : ∀ f, endsInDigit f → spellings calls f ≤ 1 ∨ spellings calls (f ++ ['_']) ≤ 1

theorem Variants.MadeFrom.eq_of_name {calls : List Call} {vs : Variants} (h : vs.MadeFrom calls)
    (hapart : Apart calls) {v w : Variant} (hv : v ∈ vs) (hw : w ∈ vs) (hname : v.name = w.name) :
    v = w := by
  by_contra hne
  have hsource : v.source ≠ w.source := fun hs =>
    hne (h.numbered.eq_of_source_of_name hv hw hs hname)
  obtain ⟨k, hk, hvk⟩ := h.numbered.exists_number hv
  obtain ⟨l, hl, hwl⟩ := h.numbered.exists_number hw
  rw [h.length_of] at hk hl
  rw [hvk, hwl] at hname
  rcases Nat.eq_zero_or_pos k with rfl | hkpos
  · rcases Nat.eq_zero_or_pos l with rfl | hlpos
    · exact hsource hname
    · have hnone := hapart.numbers w.source l hlpos hl
      rw [← hname, variantName_zero] at hnone
      omega
  · rcases Nat.eq_zero_or_pos l with rfl | hlpos
    · have hnone := hapart.numbers v.source k hkpos hk
      rw [hname, variantName_zero] at hnone
      omega
    · obtain ⟨hstem, rfl⟩ := (variantName_pos_eq_iff hkpos hlpos).mp hname
      rcases eq_or_of_stem_eq hstem with heq | ⟨hdigit, heq⟩ | ⟨hdigit, heq⟩
      · exact hsource heq
      · rw [heq] at hl
        rcases hapart.underscores v.source hdigit with hle | hle <;> omega
      · rw [heq] at hk
        rcases hapart.underscores w.source hdigit with hle | hle <;> omega

theorem Variants.MadeFrom.apart {calls : List Call} {vs : Variants} (h : vs.MadeFrom calls)
    (hnames : ∀ v ∈ vs, ∀ w ∈ vs, v.name = w.name → v = w) : Apart calls := by
  -- functions with one name have one source
  have hshared : ∀ f g k l, k < spellings calls f → l < spellings calls g →
      variantName f k = variantName g l → f = g := by
    intro f g k l hk hl heq
    rw [← h.length_of] at hk hl
    obtain ⟨v, hv, rfl, hvk⟩ := h.numbered.exists_of_number hk
    obtain ⟨w, hw, rfl, hwl⟩ := h.numbered.exists_of_number hl
    rw [hnames v hv w hw (hvk.trans (heq.trans hwl.symm))]
  constructor
  · intro f k hpos hk
    by_contra hcalled
    have heq := hshared f (variantName f k) k 0 hk (Nat.pos_of_ne_zero hcalled) rfl
    exact variantName_ne_self f hpos heq.symm
  · intro f hdigit
    by_contra hboth
    have hstem : stem f = stem (f ++ ['_']) := by rw [stem_underscore, stem, if_pos hdigit]
    have hname := (variantName_pos_eq_iff Nat.one_pos Nat.one_pos).mpr ⟨hstem, rfl⟩
    have heq := hshared f (f ++ ['_']) 1 1 (by omega) (by omega) hname
    simp at heq

/-- The name of the function that a script writes a call with. -/
def nameOf? (request : Request) (c : Call) : Option (List Char) :=
  ((parts request).functions.lookup? c).map Variant.name

theorem madeFrom_parts (request : Request) : (parts request).functions.MadeFrom (callsIn request) := by
  rw [parts, Parts.functions_foldl]
  exact Variants.MadeFrom.empty.foldl (setsOf request)

/-- What the calls of a script should be: those of one function with the same arguments, spaces aside,
have one name, all others have different names, and no function is declared twice. -/
structure Distinguishes (request : Request) : Prop where
  calls : ∀ c ∈ callsIn request, ∀ d ∈ callsIn request,
    nameOf? request c = nameOf? request d ↔ c.source = d.source ∧ c.compact = d.compact
  declared : ((parts request).functions.map Variant.name).Nodup

theorem exists_lookup? {request : Request} {c : Call} (h : c ∈ callsIn request) :
    ∃ v ∈ (parts request).functions, (parts request).functions.lookup? c = some v ∧
      v.key = c.key := by
  have hmade := madeFrom_parts request
  obtain ⟨v, hv, hkey⟩ := List.mem_map.mp ((hmade.keys c.key).mpr (List.mem_map_of_mem h))
  exact ⟨v, hv, hmade.numbered.lookup?_eq hv hkey, hkey⟩

/-- A script writes every call with a function of its own table, and tells calls of different
functions or with different arguments apart exactly if no two numbered names fall together. -/
theorem distinguishes_iff_apart (request : Request) :
    (∀ entry ∈ setsOf request,
      rewrittenLine (parts request).functions entry.1 entry.2 ∈ (parts request).lines) ∧
    (∀ c ∈ callsIn request, ∃ name, nameOf? request c = some name) ∧
    (Distinguishes request ↔ Apart (callsIn request)) := by
  have hmade := madeFrom_parts request
  refine ⟨fun entry h => Parts.rewrittenLine_mem_foldl _ h, ?_, ?_, ?_⟩
  · intro c hc
    obtain ⟨v, -, hv, -⟩ := exists_lookup? hc
    exact ⟨v.name, by rw [nameOf?, hv, Option.map_some]⟩
  · intro h
    exact hmade.apart fun v hv w hw => List.inj_on_of_nodup_map h.declared hv hw
  · intro hapart
    constructor
    · intro c hc d hd
      obtain ⟨v, hv, hvc, hvkey⟩ := exists_lookup? hc
      obtain ⟨w, hw, hwd, hwkey⟩ := exists_lookup? hd
      rw [nameOf?, nameOf?, hvc, hwd, Option.map_some, Option.map_some, Option.some.injEq,
        ← Prod.mk.injEq]
      constructor
      · intro hname
        exact hvkey.symm.trans ((congrArg Variant.key (hmade.eq_of_name hapart hv hw hname)).trans
          hwkey)
      · intro hkey
        have hvw := List.inj_on_of_nodup_map hmade.numbered.nodup_keys hv hw
          (hvkey.trans (hkey.trans hwkey.symm))
        rw [hvw]
    · refine List.Nodup.map_on ?_ (List.Nodup.of_map _ hmade.numbered.nodup_keys)
      exact fun v hv w hw => hmade.eq_of_name hapart hv hw

/-- The second function of `f` gets the name of the third function called. -/
def numberedRequest : Request :=
  .single "s" "s = \x7b[i] : f(i) <= f(i + 1) < f1(i)\x7d" ["r0s := \x7b[i] -> [0, i, 0]\x7d"] []

theorem not_distinguishes_numbered :
    ofRequest numberedRequest =
        "symbolic f(1), f1(1), f1(1);\ns := \x7b[i] : f(i) <= f1(i) < f1(i)\x7d;\n" ++
        "r0s := \x7b[i] -> [0, i, 0]\x7d;\ncodegen r0s:s;\n" ∧
      ¬ Distinguishes numberedRequest := by
  refine ⟨by decide +kernel, fun h => ?_⟩
  have htwice : ¬ ((parts numberedRequest).functions.map Variant.name).Nodup := by decide +kernel
  exact htwice h.declared

end LoopNest.Script
