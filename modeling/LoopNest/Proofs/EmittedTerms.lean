import LoopNest.Proofs.TermRewriting

/-!
# What the emitted text of a term shows

The function that stands for a call was made for the first call with the same arguments, spaces
aside, and such calls have the same words and mention the same names. So the words of an emitted term,
and what they are applied to, are known from the term: a call is written with the iterators up to the
last one among its arguments, or with its arguments if there is none.
-/

namespace LoopNest

open Script

namespace Script

/-! ### Functions and what they are applied to -/

/-- An argument that is written without parentheses. -/
structure IsArgument (text : List Char) : Prop where
  ne_nil : text ≠ []
  tight : Text.Tight text
  chars : ∀ c ∈ text, Term.isFlatChar c

namespace IsArgument

theorem word {w : List Char} (h : IsAsciiWord w) : IsArgument w :=
  ⟨h.ne_nil, h.tight, Term.isFlatChar_word h⟩

theorem flat {t : Term} (h : t.Flat) : IsArgument t.text.toList :=
  ⟨h.plain.tight.1, h.plain.tight.2, h.isFlatChar⟩

theorem not_mem {text : List Char} (h : IsArgument text) {c : Char}
    (hc : Term.isFlatChar c = false) : c ∉ text := by
  intro hmem
  rw [h.chars c hmem] at hc
  cases hc

theorem solid {text : List Char} (h : IsArgument text) : Solid text :=
  solid_of_not_mem (h.not_mem rfl) (h.not_mem rfl) (h.not_mem rfl)

theorem usesOf {text : List Char} (h : IsArgument text) : UsesOf text (usesFrom 0 text) :=
  .of_not_mem (h.not_mem rfl)

/-- Among such arguments none is missing. -/
theorem ne_missing {texts : List (List Char)} (h : ∀ text ∈ texts, IsArgument text) :
    texts ≠ [[]] := by
  rintro rfl
  exact (h [] (List.mem_singleton_self _)).ne_nil rfl

end IsArgument

/-- A function with a word for its name. It has one argument at least, which may be missing. -/
structure Variant.Legal (v : Variant) : Prop where
  name : IsAsciiWord v.name
  applied : v.applied = [[]] ∨ v.applied ≠ [] ∧ ∀ text ∈ v.applied, IsArgument text

/-- The arguments of a function that are there. -/
def Variant.written (v : Variant) : List (List Char) :=
  v.applied.filter (!·.isEmpty)

/-- The words in a call of a function. -/
def Variant.uses (v : Variant) : List Use :=
  (v.name, some v.written) :: v.applied.flatMap (usesFrom 0)

/-- The characters of terms. -/
def isTermChar (c : Char) : Bool :=
  Term.isFlatChar c || c = '(' || c = ')' || c = ','

/-- A text that stands for a term, with its words. -/
structure Shows (text : List Char) (uses : List Use) : Prop where
  uses : UsesOf text uses
  solid : Solid text
  tight : Text.Tight text
  ne_nil : text ≠ []
  chars : ∀ c ∈ text, isTermChar c

namespace Shows

variable {a b : List Char} {us vs : List Use}

theorem argument (h : IsArgument a) (huses : UsesOf a us) : Shows a us :=
  ⟨huses, h.solid, h.tight, h.ne_nil, fun c hc => by simp [isTermChar, h.chars c hc]⟩

theorem enclosed (h : Shows a us) : Shows ('(' :: (a ++ [')'])) us := by
  refine ⟨h.uses.enclosed, h.solid.covered.enclosed, tight_enclosed a, List.cons_ne_nil _ _, ?_⟩
  refine List.forall_mem_cons.mpr ⟨rfl, List.forall_mem_append.mpr ⟨h.chars, ?_⟩⟩
  exact List.forall_mem_singleton.mpr rfl

theorem grouped (h : Shows a us) (needed : Bool) : Shows (Term.grouped needed a) us := by
  cases needed with
  | false => exact h
  | true => exact h.enclosed

theorem operation (ha : Shows a us) (op : ArithOp) (hb : Shows b vs) :
    Shows (a ++ op.spaced ++ b) (us ++ vs) := by
  refine ⟨ha.uses.separated op.separates_spaced hb.uses, ?_, ?_, ?_, ?_⟩
  · refine (ha.solid.append ?_).append hb.solid
    cases op <;> exact solid_of_not_mem (by decide) (by decide) (by decide)
  · exact ha.tight.append ha.ne_nil op.spaced hb.tight hb.ne_nil
  · simp [ha.ne_nil]
  · rw [List.forall_mem_append, List.forall_mem_append]
    refine ⟨⟨ha.chars, fun c hc => ?_⟩, hb.chars⟩
    simp [isTermChar, Term.isFlatChar_spaced op c hc]

/-- A word that is applied to texts with commas between them. -/
theorem applied {f blanks : List Char} {texts : List (List Char)} {us : List Use} (hf : IsAsciiWord f)
    (hblanks : ∀ c ∈ blanks, c = ' ') (hcover : Covered ((',' :: blanks).intercalate texts))
    (huses : UsesOf ((',' :: blanks).intercalate texts) us) {arguments : List (List Char)}
    (harguments : ∀ rest, argumentsBehind ((',' :: blanks).intercalate texts ++ ')' :: rest) = arguments)
    (hchars : ∀ text ∈ texts, ∀ c ∈ text, isTermChar c) :
    Shows (f ++ '(' :: ((',' :: blanks).intercalate texts ++ [')'])) ((f, some arguments) :: us) := by
  refine ⟨huses.applied hf harguments, ?_, tight_applied hf.undivided _, ?_, ?_⟩
  · refine Solid.append ?_ hcover.enclosed
    exact solid_of_not_mem (hf.not_mem rfl) (hf.not_mem rfl) (hf.not_mem rfl)
  · simp [hf.ne_nil]
  · refine List.forall_mem_append.mpr ⟨fun c hc => ?_, List.forall_mem_cons.mpr ⟨rfl,
      List.forall_mem_append.mpr ⟨fun c hc => ?_, List.forall_mem_singleton.mpr rfl⟩⟩⟩
    · simp [isTermChar, Term.isFlatChar_word hf c hc]
    · rcases of_mem_intercalate hc with hc | ⟨text, htext, hc⟩
      · rcases List.mem_cons.mp hc with rfl | hc
        · rfl
        · rw [hblanks c hc]
          rfl
      · exact hchars text htext c hc

end Shows

/-- All arguments are there unless one is missing. -/
theorem Variant.Legal.written_eq {v : Variant} (h : v.Legal) (hne : v.applied ≠ [[]]) :
    v.written = v.applied := by
  obtain ⟨-, harguments⟩ := h.applied.resolve_left hne
  rw [Variant.written, List.filter_eq_self]
  intro text htext
  simpa using (harguments text htext).ne_nil

/-- The call of a function shows its name, and what it is applied to. -/
theorem Variant.Legal.shows {v : Variant} (h : v.Legal) : Shows v.call v.uses := by
  have hcall : v.call = v.name ++ '(' :: ([','].intercalate v.applied ++ [')']) := by simp [call]
  rw [hcall, uses]
  rcases h.applied with happlied | ⟨hne, harguments⟩
  · rw [written, happlied]
    refine Shows.applied h.name (by simp) ?_ ?_ ?_ (by simp)
    · exact solid_nil.covered
    · exact UsesOf.nil
    · exact argumentsBehind_close
  · have hmissing := IsArgument.ne_missing harguments
    rw [h.written_eq hmissing]
    refine Shows.applied h.name (by simp) ?_ ?_ ?_ ?_
    · exact covered_intercalate solid_nil fun text htext => (harguments text htext).solid
    · have hjoined := UsesOf.joined (separates_of_all (List.cons_ne_nil ',' []) (by decide))
        fun text htext => (harguments text htext).usesOf
      rwa [List.map_id'] at hjoined
    · exact argumentsBehind_intercalate (by simp) solid_nil
        (fun text htext => ⟨(harguments text htext).solid, (harguments text htext).tight⟩) hmissing
    · exact fun text htext => (Shows.argument (harguments text htext)
        (harguments text htext).usesOf).chars

theorem isAsciiWord_variantName {source : List Char} (h : IsAsciiWord source) (k : Nat) :
    IsAsciiWord (variantName source k) := by
  have hdigits : ∀ c ∈ (toString k).toList, isWordRest c :=
    fun c hc => isWordRest_of_isDigit (isDigit_of_mem_toString hc)
  unfold variantName
  split
  · exact h
  · split
    · exact h.append (List.forall_mem_cons.mpr ⟨rfl, hdigits⟩)
    · exact h.append hdigits

/-- Every function was made for a call. -/
theorem Variants.exists_call_of_mem_after {iterators : List String} {vs : Variants}
    {calls : List Call} {v : Variant} (hv : v ∈ vs.after iterators calls) :
    v ∈ vs ∨ ∃ c ∈ calls, v.key = c.key ∧ v.applied = c.applied iterators := by
  induction calls generalizing vs with
  | nil => exact .inl hv
  | cons c calls ih =>
    rcases ih hv with hv | ⟨d, hd, hmade⟩
    · cases hc : vs.lookup? c with
      | some w =>
        rw [meet_of_some hc] at hv
        exact .inl hv
      | none =>
        rw [meet_of_none hc, List.mem_append, List.mem_singleton] at hv
        rcases hv with hv | rfl
        · exact .inl hv
        · exact .inr ⟨c, List.mem_cons_self, rfl, rfl⟩
    · exact .inr ⟨d, List.mem_cons_of_mem _ hd, hmade⟩

end Script

namespace Term

/-! ### Calls without parentheses -/

/-- The iterators up to the last one among the symbols of some arguments. -/
def reached (iterators : List String) (args : List Term) : List String :=
  iterators.rdropWhile fun i => !(i ∈ symbolsAll args)

theorem rdropWhile_congr {p q : String → Bool} {is : List String} (h : ∀ i ∈ is, p i = q i) :
    is.rdropWhile p = is.rdropWhile q := by
  induction is using List.reverseRecOn with
  | nil => rfl
  | append_singleton is i ih =>
    obtain ⟨his, hi⟩ := List.forall_mem_append.mp h
    rw [List.rdropWhile_concat, List.rdropWhile_concat, ih his, List.forall_mem_singleton.mp hi]

theorem reached_eq_nil_iff {iterators : List String} {args : List Term} :
    reached iterators args = [] ↔ mentionsIterator iterators args = false := by
  simp [reached, mentionsIterator, List.rdropWhile_eq_nil_iff]

theorem flat_of_argumentText {args : List Term} (h : ∀ t ∈ args, t.Plain)
    (hparen : '(' ∉ argumentText args) : ∀ t ∈ args, t.Flat := by
  intro t ht
  refine (h t ht).flat fun hmem => hparen ?_
  rw [argumentText_eq]
  exact mem_intercalate _ (List.mem_map_of_mem ht) hmem

section Calls

variable {function : String} {args : List Term} (h : ∀ t ∈ args, t.Flat)
include h

theorem arguments_callOf (function : String) (hne : args ≠ []) :
    (callOf function args).arguments = args.map fun t => t.text.toList := by
  change (List.splitOn ',' (argumentText args)).map Text.trim = _
  rw [argumentText_eq]
  refine map_trim_splitOn isBlank_space (by simpa using hne) (List.forall_mem_map.mpr fun t ht => ?_)
  exact ⟨(h t ht).noParen.2.2, (h t ht).plain.tight.2⟩

theorem any_mentions_callOf (function : String) {i : String} (hi : IsAsciiWord i.toList) :
    (callOf function args).arguments.any (mentions · i) = decide (i ∈ symbolsAll args) := by
  by_cases hne : args = []
  · subst hne
    have harguments : (callOf function []).arguments = [[]] := rfl
    simp [harguments, not_mentions_nil hi.ne_nil, symbolsAll]
  · have hmentions : ∀ t ∈ args, mentions t.text.toList i = decide (i ∈ t.symbols) := by
      intro t ht
      have hkept := (h t ht).mentions_iff (q := fun _ => true) (by simp) hi
      rw [List.filter_true] at hkept
      rw [Bool.eq_iff_iff, hkept, decide_eq_true_iff]
    rw [arguments_callOf h function hne, Bool.eq_iff_iff, List.any_map, List.any_eq_true,
      decide_eq_true_iff, symbolsAll_eq, List.mem_flatMap]
    refine exists_congr fun t => and_congr_right fun ht => ?_
    rw [Function.comp_apply, hmentions t ht, decide_eq_true_iff]

theorem reach_callOf (function : String) {iterators : List String}
    (hi : ∀ i ∈ iterators, IsAsciiWord i.toList) :
    reach (callOf function args).arguments iterators = reached iterators args := by
  refine rdropWhile_congr fun i hmem => ?_
  rw [any_mentions_callOf h function (hi i hmem)]

theorem applied_callOf (function : String) {iterators : List String}
    (hi : ∀ i ∈ iterators, IsAsciiWord i.toList) :
    (callOf function args).applied iterators =
      if mentionsIterator iterators args then (reached iterators args).map String.toList
      else (callOf function args).arguments := by
  rw [Call.applied, reach_callOf h function hi]
  cases hreached : reached iterators args with
  | nil => rw [reached_eq_nil_iff.mp hreached]; rfl
  | cons i is =>
    have hmentions : mentionsIterator iterators args = true := by
      rw [← Bool.not_eq_false, ← reached_eq_nil_iff, hreached]
      exact List.cons_ne_nil _ _
    rw [hmentions]
    rfl

end Calls

/-- Calls with the same text, spaces aside, show the same. -/
structure Alike (iterators : List String) (args args' : List Term) : Prop where
  symbols : ∀ i, IsAsciiWord i.toList → (i ∈ symbolsAll args ↔ i ∈ symbolsAll args')
  shown : unapplied (shownAll iterators args) = unapplied (shownAll iterators args')
  empty : args = [] ↔ args' = []

theorem alike_of_compact {f g : String} {args args' : List Term} (h : ∀ t ∈ args, t.Flat)
    (h' : ∀ t ∈ args', t.Flat) (hcompact : (callOf f args).compact = (callOf g args').compact)
    (iterators : List String) : Alike iterators args args' := by
  have hspace : ∀ c, c ≠ ' ' → (c != ' ') = true := fun c hc => by simpa using hc
  -- every argument has a character that is no space, so removing spaces does not hide one
  have hne : ∀ {args : List Term}, (∀ t ∈ args, t.Flat) →
      (args = [] ↔ (argumentText args).filter (· != ' ') = []) := by
    intro args h
    cases args with
    | nil => exact iff_of_true rfl rfl
    | cons t ts =>
      have ht := (h t List.mem_cons_self).plain.tight
      obtain ⟨c, cs, hcs⟩ := List.exists_cons_of_ne_nil ht.1
      have hblank : Text.isBlank c = false := ht.2.head c (by rw [hcs]; rfl)
      have hc : c ≠ ' ' := by
        rintro rfl
        cases hblank
      have hhead : c ∈ t.text.toList := hcs ▸ List.mem_cons_self
      have hmem : c ∈ argumentText (t :: ts) := by
        rw [argumentText_eq]
        exact mem_intercalate _ List.mem_cons_self hhead
      exact iff_of_false (List.cons_ne_nil _ _)
        (List.ne_nil_of_mem (List.mem_filter.mpr ⟨hmem, hspace c hc⟩))
  change (argumentText args).filter (· != ' ') = (argumentText args').filter (· != ' ') at hcompact
  refine ⟨fun i hi => ?_, ?_, ?_⟩
  · rw [← mentions_argumentText hspace h hi, hcompact, mentions_argumentText hspace h' hi]
  · rw [← (usesOf_argumentText hspace h iterators).eq, hcompact,
      (usesOf_argumentText hspace h' iterators).eq]
  · rw [hne h, hcompact, hne h']

/-! ### The function that stands for a call -/

/-- What is known of the function that stands for a call with the given arguments. -/
structure Stands (iterators : List String) (args : List Term) (v : Variant) : Prop where
  legal : v.Legal
  empty : v.applied = [[]] ↔ args = []
  replaced : mentionsIterator iterators args →
    v.applied = (reached iterators args).map String.toList
  kept : mentionsIterator iterators args = false →
    v.applied.flatMap (usesFrom 0) = unapplied (shownAll iterators args)

theorem mem_of_mem_reached {iterators : List String} {args : List Term} {i : String}
    (h : i ∈ reached iterators args) : i ∈ iterators :=
  (List.rdropWhile_prefix _ _).subset h

theorem stands_callOf {function : String} {args : List Term} (h : ∀ t ∈ args, t.Flat)
    {iterators : List String} (hi : ∀ i ∈ iterators, IsAsciiWord i.toList) {v : Variant}
    (hname : IsAsciiWord v.name) (happlied : v.applied = (callOf function args).applied iterators) :
    Stands iterators args v := by
  rw [applied_callOf h function hi] at happlied
  cases hmentions : mentionsIterator iterators args with
  | true =>
    rw [hmentions, if_pos rfl] at happlied
    have hwords : ∀ text ∈ v.applied, IsArgument text := by
      rw [happlied]
      exact List.forall_mem_map.mpr fun i hmem => .word (hi i (mem_of_mem_reached hmem))
    have hne : v.applied ≠ [] := by
      rw [happlied, Ne, List.map_eq_nil_iff, reached_eq_nil_iff, hmentions]
      simp
    refine ⟨⟨hname, .inr ⟨hne, hwords⟩⟩, iff_of_false (IsArgument.ne_missing hwords) ?_,
      fun _ => happlied, fun hnot => by simp [hmentions] at hnot⟩
    rintro rfl
    simp [mentionsIterator, symbolsAll] at hmentions
  | false =>
    rw [hmentions, if_neg (by simp)] at happlied
    by_cases hempty : args = []
    · subst hempty
      exact ⟨⟨hname, .inl happlied⟩, iff_of_true happlied rfl,
        fun hmentioned => by simp [hmentions] at hmentioned, fun _ => by rw [happlied]; rfl⟩
    · rw [arguments_callOf h function hempty] at happlied
      have harguments : ∀ text ∈ v.applied, IsArgument text := by
        rw [happlied]
        exact List.forall_mem_map.mpr fun t ht => .flat (h t ht)
      have huses : ∀ t ∈ args, usesFrom 0 t.text.toList = unapplied (t.shown iterators) := by
        intro t ht
        have hkept := ((h t ht).usesOf (q := fun _ => true) (by simp) iterators).eq
        rwa [List.filter_true] at hkept
      refine ⟨⟨hname, .inr ⟨by simpa [happlied] using hempty, harguments⟩⟩,
        iff_of_false (IsArgument.ne_missing harguments) hempty,
        fun hmentioned => by simp [hmentions] at hmentioned, fun _ => ?_⟩
      rw [happlied, List.flatMap_map, List.flatMap_congr huses, shownAll_eq, unapplied,
        List.map_flatMap]
      rfl

/-- The function made for one call stands for every call that is alike. -/
theorem Stands.of_alike {iterators : List String} {args args' : List Term} {v : Variant}
    (h : Stands iterators args' v) (hi : ∀ i ∈ iterators, IsAsciiWord i.toList)
    (halike : Alike iterators args args') : Stands iterators args v := by
  have hreached : reached iterators args = reached iterators args' :=
    rdropWhile_congr fun i hmem => by rw [decide_eq_decide.mpr (halike.symbols i (hi i hmem))]
  have hmentions : mentionsIterator iterators args = mentionsIterator iterators args' := by
    rw [← Bool.not_inj_iff, Bool.eq_iff_iff, Bool.not_eq_true', Bool.not_eq_true',
      ← reached_eq_nil_iff, ← reached_eq_nil_iff, hreached]
  refine ⟨h.legal, h.empty.trans halike.empty.symm, fun hm => ?_, fun hm => ?_⟩
  · rw [hreached]
    exact h.replaced (hmentions ▸ hm)
  · rw [halike.shown]
    exact h.kept (hmentions ▸ hm)

/-- A call of a function whose arguments are written without parentheses. -/
def IsFlatCall (c : Call) : Prop :=
  ∃ function args, c = callOf function args ∧ IsAsciiWord function.toList ∧ ∀ t ∈ args, t.Flat

/-- A table in which every such call among the given ones has a function that stands for it. -/
def Serves (iterators : List String) (calls : List Call) (vs : Variants) : Prop :=
  ∀ function args, callOf function args ∈ calls → (∀ t ∈ args, t.Flat) →
    ∃ v ∈ vs, vs.lookup? (callOf function args) = some v ∧ Stands iterators args v

/-- Every function stands for the call it was made for. -/
theorem exists_stands_of_mem_after {iterators : List String}
    (hi : ∀ i ∈ iterators, IsAsciiWord i.toList) {calls : List Call}
    (hcalls : ∀ c ∈ calls, IsFlatCall c) {v : Variant}
    (hv : v ∈ Variants.after iterators [] calls) :
    ∃ function args, v.key = (callOf function args).key ∧ (∀ t ∈ args, t.Flat) ∧
      Stands iterators args v := by
  obtain ⟨c, hc, hkey, happlied⟩ :=
    (Variants.exists_call_of_mem_after hv).resolve_left List.not_mem_nil
  obtain ⟨function, args, rfl, hword, hflat⟩ := hcalls c hc
  obtain ⟨k, -, hname⟩ := (Variants.Numbered.nil.after iterators calls).exists_number hv
  have hsource : v.source = function.toList := congrArg Prod.fst hkey
  have hlegal : IsAsciiWord v.name := by
    rw [hname, hsource]
    exact isAsciiWord_variantName hword k
  exact ⟨function, args, hkey, hflat, stands_callOf hflat hi hlegal happlied⟩

theorem serves_after {iterators : List String} (hi : ∀ i ∈ iterators, IsAsciiWord i.toList)
    {calls : List Call} (hcalls : ∀ c ∈ calls, IsFlatCall c) :
    Serves iterators calls (Variants.after iterators [] calls) := by
  intro function args hc hflat
  obtain ⟨v, hlookup⟩ := Variants.exists_lookup?_after iterators [] hc
  obtain ⟨hv, hkey⟩ := Variants.mem_keys_of_lookup? hlookup
  obtain ⟨function', args', hkey', hflat', hstands⟩ := exists_stands_of_mem_after hi hcalls hv
  have hcompact := congrArg Prod.snd (hkey.symm.trans hkey')
  exact ⟨v, hv, hlookup, hstands.of_alike hi (alike_of_compact hflat hflat' hcompact iterators)⟩

namespace Serves

variable {iterators : List String} {vs : Variants} {l r : Term} {op : ArithOp}
  {function : String} {args : List Term}

theorem mono {calls calls' : List Call} (h : Serves iterators calls vs) (hsub : calls' ⊆ calls) :
    Serves iterators calls' vs :=
  fun function args hc => h function args (hsub hc)

theorem left (h : Serves iterators (arith l op r).calls vs) :
    Serves iterators l.calls vs := by
  rw [calls] at h
  exact h.mono (List.subset_append_left _ _)

theorem right (h : Serves iterators (arith l op r).calls vs) :
    Serves iterators r.calls vs := by
  rw [calls] at h
  exact h.mono (List.subset_append_right _ _)

theorem argument (h : Serves iterators (apply function args).calls vs)
    (hparen : '(' ∈ argumentText args) {t : Term} (ht : t ∈ args) :
    Serves iterators t.calls vs := by
  rw [calls, if_pos hparen, callsAll_eq] at h
  exact h.mono fun c hc => List.mem_flatMap.mpr ⟨t, ht, hc⟩

theorem exists_stands (h : Serves iterators (apply function args).calls vs)
    (hargs : ∀ t ∈ args, t.Plain) (hparen : '(' ∉ argumentText args) :
    ∃ v ∈ vs, vs.lookup? (callOf function args) = some v ∧ Stands iterators args v := by
  rw [calls, if_neg hparen] at h
  exact h function args (List.mem_singleton_self _) (flat_of_argumentText hargs hparen)

end Serves

/-! ### Emitted terms -/

mutual

/-- The words of an emitted term, with what they are applied to. -/
def uses (vs : Variants) : Term → List Use
  | iterator name => unapplied [name]
  | constant name => unapplied [name]
  | literal text => unapplied (wordsOf text)
  | apply function args =>
    if '(' ∈ argumentText args then
      (function.toList, some (emittedAll vs args)) :: usesAll vs args
    else ((vs.lookup? (callOf function args)).map Variant.uses).getD []
  | arith left _ right => left.uses vs ++ right.uses vs

def usesAll (vs : Variants) : List Term → List Use
  | [] => []
  | t :: ts => t.uses vs ++ usesAll vs ts

end

theorem usesAll_eq (vs : Variants) (ts : List Term) : usesAll vs ts = ts.flatMap (uses vs) := by
  induction ts with
  | nil => rfl
  | cons t ts ih => rw [usesAll, ih, List.flatMap_cons]

theorem Plain.isFlatCall {t : Term} (h : t.Plain) : ∀ c ∈ t.calls, IsFlatCall c := by
  induction h with
  | iterator => simp [calls]
  | constant => simp [calls]
  | literal => simp [calls]
  | @apply function args hf hargs ih =>
    intro c hc
    rw [calls] at hc
    split at hc
    · rw [callsAll_eq, List.mem_flatMap] at hc
      obtain ⟨t, ht, hc⟩ := hc
      exact ih t ht c hc
    · next hparen =>
      rw [List.mem_singleton.mp hc]
      exact ⟨function, args, rfl, hf, flat_of_argumentText hargs hparen⟩
  | arith op _ _ ihl ihr =>
    intro c hc
    rw [calls, List.mem_append] at hc
    exact hc.elim (ihl c) (ihr c)

/-- An emitted term shows its words, if the table serves its calls. -/
theorem Plain.shows {t : Term} (h : t.Plain) {iterators : List String} {vs : Variants}
    (hserves : Serves iterators t.calls vs) : Shows (t.emitted vs) (t.uses vs) := by
  induction h with
  | iterator h => exact .argument (.word h) (.word h)
  | constant h => exact .argument (.word h) (.word h)
  | literal h =>
    exact .argument (.flat (.literal h)) (usesOf_literal h)
  | @apply function args hf hargs ih =>
    rw [emitted, uses]
    split
    · next hparen =>
      have hshows : ∀ t ∈ args, Shows (t.emitted vs) (t.uses vs) := fun t ht =>
        ih t ht (hserves.argument hparen ht)
      have hblank : Solid [' '] := solid_singleton (by decide) (by decide) (by decide)
      rw [emittedAll_eq, usesAll_eq]
      refine Shows.applied hf (by simp) ?_ ?_ ?_ ?_
      · exact covered_intercalate hblank (List.forall_mem_map.mpr fun t ht => (hshows t ht).solid)
      · exact .joined separates_listed fun t ht => (hshows t ht).uses
      · refine argumentsBehind_intercalate isBlank_space hblank
          (List.forall_mem_map.mpr fun t ht => ⟨(hshows t ht).solid, (hshows t ht).tight⟩) ?_
        intro hmissing
        obtain ⟨t, ht, hnil⟩ := List.mem_map.mp (hmissing ▸ List.mem_singleton_self [])
        exact (hshows t ht).ne_nil hnil
      · exact List.forall_mem_map.mpr fun t ht => (hshows t ht).chars
    · next hparen =>
      obtain ⟨v, -, hlookup, hstands⟩ := hserves.exists_stands hargs hparen
      rw [Piece.written, hlookup]
      exact hstands.legal.shows
  | @arith left right op _ _ ihl ihr =>
    rw [emitted, uses]
    exact .operation (.grouped (ihl hserves.left) _) op (.grouped (ihr hserves.right) _)

end Term

end LoopNest
