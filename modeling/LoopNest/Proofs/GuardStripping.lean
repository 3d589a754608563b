import LoopNest.Code.Guard
import LoopNest.Proofs.TextCutting

/-!
# Stripping a guard

The text inside a guard is taken from the first left brace to the last right brace. In a text with
well nested braces these two belong together exactly if nothing stands behind the pair that the first
left brace opens. Then the inside of that pair is left, and otherwise a part of the text is lost: the
result is still well nested if what is lost has no braces, and is not if it has.
-/

namespace LoopNest.Guard

/-- A text whose braces are well nested. -/
inductive Nested : List Char → Prop where
  | nil : Nested []
  | plain {c : Char} {cs : List Char} (hleft : c ≠ '{') (hright : c ≠ '}') (h : Nested cs) :
      Nested (c :: cs)
  | pair {inside rest : List Char} (hinside : Nested inside) (hrest : Nested rest) :
      Nested ('{' :: (inside ++ '}' :: rest))

/-! ### Counting open braces -/

/-- How many braces are open behind a text, unless one is closed that was not opened. -/
def openAfter : Nat → List Char → Option Nat
  | depth, [] => some depth
  | depth, c :: cs =>
    if c = '{' then openAfter (depth + 1) cs
    else if c = '}' then
      match depth with
      | 0 => none
      | depth + 1 => openAfter depth cs
    else openAfter depth cs

theorem openAfter_append (depth : Nat) (cs ds : List Char) :
    openAfter depth (cs ++ ds) = (openAfter depth cs).bind (openAfter · ds) := by
  fun_induction openAfter depth cs with
  | case1 depth => rfl
  | case2 depth cs ih => simpa [openAfter] using ih
  | case3 cs => simp [openAfter]
  | case4 cs depth _ ih => simpa [openAfter] using ih
  | case5 depth c cs hleft hright ih => simpa [openAfter, hleft, hright] using ih

theorem openAfter_plain {cs : List Char} (hleft : '{' ∉ cs) (hright : '}' ∉ cs) (depth : Nat) :
    openAfter depth cs = some depth := by
  induction cs with
  | nil => rfl
  | cons c cs ih =>
    simp only [List.mem_cons, not_or] at hleft hright
    simp [openAfter, Ne.symm hleft.1, Ne.symm hright.1, ih hleft.2 hright.2]

theorem Nested.openAfter {cs : List Char} (h : Nested cs) (depth : Nat) :
    openAfter depth cs = some depth := by
  induction h generalizing depth with
  | nil => rfl
  | plain hleft hright _ ih => simp [Guard.openAfter, hleft, hright, ih]
  | pair _ _ ih ih' => simp [Guard.openAfter, openAfter_append, ih, ih']

/-- A text that closes the braces open before it has a nested part before each closing one. The
induction is on the length, since the rest behind a pair is looked at again. -/
theorem exists_nested_of_openAfter {n depth : Nat} {cs : List Char} (hn : cs.length ≤ n)
    (h : openAfter depth cs = some 0) :
    (depth = 0 ∧ Nested cs) ∨ ∃ inner inside rest, depth = inner + 1 ∧
      cs = inside ++ '}' :: rest ∧ Nested inside ∧ openAfter inner rest = some 0 := by
  induction n generalizing depth cs with
  | zero =>
    obtain rfl := List.eq_nil_of_length_eq_zero (Nat.le_zero.mp hn)
    exact .inl ⟨Option.some.inj h, .nil⟩
  | succ n ih =>
    cases cs with
    | nil => exact .inl ⟨Option.some.inj h, .nil⟩
    | cons c cs =>
      have hlength : cs.length ≤ n := Nat.le_of_succ_le_succ hn
      by_cases hleft : c = '{'
      · subst hleft
        replace h : openAfter (depth + 1) cs = some 0 := by simpa [openAfter] using h
        obtain ⟨hzero, -⟩ | ⟨inner, inside, rest, hinner, rfl, hinside, hrest⟩ := ih hlength h
        · cases hzero
        · cases hinner
          -- the pair is behind us, and what follows it is read at the depth before the pair
          have hshorter : rest.length ≤ n := by
            rw [List.length_append, List.length_cons] at hlength
            omega
          obtain ⟨rfl, hnested⟩ | ⟨inner, inside', rest', rfl, rfl, hinside', hrest'⟩ :=
            ih hshorter hrest
          · exact .inl ⟨rfl, .pair hinside hnested⟩
          · exact .inr ⟨inner, '{' :: (inside ++ '}' :: inside'), rest', rfl, by simp,
              .pair hinside hinside', hrest'⟩
      · by_cases hright : c = '}'
        · subst hright
          cases depth with
          | zero => simp [openAfter] at h
          | succ inner =>
            exact .inr ⟨inner, [], cs, rfl, rfl, .nil, by simpa [openAfter] using h⟩
        · have hcs : openAfter depth cs = some 0 := by simpa [openAfter, hleft, hright] using h
          obtain ⟨rfl, hnested⟩ | ⟨inner, inside, rest, rfl, rfl, hinside, hrest⟩ := ih hlength hcs
          · exact .inl ⟨rfl, .plain hleft hright hnested⟩
          · exact .inr ⟨inner, c :: inside, rest, rfl, rfl, .plain hleft hright hinside, hrest⟩

theorem nested_iff {cs : List Char} : Nested cs ↔ openAfter 0 cs = some 0 := by
  refine ⟨fun h => h.openAfter 0, fun h => ?_⟩
  obtain ⟨-, hnested⟩ | ⟨inner, inside, rest, hinner, -⟩ := exists_nested_of_openAfter (Nat.le_refl _) h
  · exact hnested
  · cases hinner

instance (cs : List Char) : Decidable (Nested cs) :=
  decidable_of_iff _ nested_iff.symm

theorem not_mem_of_blanks {c : Char} {cs : List Char} (h : ∀ d ∈ cs, Text.isBlank d)
    (hc : Text.isBlank c = false) : c ∉ cs := by
  intro hmem
  rw [h c hmem] at hc
  cases hc

/-- Trimming takes no braces away. -/
theorem nested_trim {cs : List Char} : Nested (Text.trim cs) ↔ Nested cs := by
  obtain ⟨before, after, hcs, hbefore, hafter⟩ := Text.exists_blanks_trim cs
  have hb := openAfter_plain (not_mem_of_blanks hbefore (c := '{') rfl)
    (not_mem_of_blanks hbefore (c := '}') rfl) 0
  have ha := openAfter_plain (not_mem_of_blanks hafter (c := '{') rfl)
    (not_mem_of_blanks hafter (c := '}') rfl)
  have hopen : openAfter 0 cs = openAfter 0 (Text.trim cs) := by
    conv_lhs => rw [hcs]
    rw [openAfter_append, hb, Option.bind_some, openAfter_append]
    simp [ha]
  rw [nested_iff, nested_iff, hopen]

/-! ### The pair that the first left brace opens -/

/-- The first left brace of a text with what stands before it, what it encloses, and what stands
behind the brace that closes it. -/
structure FirstPair (cs before inside rest : List Char) : Prop where
  text : cs = before ++ '{' :: (inside ++ '}' :: rest)
  first : '{' ∉ before
  matched : Nested inside

theorem Nested.exists_firstPair {cs : List Char} (h : Nested cs) (hmem : '{' ∈ cs) :
    ∃ before inside rest, FirstPair cs before inside rest := by
  induction h with
  | nil => cases hmem
  | @plain c cs hleft _ _ ih =>
    obtain ⟨before, inside, rest, hp⟩ := ih ((List.mem_cons.mp hmem).resolve_left (Ne.symm hleft))
    refine ⟨c :: before, inside, rest, by rw [hp.text]; rfl, ?_, hp.matched⟩
    simpa [Ne.symm hleft] using hp.first
  | @pair inside rest hinside _ _ _ => exact ⟨[], inside, rest, rfl, by simp, hinside⟩

/-- A nested text that goes on with a right brace ends before every other nested one that does. -/
theorem eq_of_nested_close {inside inside' rest rest' : List Char} (h : Nested inside)
    (h' : Nested inside') (heq : inside ++ '}' :: rest = inside' ++ '}' :: rest') :
    inside = inside' ∧ rest = rest' := by
  have hclosed : ∀ {a b : List Char}, Nested a → Nested b → ∀ x, b ≠ a ++ '}' :: x := by
    rintro a b ha hb x rfl
    have hopen := hb.openAfter 0
    simp [openAfter_append, ha.openAfter, openAfter] at hopen
  obtain ⟨x, rfl, hx⟩ | ⟨x, rfl, hx⟩ := List.append_eq_append_iff.mp heq
  · cases x with
    | nil => simpa using hx
    | cons c x =>
      obtain ⟨rfl, -⟩ := List.cons.inj hx
      exact absurd rfl (hclosed h h' x)
  · cases x with
    | nil => simpa using hx.symm
    | cons c x =>
      obtain ⟨rfl, -⟩ := List.cons.inj hx
      exact absurd rfl (hclosed h' h x)

theorem FirstPair.unique {cs before inside rest before' inside' rest' : List Char}
    (h : FirstPair cs before inside rest) (h' : FirstPair cs before' inside' rest') :
    before = before' ∧ inside = inside' ∧ rest = rest' := by
  have hcut := Text.cutAt?_append h.first (inside ++ '}' :: rest)
  rw [← h.text, h'.text, Text.cutAt?_append h'.first] at hcut
  obtain ⟨hbefore, hbehind⟩ := Prod.mk.inj (Option.some.inj hcut)
  exact ⟨hbefore.symm, eq_of_nested_close h.matched h'.matched hbehind.symm⟩

/-! ### What is left of a guarded text -/

def isGuarded (code : String) : Bool :=
  ['i', 'f'].isPrefixOf (Text.trim code.toList)

theorem toList_strip_of_not_guarded {code : String} (h : isGuarded code = false) :
    (strip code).toList = Text.trim code.toList := by
  unfold strip
  dsimp only
  rw [isGuarded] at h
  rw [h, if_neg (by simp), String.toList_ofList]

/-- A text that begins like a guard and has no left brace is only trimmed. -/
theorem toList_strip_of_no_brace {code : String} (h : '{' ∉ Text.trim code.toList) :
    (strip code).toList = Text.trim code.toList := by
  unfold strip
  dsimp only
  rw [Text.between?_eq_none h]
  split <;> exact String.toList_ofList ..

/-- What is left of a guarded text ends before its last right brace. -/
theorem toList_strip_of_between {code : String} {inside : List Char} (hg : isGuarded code)
    (h : Text.between? '{' '}' (Text.trim code.toList) = some inside) :
    (strip code).toList = Text.trim inside := by
  unfold strip
  dsimp only
  rw [isGuarded] at hg
  rw [if_pos hg, h]
  exact String.toList_ofList ..

theorem FirstPair.between_of_not_mem {cs before inside rest : List Char}
    (h : FirstPair cs before inside rest) (hrest : '}' ∉ rest) :
    Text.between? '{' '}' cs = some inside := by
  rw [h.text]
  exact Text.between?_append h.first hrest inside

/-- With a brace behind the first pair, what is left goes on past the end of that pair. -/
theorem FirstPair.exists_between_of_mem {cs before inside rest : List Char}
    (h : FirstPair cs before inside rest) (hrest : '}' ∈ rest) :
    ∃ more, Text.between? '{' '}' cs = some (inside ++ '}' :: more) := by
  obtain ⟨more, after, rfl, hafter⟩ := Text.exists_last_of_mem hrest
  refine ⟨more, ?_⟩
  have hbetween := Text.between?_append h.first hafter (inside ++ '}' :: more)
  rw [h.text]
  simpa using hbetween

/-- What is left of a nested text is nested exactly if no brace stands behind the first pair. -/
theorem nested_strip_iff {code : String} (h : Nested code.toList) :
    Nested (strip code).toList ↔ (isGuarded code → ∀ before inside rest,
      FirstPair (Text.trim code.toList) before inside rest → '}' ∉ rest) := by
  have htrim := nested_trim.mpr h
  constructor
  · intro hstrip hg before inside rest hp hrest
    obtain ⟨more, hbetween⟩ := hp.exists_between_of_mem hrest
    rw [toList_strip_of_between hg hbetween, nested_trim, nested_iff, openAfter_append,
      hp.matched.openAfter] at hstrip
    simp [openAfter] at hstrip
  · intro hrest
    cases hg : isGuarded code with
    | false => rwa [toList_strip_of_not_guarded hg]
    | true =>
      by_cases hmem : '{' ∈ Text.trim code.toList
      · obtain ⟨before, inside, rest, hp⟩ := htrim.exists_firstPair hmem
        have hbetween := hp.between_of_not_mem (hrest hg before inside rest hp)
        rw [toList_strip_of_between hg hbetween, nested_trim]
        exact hp.matched
      · rwa [toList_strip_of_no_brace hmem]

/-- What stripping a guard should leave: a well nested text, which is the trimmed text itself or
stands inside the pair of braces that the first left brace opens and the last character closes. -/
structure Keeps (code : String) : Prop where
  nested : Nested (strip code).toList
  whole : (strip code).toList = Text.trim code.toList ∨
    ∃ before inside, FirstPair (Text.trim code.toList) before inside [] ∧
      (strip code).toList = Text.trim inside

/-- A guarded text with braces is never left as it is. -/
theorem FirstPair.length_strip_lt {code : String} {before inside rest : List Char}
    (hg : isGuarded code) (h : FirstPair (Text.trim code.toList) before inside rest) :
    (strip code).toList.length < (Text.trim code.toList).length := by
  have hsome : ∃ kept, Text.between? '{' '}' (Text.trim code.toList) = some kept := by
    by_cases hrest : '}' ∈ rest
    · obtain ⟨more, hbetween⟩ := h.exists_between_of_mem hrest
      exact ⟨_, hbetween⟩
    · exact ⟨inside, h.between_of_not_mem hrest⟩
  obtain ⟨kept, hbetween⟩ := hsome
  obtain ⟨before', after, hcs⟩ := Text.exists_of_between? hbetween
  have hlength := congrArg List.length hcs
  have htrim := Text.length_trim_le kept
  rw [toList_strip_of_between hg hbetween]
  simp only [List.length_append, List.length_cons] at hlength
  omega

/-- Stripping keeps a well nested text together exactly if the text is no guard, or nothing stands
behind the pair of braces that the first left brace opens. -/
theorem strip_keeps_iff {code : String} (h : Nested code.toList) :
    Keeps code ↔ (isGuarded code → ∀ before inside rest,
      FirstPair (Text.trim code.toList) before inside rest → rest = []) := by
  constructor
  · intro hk hg before inside rest hp
    rcases hk.whole with hwhole | ⟨before', inside', hp', -⟩
    · have hlength := hp.length_strip_lt hg
      rw [hwhole] at hlength
      exact absurd hlength (Nat.lt_irrefl _)
    · exact (hp.unique hp').2.2
  · intro hrest
    have hnested : Nested (strip code).toList := by
      refine (nested_strip_iff h).mpr fun hg before inside rest hp => ?_
      simp [hrest hg before inside rest hp]
    refine ⟨hnested, ?_⟩
    cases hg : isGuarded code with
    | false => exact .inl (toList_strip_of_not_guarded hg)
    | true =>
      by_cases hmem : '{' ∈ Text.trim code.toList
      · obtain ⟨before, inside, rest, hp⟩ := (nested_trim.mpr h).exists_firstPair hmem
        obtain rfl := hrest hg before inside rest hp
        have hbetween := hp.between_of_not_mem (by simp)
        exact .inr ⟨before, inside, hp, toList_strip_of_between hg hbetween⟩
      · exact .inl (toList_strip_of_no_brace hmem)

/-- A guard around a loop that has braces of its own. -/
def guardedLoop : String :=
  "if (n >= 1) \x7b\n  for(;;) \x7b s0(); \x7d\n\x7d\n"

theorem strip_keeps_iff_loop :
    Nested guardedLoop.toList ∧ isGuarded guardedLoop ∧ Keeps guardedLoop ∧
      strip guardedLoop = "for(;;) \x7b s0(); \x7d" := by
  have hnested : Nested guardedLoop.toList := by decide
  have hpair : FirstPair (Text.trim guardedLoop.toList) "if (n >= 1) ".toList
      "\n  for(;;) \x7b s0(); \x7d\n".toList [] :=
    ⟨by decide, by decide, by decide⟩
  have hrest : isGuarded guardedLoop → ∀ before inside rest,
      FirstPair (Text.trim guardedLoop.toList) before inside rest → rest = [] :=
    fun _ before inside rest hp => (hp.unique hpair).2.2
  exact ⟨hnested, by decide, (strip_keeps_iff hnested).mpr hrest, by decide⟩

/-- Two guards behind one another. -/
def twoGuards : String :=
  "if (n >= 1) \x7b s0(); \x7d if (m >= 1) \x7b s1(); \x7d"

/-- The brace that closes the first of two guards is left without the one that opens it. -/
theorem strip_twoGuards_not_nested :
    Nested twoGuards.toList ∧ strip twoGuards = "s0(); \x7d if (m >= 1) \x7b s1();" ∧
      ¬ Nested (strip twoGuards).toList ∧ ¬ Keeps twoGuards := by
  have hstrip : ¬ Nested (strip twoGuards).toList := by decide
  exact ⟨by decide, by decide, hstrip, fun h => hstrip h.nested⟩

end LoopNest.Guard
