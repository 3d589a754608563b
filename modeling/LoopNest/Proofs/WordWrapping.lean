import LoopNest.Code.Define
import LoopNest.Proofs.CLexer
import Mathlib.Data.List.Find

/-!
# Wrapping words wraps names

Wrapping looks at characters and not at tokens. In a C text that is read to its end, with names of
word characters only and numbers as programs have them, the whole words are the names, so that
wrapping a word puts symbols around the tokens of that name and changes no other token. Parentheses
are what makes this safe: they never become part of a token beside them.
-/

namespace LoopNest

open Scan

namespace Text

/-! ### Words in a text -/

/-- A name of word characters only. -/
def IsWord (name : List Char) : Prop :=
  ∃ c cs, name = c :: cs ∧ startsName c ∧ ∀ d ∈ name, isWordChar d

theorem IsWord.ne_nil {name : List Char} (h : IsWord name) : name ≠ [] := by
  obtain ⟨c, cs, rfl, -⟩ := h
  exact List.cons_ne_nil c cs

theorem IsWord.any_head? {name : List Char} (h : IsWord name) (rest : List Char) :
    (name ++ rest).head?.any isWordChar := by
  obtain ⟨c, cs, rfl, -, hword⟩ := h
  exact hword c List.mem_cons_self

theorem IsWord.any_getLast? {name : List Char} (h : IsWord name) (before : Option Char) :
    (name.getLast?.or before).any isWordChar := by
  rw [List.getLast?_eq_some_getLast h.ne_nil]
  obtain ⟨c, cs, -, -, hword⟩ := h
  exact hword _ (List.getLast_mem _)

/-- A text in which no name begins a word: what could begin a name stands behind a word character. -/
def Passes : Option Char → List Char → Prop
  | _, [] => True
  | before, c :: cs =>
    (startsName c → isWordChar c ∧ before.any isWordChar) ∧ Passes (some c) cs

theorem passes_append {before : Option Char} {xs ys : List Char} (hx : Passes before xs)
    (hy : Passes (xs.getLast?.or before) ys) : Passes before (xs ++ ys) := by
  induction xs generalizing before with
  | nil => exact hy
  | cons c xs ih =>
    refine ⟨hx.1, ih hx.2 ?_⟩
    rw [List.getLast?_cons] at hy
    cases hlast : xs.getLast? <;> simpa [hlast] using hy

theorem passes_of_not_startsName {before : Option Char} {xs : List Char}
    (h : ∀ c ∈ xs, startsName c = false) : Passes before xs := by
  induction xs generalizing before with
  | nil => trivial
  | cons c xs ih =>
    obtain ⟨hc, hxs⟩ := List.forall_mem_cons.mp h
    exact ⟨by simp [hc], ih hxs⟩

theorem isWordChar_of_isDigit {c : Char} (h : c.isDigit) : isWordChar c := by
  simp [isWordChar, isAscii_of_isDigit h, isAsciiAlphanumeric, h]

theorem any_getLast?_of_isDigits {ds : List Char} (h : IsDigits ds) (before : Option Char) :
    (ds.getLast?.or before).any isWordChar := by
  rw [List.getLast?_eq_some_getLast h.1]
  exact isWordChar_of_isDigit (h.2 _ (List.getLast_mem _))

theorem passes_of_isDigits {before : Option Char} {ds : List Char} (h : ∀ c ∈ ds, c.isDigit) :
    Passes before ds := by
  apply passes_of_not_startsName
  intro c hc
  by_contra hs
  have := not_isDigit_of_startsName (c := c) (by simpa using hs)
  simp [h c hc] at this

theorem passes_of_isFraction {before : Option Char} {point : List Char} (h : IsFraction point) :
    Passes before point := by
  cases h with
  | absent => trivial
  | point ds hds => exact ⟨fun hdot => absurd hdot (by decide), passes_of_isDigits hds.2⟩

theorem passes_of_isExponent {before : Option Char} {exponent : List Char} (h : IsExponent exponent)
    (hbefore : before.any isWordChar) : Passes before exponent := by
  cases h with
  | absent => trivial
  | present head ds hhead hds =>
    refine passes_append ?_ (passes_of_isDigits hds.2)
    obtain ⟨e, he, hhead⟩ := hhead
    have hletter : isWordChar e := by rcases he with rfl | rfl <;> decide
    have hplus : startsName '+' = false := by decide
    have hminus : startsName '-' = false := by decide
    rcases hhead with rfl | rfl | rfl <;> simp [Passes, hletter, hbefore, hplus, hminus]

/-- No name begins inside a number. -/
theorem passes_of_isNumeral {text : String} (h : IsNumeral text) (before : Option Char) :
    Passes before text.toList := by
  obtain ⟨whole, point, exponent, htext, hw, hp, he, hne⟩ := h
  rw [htext, ← List.append_assoc]
  refine passes_append (passes_append (passes_of_isDigits hw) (passes_of_isFraction hp)) ?_
  apply passes_of_isExponent he
  cases hp with
  | absent =>
    rw [List.append_nil] at hne ⊢
    exact any_getLast?_of_isDigits ⟨hne, hw⟩ before
  | point ds hds =>
    have hlast := any_getLast?_of_isDigits hds none
    rw [Option.or_none] at hlast
    rw [List.getLast?_append, List.getLast?_cons]
    cases hds' : ds.getLast? with
    | none => simp [hds'] at hlast
    | some d => simpa [hds'] using hlast

/-! ### Wrapping piece by piece -/

section Wrapping

variable {names : List (List Char)} (left right : List Char)

/-- The text with every whole occurrence of a name wrapped. -/
def wrapped (names : List (List Char)) (left right : List Char) (cs : List Char) : List Char :=
  wrapFrom names left right none 0 false cs

theorem wordHere?_nil (hn : ∀ name ∈ names, IsWord name) (before : Option Char) :
    wordHere? names before [] = none := by
  unfold wordHere?
  split
  · refine List.find?_eq_none.mpr fun name hname => ?_
    obtain ⟨c, cs, rfl, -⟩ := hn name hname
    simp
  · rfl

theorem wordHere?_eq_none (hn : ∀ name ∈ names, IsWord name) {before : Option Char} {c : Char}
    (hc : startsName c → isWordChar c ∧ before.any isWordChar) (cs : List Char) :
    wordHere? names before (c :: cs) = none := by
  unfold wordHere?
  split
  · next hboundary =>
    refine List.find?_eq_none.mpr fun name hname => ?_
    obtain ⟨d, ds, rfl, hd, -⟩ := hn name hname
    have hne : d ≠ c := by
      rintro rfl
      obtain ⟨hword, hbefore⟩ := hc hd
      simp [isBoundary, hword, hbefore] at hboundary
    simp [List.isPrefixOf, hne]
  · rfl

theorem ne_nil_of_wordHere? (hn : ∀ name ∈ names, IsWord name) {before : Option Char}
    {cs name : List Char} (h : wordHere? names before cs = some name) : name ≠ [] := by
  unfold wordHere? at h
  split at h
  · exact (hn name (List.mem_of_find?_eq_some h)).ne_nil
  · cases h

/-- Behind a character that is no part of a word, and before one, it makes no difference what stands
in front. -/
theorem wordHere?_congr (hn : ∀ name ∈ names, IsWord name) {before : Option Char} {cs : List Char}
    (h : before.any isWordChar = false ∨ cs.head?.any isWordChar = false) :
    wordHere? names before cs = wordHere? names none cs := by
  rcases h with h | h
  · have hlast : ∀ name ∈ names, name.getLast?.or before = name.getLast?.or none := by
      intro name hname
      rw [List.getLast?_eq_some_getLast (hn name hname).ne_nil]
      rfl
    unfold wordHere?
    rw [show isBoundary before cs.head? = isBoundary none cs.head? by simp [isBoundary, h]]
    split
    · refine List.find?_congr fun name hname => ?_
      rw [hlast name hname]
    · rfl
  · cases cs with
    | nil => rw [wordHere?_nil hn, wordHere?_nil hn]
    | cons c cs =>
      have hnone : ∀ before, wordHere? names before (c :: cs) = none := by
        intro before
        unfold wordHere?
        split
        · refine List.find?_eq_none.mpr fun name hname => ?_
          obtain ⟨d, ds, rfl, -, hword⟩ := hn name hname
          have hne : d ≠ c := by
            rintro rfl
            simp [hword d List.mem_cons_self] at h
          simp [List.isPrefixOf, hne]
        · rfl
      rw [hnone, hnone]

theorem wrapFrom_eq_wrapped (hn : ∀ name ∈ names, IsWord name) {before : Option Char}
    {cs : List Char} (h : before.any isWordChar = false ∨ cs.head?.any isWordChar = false)
    (ended : Bool) : wrapFrom names left right before 0 ended cs = wrapped names left right cs := by
  have hword := wordHere?_congr hn h
  unfold wrapped
  cases cs with
  | nil => simp [wrapFrom, wordHere?_nil hn]
  | cons c cs =>
    rw [wrapFrom, wrapFrom, hword]
    cases hhere : wordHere? names none (c :: cs) with
    | none => rfl
    | some name =>
      cases name with
      | nil => exact absurd rfl (ne_nil_of_wordHere? hn hhere)
      | cons d name => rfl

theorem wrapFrom_passes (hn : ∀ name ∈ names, IsWord name) {before : Option Char}
    {xs : List Char} (h : Passes before xs) (rest : List Char) :
    ∃ ended, wrapFrom names left right before 0 false (xs ++ rest) =
      xs ++ wrapFrom names left right (xs.getLast?.or before) 0 ended rest := by
  induction xs generalizing before with
  | nil => exact ⟨false, rfl⟩
  | cons c xs ih =>
    obtain ⟨ended, hrest⟩ := ih h.2
    refine ⟨ended, ?_⟩
    rw [List.cons_append, wrapFrom, wordHere?_eq_none hn h.1, List.cons_append, List.cons_inj_right]
    refine hrest.trans ?_
    rw [List.getLast?_cons]
    cases xs.getLast? <;> rfl

/-- What is no name is copied, up to a place where no word goes on. -/
theorem wrapped_append (hn : ∀ name ∈ names, IsWord name) {xs rest : List Char}
    (h : Passes none xs)
    (hrest : xs.getLast?.any isWordChar = false ∨ rest.head?.any isWordChar = false) :
    wrapped names left right (xs ++ rest) = xs ++ wrapped names left right rest := by
  obtain ⟨ended, heq⟩ := wrapFrom_passes left right hn h rest
  rw [wrapped, heq, wrapFrom_eq_wrapped left right hn (by simpa using hrest)]

theorem wrapFrom_skip (xs rest : List Char) (before : Option Char) :
    wrapFrom names left right before xs.length true (xs ++ rest) =
      wrapFrom names left right (xs.getLast?.or before) 0 true rest := by
  induction xs generalizing before with
  | nil => rfl
  | cons c xs ih =>
    rw [List.length_cons, List.cons_append, wrapFrom, ih, List.getLast?_cons]
    cases xs.getLast? <;> rfl

/-- A name fits at a whole word if it is that word. -/
theorem fits_iff {name word rest : List Char} (hname : IsWord name) (hword : IsWord word)
    (hrest : rest.head?.any isWordChar = false) (before : Option Char) :
    (name.isPrefixOf (word ++ rest) && isBoundary (name.getLast?.or before)
      ((word ++ rest).drop name.length).head?) = (name == word) := by
  rw [Bool.eq_iff_iff, Bool.and_eq_true, List.isPrefixOf_iff_prefix, beq_iff_eq, isBoundary,
    hname.any_getLast?, Bool.true_bne, Bool.not_eq_true']
  obtain ⟨-, -, -, -, hchars⟩ := hname
  obtain ⟨-, -, -, -, hchars'⟩ := hword
  constructor
  · rintro ⟨hstart, hend⟩
    rcases List.prefix_or_prefix_of_prefix hstart (List.prefix_append word rest) with h | h
    · -- A name that is shorter ends inside the word.
      obtain ⟨more, rfl⟩ := h
      rw [List.append_assoc, List.drop_left] at hend
      cases more with
      | nil => rw [List.append_nil]
      | cons c more => simp [hchars' c (by simp)] at hend
    · -- A name that is longer goes on with what follows the word.
      obtain ⟨more, rfl⟩ := h
      obtain ⟨behind, hbehind⟩ := (List.prefix_append_right_inj word).mp hstart
      subst hbehind
      cases more with
      | nil => rw [List.append_nil]
      | cons c more => simp [hchars c (by simp)] at hrest
  · rintro rfl
    exact ⟨List.prefix_append name rest, by rwa [List.drop_left]⟩

theorem wordHere?_word (hn : ∀ name ∈ names, IsWord name) {word rest : List Char}
    (hword : IsWord word) (hrest : rest.head?.any isWordChar = false) :
    wordHere? names none (word ++ rest) = if word ∈ names then some word else none := by
  have hfind : ∀ ns : List (List Char),
      ns.find? (· == word) = if word ∈ ns then some word else none := by
    intro ns
    induction ns with
    | nil => rfl
    | cons n ns ih =>
      by_cases h : n = word
      · simp [h]
      · simp [h, ih, Ne.symm h]
  rw [wordHere?, isBoundary, hword.any_head? rest, if_pos (by rfl), ← hfind names]
  exact List.find?_congr fun name hname => fits_iff (hn name hname) hword hrest none

/-- Inside a word no other begins. -/
theorem passes_of_isWordChar {before : Option Char} {xs : List Char}
    (hbefore : before.any isWordChar) (h : ∀ c ∈ xs, isWordChar c) : Passes before xs := by
  induction xs generalizing before with
  | nil => trivial
  | cons c xs ih =>
    obtain ⟨hc, hxs⟩ := List.forall_mem_cons.mp h
    exact ⟨fun _ => ⟨hc, hbefore⟩, ih hc hxs⟩

/-- A word is wrapped if it is one of the names, and copied otherwise. -/
theorem wrapped_word (hn : ∀ name ∈ names, IsWord name) {word rest : List Char}
    (hword : IsWord word) (hrest : rest.head?.any isWordChar = false) :
    wrapped names left right (word ++ rest) =
      (if word ∈ names then left ++ word ++ right else word) ++ wrapped names left right rest := by
  have hhere := wordHere?_word hn hword hrest
  obtain ⟨c, cs, rfl, -, hchars⟩ := hword
  obtain ⟨hc, hcs⟩ := List.forall_mem_cons.mp hchars
  rw [List.cons_append] at hhere
  rw [wrapped, List.cons_append, wrapFrom, hhere]
  by_cases hmem : c :: cs ∈ names
  · simp only [if_pos hmem, wrapFrom_skip, wrapFrom_eq_wrapped left right hn (.inr hrest)]
  · have hpasses : Passes (some c) cs := passes_of_isWordChar hc hcs
    obtain ⟨ended, heq⟩ := wrapFrom_passes left right hn hpasses rest
    simp only [if_neg hmem, heq, wrapFrom_eq_wrapped left right hn (.inr hrest)]
    rfl

theorem eq_nil_of_prefix_cons {c : Char} {p behind : List Char} (hp : c ∉ p)
    (h : p <+: c :: behind) : p = [] := by
  cases p with
  | nil => rfl
  | cons d p =>
    obtain ⟨rfl, -⟩ := List.cons_prefix_cons.mp h
    exact absurd List.mem_cons_self hp

/-- Up to the first character put in, wrapping changes nothing. -/
theorem prefix_of_prefix_wrapFrom {c : Char} {left p : List Char} (hp : c ∉ p)
    (before : Option Char) (ended : Bool) (cs : List Char)
    (h : p <+: wrapFrom names (c :: left) right before 0 ended cs) : p <+: cs := by
  induction cs generalizing p before ended with
  | nil =>
    rw [wrapFrom] at h
    split at h
    · split at h
      · exact h
      · exact eq_nil_of_prefix_cons hp h ▸ List.nil_prefix
    · exact h
  | cons d cs ih =>
    have hcopy : p <+: d :: wrapFrom names (c :: left) right (some d) 0 false cs →
        p <+: d :: cs := by
      intro h
      cases p with
      | nil => exact List.nil_prefix
      | cons x p =>
        obtain ⟨rfl, h⟩ := List.cons_prefix_cons.mp h
        rw [List.mem_cons, not_or] at hp
        exact List.cons_prefix_cons.mpr ⟨rfl, ih hp.2 _ _ h⟩
    rw [wrapFrom] at h
    split at h
    · exact hcopy h
    · split at h
      · exact hcopy h
      · exact eq_nil_of_prefix_cons hp h ▸ List.nil_prefix
    · exact eq_nil_of_prefix_cons hp h ▸ List.nil_prefix

end Wrapping

end Text

namespace C

/-! ### Tokens and what follows them -/

def Token.text : Token → String
  | .name text | .number text | .symbol text => text

/-- The symbols that are part of no longer one. -/
def breaks : List Char :=
  ['(', ')', ';']

/-- `Replaces tail tail'` holds if `tail'` may stand behind a token in the place of `tail`: as far as
it has no breaks, the one begins as the other. -/
def Replaces (tail tail' : List Char) : Prop :=
  ∀ p : List Char, (∀ c ∈ p, c ∉ breaks) → p <+: tail' → p <+: tail

theorem replaces_break {c : Char} (hc : c ∈ breaks) (tail behind : List Char) :
    Replaces tail (c :: behind) := by
  intro p hp h
  rw [Text.eq_nil_of_prefix_cons (fun hmem => hp c hmem hc) h]
  exact List.nil_prefix

theorem Replaces.append {tail tail' : List Char} (h : Replaces tail tail') (xs : List Char) :
    Replaces (xs ++ tail) (xs ++ tail') := by
  induction xs with
  | nil => exact h
  | cons x xs ih =>
    intro p hp hstart
    cases p with
    | nil => exact List.nil_prefix
    | cons c p =>
      obtain ⟨rfl, hrest⟩ := List.cons_prefix_cons.mp hstart
      exact List.cons_prefix_cons.mpr ⟨rfl, ih p (List.forall_mem_cons.mp hp).2 hrest⟩

/-- The first character is a break, or the same. -/
theorem Replaces.head {tail tail' : List Char} (h : Replaces tail tail') :
    ∀ c ∈ tail'.head?, c ∈ breaks ∨ c ∈ tail.head? := by
  intro c hc
  by_cases hbreak : c ∈ breaks
  · exact .inl hbreak
  · cases tail' with
    | nil => cases hc
    | cons d tail' =>
      cases hc
      obtain ⟨behind, rfl⟩ := h [c] (by simpa using hbreak) ⟨tail', rfl⟩
      exact .inr rfl

/-- What holds of no break and not of the first character holds of neither first character. -/
theorem Replaces.head_not {p : Char → Bool} {tail tail' : List Char} (h : Replaces tail tail')
    (hbreaks : ∀ c ∈ breaks, p c = false) (htail : ∀ c ∈ tail.head?, p c = false) :
    ∀ c ∈ tail'.head?, p c = false :=
  fun c hc => (h.head c hc).elim (hbreaks c) (htail c)

theorem continuesName_breaks : ∀ c ∈ breaks, continuesName c = false :=
  List.forall_mem_cons.mpr ⟨by decide, List.forall_mem_cons.mpr ⟨by decide,
    List.forall_mem_singleton.mpr (by decide)⟩⟩

theorem replaces_wrapped {names : List (List Char)} {left right : List Char} (tail : List Char) :
    Replaces tail (Text.wrapped names ('(' :: left) right tail) := by
  intro p hp h
  refine Text.prefix_of_prefix_wrapFrom right ?_ none false tail h
  exact fun hmem => hp _ hmem (by decide)

/-- A character that a number goes on with. -/
def extendsNumber (exponent : Bool) (c : Char) : Bool :=
  c = '.' || continuesName c || (exponent && (c = '+' || c = '-'))

theorem numberTail_eq_nil_iff {exponent : Bool} {tail : List Char} :
    numberTail exponent tail = [] ↔ ∀ c ∈ tail.head?, extendsNumber exponent c = false := by
  cases tail with
  | nil => simp [numberTail]
  | cons c tail => simp [numberTail, extendsNumber]

theorem extendsNumber_breaks (exponent : Bool) : ∀ c ∈ breaks, extendsNumber exponent c = false := by
  intro c hc
  have hname := continuesName_breaks c hc
  have hother : c ≠ '.' ∧ c ≠ '+' ∧ c ≠ '-' := by
    refine ⟨?_, ?_, ?_⟩ <;> rintro rfl <;> exact absurd hc (by decide)
  simp [extendsNumber, hname, hother]

theorem numberTail_replaces {tail tail' : List Char} (h : Replaces tail tail') {run : List Char}
    {exponent : Bool} (hrun : numberTail exponent (run ++ tail) = run) :
    numberTail exponent (run ++ tail') = run := by
  induction run generalizing exponent with
  | nil =>
    exact numberTail_eq_nil_iff.mpr
      (h.head_not (extendsNumber_breaks exponent) (numberTail_eq_nil_iff.mp hrun))
  | cons c run ih =>
    simp only [List.cons_append, numberTail] at hrun ⊢
    split at hrun
    · next hc => rw [if_pos hc, ih (List.cons.inj hrun).2]
    · cases hrun

/-- A token that is taken off a text with a given rest. -/
inductive Taken (tail : List Char) : Token → Prop where
  | number {c : Char} {run : List Char}
      (hc : c.isDigit || (c = '.' && startsWithDigit (run ++ tail)))
      (hrun : numberTail false (run ++ tail) = run) : Taken tail (.number (String.ofList (c :: run)))
  | name {c : Char} {run : List Char} (hc : startsName c)
      (hrun : (run ++ tail).takeWhile continuesName = run) :
      Taken tail (.name (String.ofList (c :: run)))
  | symbol {c : Char} {cs : List Char} {p : String} (htext : p.toList = c :: cs)
      (hd : (c.isDigit || (c = '.' && startsWithDigit (cs ++ tail))) = false)
      (hs : startsName c = false) (hp : punctuator? (p.toList ++ tail) = some p)
      (hcomment : p ∉ comments) : Taken tail (.symbol p)

theorem numberTail_append_drop (exponent : Bool) (cs : List Char) :
    numberTail exponent cs ++ cs.drop (numberTail exponent cs).length = cs := by
  induction cs generalizing exponent with
  | nil => rfl
  | cons c cs ih =>
    rw [numberTail]
    split
    · rw [List.cons_append, List.length_cons, List.drop_succ_cons, ih]
    · rfl

theorem punctuator?_eq_some {cs : List Char} {p : String} (h : punctuator? cs = some p) :
    p ∈ comments ++ punctuators ∧ p.toList <+: cs := by
  refine ⟨List.mem_of_find?_eq_some h, List.isPrefixOf_iff_prefix.mp ?_⟩
  exact List.find?_some (p := fun p : String => p.toList.isPrefixOf cs) h

theorem ne_nil_of_mem_punctuators {p : String} (h : p ∈ comments ++ punctuators) :
    p.toList ≠ [] := by
  have hall : ∀ p ∈ comments ++ punctuators, p.toList ≠ [] := by decide
  exact hall p h

theorem token?_eq_some_iff {cs tail : List Char} {t : Token} :
    token? cs = some (t, tail) ↔ Taken tail t ∧ cs = t.text.toList ++ tail := by
  constructor
  · intro h
    cases cs with
    | nil => cases h
    | cons c cs =>
      rw [token?] at h
      split at h
      · next hc =>
        cases h
        have hsplit := numberTail_append_drop false cs
        refine ⟨.number (by rwa [hsplit]) (by rw [hsplit]), ?_⟩
        simp [Token.text, hsplit]
      · next hd =>
        split at h
        · next hs =>
          cases h
          have hsplit := List.takeWhile_append_dropWhile (p := continuesName) (l := cs)
          refine ⟨.name hs (by rw [hsplit]), ?_⟩
          simp [Token.text, hsplit]
        · next hs =>
          split at h
          · next p hp =>
            split at h
            · cases h
            · next hcomment =>
              cases h
              obtain ⟨hmem, tail, htail⟩ := punctuator?_eq_some hp
              have hdrop : (c :: cs).drop p.toList.length = tail := by
                rw [← htail, List.drop_left]
              rw [hdrop]
              obtain ⟨d, ds, hds⟩ := List.exists_cons_of_ne_nil (ne_nil_of_mem_punctuators hmem)
              obtain ⟨rfl, rfl⟩ := List.cons.inj (hds ▸ htail)
              exact ⟨.symbol hds (by simpa using hd) (by simpa using hs) (htail ▸ hp) hcomment,
                htail.symm⟩
          · cases h
  · rintro ⟨htaken, rfl⟩
    cases htaken with
    | @number c run hc hrun =>
      simp [Token.text, token?, hc, hrun]
    | @name c run hc hrun =>
      have hdot : c ≠ '.' := by
        rintro rfl
        exact absurd hc (by decide)
      have hdrop : (run ++ tail).dropWhile continuesName = tail := by
        have hsplit := List.takeWhile_append_dropWhile (p := continuesName) (l := run ++ tail)
        rw [hrun] at hsplit
        exact List.append_cancel_left hsplit
      simp [Token.text, token?, hdot, hc, not_isDigit_of_startsName hc, hrun, hdrop]
    | @symbol c cs p htext hd hs hp hcomment =>
      rw [htext, List.cons_append] at hp
      simp [Token.text, htext, token?, hd, hs, hp, hcomment]

/-- A symbol with a break in it is one character long. -/
theorem breaks_of_mem_punctuators {p : String} (h : p ∈ comments ++ punctuators) :
    p.toList.length = 1 ∨ ∀ c ∈ p.toList, c ∉ breaks := by
  have hall : (comments ++ punctuators).all fun p =>
      decide (p.toList.length = 1) || p.toList.all fun c => !breaks.contains c := by decide
  simpa using List.all_eq_true.mp hall p h

theorem punctuator?_replaces {tail tail' : List Char} (h : Replaces tail tail') {p : String}
    (hp : punctuator? (p.toList ++ tail) = some p) :
    punctuator? (p.toList ++ tail') = some p := by
  obtain ⟨hmem, -⟩ := punctuator?_eq_some hp
  obtain ⟨-, as, bs, hlist, has⟩ := List.find?_eq_some_iff_append.mp hp
  refine List.find?_eq_some_iff_append.mpr ⟨?_, as, bs, hlist, fun q hq => ?_⟩
  · exact List.isPrefixOf_iff_prefix.mpr (List.prefix_append ..)
  · -- A longer symbol would have been found before as well, since it has no breaks.
    have hq' : ¬ q.toList <+: p.toList ++ tail := by
      simpa [← List.isPrefixOf_iff_prefix] using has q hq
    suffices ¬ q.toList <+: p.toList ++ tail' by
      simpa [← List.isPrefixOf_iff_prefix] using this
    intro hstart
    apply hq'
    rcases breaks_of_mem_punctuators (hlist ▸ List.mem_append_left _ hq) with hone | hbreaks
    · obtain ⟨c, cs, hcs⟩ := List.exists_cons_of_ne_nil (ne_nil_of_mem_punctuators hmem)
      obtain ⟨d, hd⟩ := List.length_eq_one_iff.mp hone
      rw [hcs, hd] at hstart ⊢
      obtain ⟨rfl, -⟩ := List.cons_prefix_cons.mp hstart
      exact List.cons_prefix_cons.mpr ⟨rfl, List.nil_prefix⟩
    · exact h.append p.toList q.toList hbreaks hstart

theorem startsWithDigit_eq_false_iff {cs : List Char} :
    startsWithDigit cs = false ↔ ∀ c ∈ cs.head?, c.isDigit = false := by
  cases cs with
  | nil => simp [startsWithDigit]
  | cons c cs => simp [startsWithDigit]

theorem takeWhile_eq_left {p : Char → Bool} {run tail : List Char}
    (h : (run ++ tail).takeWhile p = run) : (∀ c ∈ run, p c) ∧ ∀ c ∈ tail.head?, p c = false := by
  have hall : ∀ c ∈ run, p c := by
    intro c hc
    rw [← h] at hc
    exact List.mem_takeWhile_imp hc
  refine ⟨hall, fun c hc => ?_⟩
  cases tail with
  | nil => cases hc
  | cons d tail =>
    cases hc
    rw [List.takeWhile_append_of_pos hall, List.append_right_eq_self] at h
    by_contra hp
    simp [hp] at h

/-- A token is taken as well if what follows it is replaced by what may follow in its place. -/
theorem Taken.replaced {tail tail' : List Char} {t : Token} (ht : Taken tail t)
    (h : Replaces tail tail') : Taken tail' t := by
  cases ht with
  | @number c run hc hrun =>
    refine .number ?_ (numberTail_replaces h hrun)
    cases run with
    | nil =>
      have hstop := numberTail_eq_nil_iff.mp hrun
      have hdigit : startsWithDigit tail = false := by
        refine startsWithDigit_eq_false_iff.mpr fun d hd => ?_
        by_contra hdigit
        have := (continuesName_of_isDigit (c := d) (by simpa using hdigit)).1
        simpa [extendsNumber, this] using hstop d hd
      simp_all
    | cons d run => exact hc
  | @name c run hc hrun =>
    obtain ⟨hall, hstop⟩ := takeWhile_eq_left hrun
    exact .name hc (takeWhile_append_stop hall (h.head_not continuesName_breaks hstop))
  | @symbol c cs p htext hd hs hp hcomment =>
    refine .symbol htext ?_ hs (punctuator?_replaces h hp) hcomment
    have hdigits : ∀ c ∈ breaks, c.isDigit = false := by
      have hall : breaks.all fun c => !c.isDigit := by decide
      simpa using hall
    rw [Bool.or_eq_false_iff] at hd ⊢
    refine ⟨hd.1, ?_⟩
    rw [Bool.and_eq_false_iff, startsWithDigit_eq_false_iff] at hd ⊢
    exact hd.2.imp_right ((h.append cs).head_not hdigits)

/-! ### Wrapped tokens -/

/-- A token as programs have them: a name of word characters, or a number. -/
def Token.IsPlain : Token → Prop
  | .name text => ∀ c ∈ text.toList, Text.isWordChar c
  | .number text => IsNumeral text
  | .symbol _ => True

/-- The tokens that come in the place of a token if some names are wrapped. -/
def Token.wrapIn (names : List String) (left right : List Token) : Token → List Token
  | .name text => if text ∈ names then left ++ .name text :: right else [.name text]
  | t => [t]

theorem not_isWordChar_of_mem_punctuators {p : String} (h : p ∈ comments ++ punctuators) :
    ∀ c ∈ p.toList, Text.isWordChar c = false ∧ startsName c = false := by
  have hall : (comments ++ punctuators).all fun p => p.toList.all fun c =>
      !Text.isWordChar c && !startsName c := by decide
  intro c hc
  simpa using List.all_eq_true.mp (List.all_eq_true.mp hall p h) c hc

theorem head_not_continuesName {run tail : List Char} {exponent : Bool}
    (h : numberTail exponent (run ++ tail) = run) : ∀ c ∈ tail.head?, continuesName c = false := by
  induction run generalizing exponent with
  | nil =>
    intro c hc
    have := numberTail_eq_nil_iff.mp h c hc
    simp_all [extendsNumber]
  | cons c run ih =>
    rw [List.cons_append, numberTail] at h
    split at h
    · exact ih (List.cons.inj h).2
    · cases h

/-- In a text that is read to its end, a character that no name goes on with is no part of a word. -/
theorem not_isWordChar_of_reads {cs : List Char} {ws : List Token}
    (h : lexer.Reads () cs ws () []) (hcs : ∀ c ∈ cs.head?, continuesName c = false) :
    cs.head?.any Text.isWordChar = false := by
  cases h with
  | done => rfl
  | blank => exact show Text.isWordChar ' ' = false by decide
  | token head =>
    obtain ⟨htaken, rfl⟩ := token?_eq_some_iff.mp (lexer_step_eq_some_iff.mp head)
    cases htaken with
    | @number c run hc hrun =>
      simp only [Token.text, String.toList_ofList, List.cons_append] at hcs ⊢
      have hnot := hcs c rfl
      by_cases hd : c.isDigit
      · simp [continuesName_of_isDigit hd] at hnot
      · simp only [hd, Bool.false_or, Bool.and_eq_true, decide_eq_true_eq] at hc
        rw [hc.1]
        exact show Text.isWordChar '.' = false by decide
    | @name c run hc hrun =>
      simp only [Token.text, String.toList_ofList, List.cons_append] at hcs
      have hnot := hcs c rfl
      simp [continuesName_of_startsName hc] at hnot
    | @symbol c cs p htext hd hs hp =>
      have hp' := not_isWordChar_of_mem_punctuators (punctuator?_eq_some hp).1
      simp only [Token.text, htext, List.cons_append]
      exact (hp' c (by simp [htext])).1

section Wrapping

variable {names : List String} {left : List Char} {ls : List Token}

/-- What follows a number or a name does not go on with a word. -/
theorem Taken.head_of_reads {cs : List Char} {t : Token} {ws : List Token} (ht : Taken cs t)
    (h : lexer.Reads () cs ws () []) (hsymbol : ∀ p, t ≠ .symbol p) :
    cs.head?.any Text.isWordChar = false := by
  apply not_isWordChar_of_reads h
  cases ht with
  | @number c run hc hrun => exact head_not_continuesName hrun
  | @name c run hc hrun => exact (takeWhile_eq_left hrun).2
  | symbol => exact absurd rfl (hsymbol _)

/-- A token that is no name is copied. -/
theorem wrapped_token (hn : ∀ name ∈ names.map String.toList, Text.IsWord name) {cs : List Char}
    {t : Token} {ws : List Token} (ht : Taken cs t) (h : lexer.Reads () cs ws () [])
    (hplain : t.IsPlain) (hname : ∀ n, t ≠ .name n) :
    Text.wrapped (names.map String.toList) ('(' :: left) [')'] (t.text.toList ++ cs) =
      t.text.toList ++ Text.wrapped (names.map String.toList) ('(' :: left) [')'] cs := by
  have hhead := ht.head_of_reads h
  cases ht with
  | name => exact absurd rfl (hname _)
  | number => exact Text.wrapped_append _ _ hn (Text.passes_of_isNumeral hplain none) (.inr (hhead nofun))
  | @symbol c run p htext hd hs hp =>
    have hp' := not_isWordChar_of_mem_punctuators (punctuator?_eq_some hp).1
    refine Text.wrapped_append _ _ hn (Text.passes_of_not_startsName fun c hc => (hp' c hc).2) ?_
    have hne : p.toList ≠ [] := by simp [htext]
    rw [Token.text, List.getLast?_eq_some_getLast hne]
    exact .inl (hp' _ (List.getLast_mem hne)).1

theorem Taken.isWord {cs : List Char} {n : String} (ht : Taken cs (.name n))
    (hplain : (Token.name n).IsPlain) : Text.IsWord n.toList := by
  cases ht with
  | @name c run hc => exact ⟨c, run, String.toList_ofList, hc, hplain⟩

/-- A name that stands before a text that is read as the rest, between the symbols around it. -/
theorem reads_between (hleft : ∀ c tail, startsName c →
      lexer.Reads () ('(' :: left ++ c :: tail) ls () (c :: tail)) {n : String}
    (hword : Text.IsWord n.toList) {tail : List Char} {us : List Token}
    (hname : lexer.step () (n.toList ++ ')' :: tail) = some (.name n, (), ')' :: tail))
    (h : lexer.Reads () tail us () []) :
    lexer.Reads () ('(' :: left ++ n.toList ++ [')'] ++ tail)
      (ls ++ .name n :: [.symbol ")"] ++ us) () [] := by
  obtain ⟨c, run, hn, hc, -⟩ := hword
  have hclose : token? (')' :: tail) = some (.symbol ")", tail) := by cases tail <;> rfl
  have hrest : lexer.Reads () (n.toList ++ ')' :: tail) (.name n :: .symbol ")" :: us) () [] :=
    .token hname (.token (lexer_step_eq_some_iff.mpr hclose) h)
  rw [hn] at hrest
  simpa [hn] using (hleft c (run ++ ')' :: tail) hc).append hrest

/-- Wrapping the words of a text that is read to its end puts symbols around the tokens of the names,
and leaves every other token as it is. -/
theorem reads_wrapped (hnames : ∀ name ∈ names, Text.IsWord name.toList)
    (hleft : ∀ c tail, startsName c →
      lexer.Reads () ('(' :: left ++ c :: tail) ls () (c :: tail))
    {s s' : Unit} {cs rest : List Char} {ws : List Token} (h : lexer.Reads s cs ws s' rest)
    (hend : rest = []) (hws : ∀ w ∈ ws, w.IsPlain) :
    lexer.Reads s (Text.wrapped (names.map String.toList) ('(' :: left) [')'] cs)
      (ws.flatMap (Token.wrapIn names ls [.symbol ")"])) s' [] := by
  have hn : ∀ name ∈ names.map String.toList, Text.IsWord name := by simpa using hnames
  induction h with
  | done =>
    subst hend
    exact .done _ _
  | @blank _ _ cs _ _ _ ih =>
    have hblank : Text.Passes none [' '] := ⟨fun h => absurd h (by decide), trivial⟩
    have hcopy : Text.wrapped _ ('(' :: left) [')'] ([' '] ++ cs) = _ :=
      Text.wrapped_append _ _ hn hblank (.inl (by decide))
    exact hcopy ▸ .blank (ih hend hws)
  | @token _ _ _ cs cs₁ _ t ts head hrest ih =>
    obtain ⟨hplain, hts⟩ := List.forall_mem_cons.mp hws
    obtain ⟨htaken, rfl⟩ := token?_eq_some_iff.mp (lexer_step_eq_some_iff.mp head)
    have hbehind := ih hend hts
    subst hend
    have htoken : ∀ tail, Replaces cs₁ tail →
        lexer.step () (t.text.toList ++ tail) = some (t, (), tail) := by
      intro tail hreplaces
      exact lexer_step_eq_some_iff.mpr (token?_eq_some_iff.mpr ⟨htaken.replaced hreplaces, rfl⟩)
    cases t with
    | name n =>
      have hword := htaken.isWord hplain
      have hmem : n.toList ∈ names.map String.toList ↔ n ∈ names :=
        List.mem_map_of_injective fun _ _ => String.toList_inj.mp
      simp only [List.flatMap_cons, Token.text, Token.wrapIn, hmem,
        Text.wrapped_word _ _ hn hword (htaken.head_of_reads hrest nofun)]
      split
      · exact reads_between hleft hword (htoken _ (replaces_break (by decide) cs₁ _)) hbehind
      · exact .token (htoken _ (replaces_wrapped cs₁)) hbehind
    | number n =>
      rw [wrapped_token hn htaken hrest hplain nofun]
      exact .token (htoken _ (replaces_wrapped cs₁)) hbehind
    | symbol p =>
      rw [wrapped_token hn htaken hrest hplain nofun]
      exact .token (htoken _ (replaces_wrapped cs₁)) hbehind

end Wrapping

/-- The tokens of a statement with its iterators in parentheses. -/
theorem reads_protectIterators {iterators : List String} {text : String} {ws : List Token}
    (hi : ∀ name ∈ iterators, Text.IsWord name.toList)
    (h : lexer.Reads () text.toList ws () []) (hws : ∀ w ∈ ws, w.IsPlain) :
    lexer.Reads () (Define.protectIterators iterators text).toList
      (ws.flatMap (Token.wrapIn iterators [.symbol "("] [.symbol ")"])) () [] := by
  have hleft : ∀ c tail, startsName c →
      lexer.Reads () ('(' :: [] ++ c :: tail) [.symbol "("] () (c :: tail) := by
    intro c tail _
    exact .token (show lexer.step () ('(' :: c :: tail) = some (_, (), c :: tail) from rfl)
      (.done _ _)
  have hwrapped := reads_wrapped hi hleft h rfl hws
  rwa [Define.protectIterators, Text.wrapWords, String.toList_ofList]

/-- The tokens of a statement with its pointers dereferenced. -/
theorem reads_dereference {pointers : List String} {text : String} {ws : List Token}
    (hp : ∀ name ∈ pointers, Text.IsWord name.toList)
    (h : lexer.Reads () text.toList ws () []) (hws : ∀ w ∈ ws, w.IsPlain) :
    lexer.Reads () (Define.dereference pointers text).toList
      (ws.flatMap (Token.wrapIn pointers [.symbol "(", .symbol "*"] [.symbol ")"])) () [] := by
  have hleft : ∀ c tail, startsName c →
      lexer.Reads () ('(' :: ['*'] ++ c :: tail) [.symbol "(", .symbol "*"] () (c :: tail) := by
    intro c tail hc
    have hequal : ('=' == c) = false := by
      rw [beq_eq_false_iff_ne]
      rintro rfl
      exact absurd hc (by decide)
    have hstar : punctuator? ('*' :: c :: tail) = some "*" := by
      simp [punctuator?, comments, punctuators, List.isPrefixOf, hequal]
    have hstep : token? ('*' :: c :: tail) = some (.symbol "*", c :: tail) :=
      token?_symbol (by decide) (by decide) (by decide) hstar (by decide)
    exact .token (show lexer.step () ('(' :: '*' :: c :: tail) = some (_, (), '*' :: c :: tail)
      from rfl) (.token (lexer_step_eq_some_iff.mpr hstep) (.done _ _))
  have hwrapped := reads_wrapped hp hleft h rfl hws
  rwa [Define.dereference, Text.wrapWords, String.toList_ofList]

theorem isPlain_wrapIn {names : List String} {left right ws : List Token}
    (hleft : ∀ w ∈ left, w.IsPlain) (hright : ∀ w ∈ right, w.IsPlain) (h : ∀ w ∈ ws, w.IsPlain) :
    ∀ w ∈ ws.flatMap (Token.wrapIn names left right), w.IsPlain := by
  intro w hw
  obtain ⟨v, hv, hw⟩ := List.mem_flatMap.mp hw
  have hplain := h v hv
  cases v with
  | name n =>
    rw [Token.wrapIn] at hw
    split at hw
    · rw [List.mem_append, List.mem_cons] at hw
      rcases hw with hw | rfl | hw
      · exact hleft w hw
      · exact hplain
      · exact hright w hw
    · exact List.mem_singleton.mp hw ▸ hplain
  | number | symbol => exact List.mem_singleton.mp hw ▸ hplain

/-- The tokens of the statement in a definition: its pointers are dereferenced, then its iterators are
put in parentheses. -/
theorem reads_defined {iterators pointers : List String} {text : String} {ws : List Token}
    (hi : ∀ name ∈ iterators, Text.IsWord name.toList)
    (hp : ∀ name ∈ pointers, Text.IsWord name.toList) (h : lexer.Reads () text.toList ws () [])
    (hws : ∀ w ∈ ws, w.IsPlain) :
    lexer.Reads () (Define.protectIterators iterators (Define.dereference pointers text)).toList
      ((ws.flatMap (Token.wrapIn pointers [.symbol "(", .symbol "*"] [.symbol ")"])).flatMap
        (Token.wrapIn iterators [.symbol "("] [.symbol ")"])) () [] := by
  refine reads_protectIterators hi (reads_dereference hp h hws) (isPlain_wrapIn ?_ ?_ hws)
  · simp [Token.IsPlain]
  · simp [Token.IsPlain]

/-- A text that is read to its end is read the same before a semicolon. -/
theorem reads_before_semicolon {s s' : Unit} {cs rest : List Char} {ws : List Token}
    (h : lexer.Reads s cs ws s' rest) (hend : rest = []) (tail : List Char) :
    lexer.Reads s (cs ++ ';' :: tail) ws s' (';' :: tail) := by
  induction h with
  | done => exact hend ▸ .done _ _
  | blank _ ih => exact .blank (ih hend)
  | @token _ _ _ cs cs₁ _ t ts head hrest ih =>
    obtain ⟨htaken, rfl⟩ := token?_eq_some_iff.mp (lexer_step_eq_some_iff.mp head)
    have hreplaces : Replaces cs₁ (cs₁ ++ ';' :: tail) := by
      simpa using (replaces_break (c := ';') (by decide) [] tail).append cs₁
    rw [List.append_assoc]
    exact .token (lexer_step_eq_some_iff.mpr (token?_eq_some_iff.mpr ⟨htaken.replaced hreplaces, rfl⟩))
      (ih hend)

/-- The tokens of a statement in braces. -/
theorem reads_braced {text : String} {ws : List Token} (h : lexer.Reads () text.toList ws () []) :
    lexer.Reads () ("\x7b " ++ text ++ "; \x7d").toList
      (.symbol "\x7b" :: (ws ++ [.symbol ";", .symbol "\x7d"])) () [] := by
  have hopen : lexer.step () ('\x7b' :: ' ' :: (text.toList ++ [';', ' ', '\x7d'])) =
      some (.symbol "\x7b", (), ' ' :: (text.toList ++ [';', ' ', '\x7d'])) := rfl
  have hclose : lexer.Reads () [';', ' ', '\x7d'] [.symbol ";", .symbol "\x7d"] () [] :=
    .token (show lexer.step () [';', ' ', '\x7d'] = some (_, (), [' ', '\x7d']) from rfl)
      (.blank (.token (show lexer.step () ['\x7d'] = some (_, (), []) from rfl) (.done _ _)))
  rw [String.toList_append, String.toList_append, List.append_assoc]
  exact .token hopen (.blank ((reads_before_semicolon h rfl [' ', '\x7d']).append hclose))

end C

end LoopNest
