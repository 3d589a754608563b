import LoopNest.Proofs.Lexing
import LoopNest.Proofs.ScanItems
import Mathlib.Data.List.TakeWhile

/-!
# The spelling of names and numbers

Names and numbers are the tokens with a spelling of their own. Both are described here without a
scanner: a name begins with a letter or an underscore and is no keyword, and a number has digits, a
fraction and an exponent. What the scanner takes for a name or a number is one, and one that is
followed by a boundary is taken for it.
-/

namespace LoopNest

namespace Scan

def startsName (c : Char) : Bool :=
  Text.isIdentifierStart c || c = '_'

def continuesName (c : Char) : Bool :=
  Text.isIdentifierContinue c || c = '_'

/-- The spelling of a name, which is no keyword. -/
def IsName (text : String) : Prop :=
  ∃ c cs, text.toList = c :: cs ∧ startsName c ∧ (∀ d ∈ cs, continuesName d) ∧
    Token.Kind.keyword? text = none

theorem IsName.ne_empty {text : String} (h : IsName text) : text ≠ "" := by
  obtain ⟨c, cs, htext, -⟩ := h
  rintro rfl
  cases htext

/-- One digit or more. -/
def IsDigits (cs : List Char) : Prop :=
  cs ≠ [] ∧ ∀ c ∈ cs, c.isDigit

/-- A point with digits behind it, or nothing. -/
inductive IsFraction : List Char → Prop where
  | absent : IsFraction []
  | point (ds : List Char) (h : IsDigits ds) : IsFraction ('.' :: ds)

def IsExponentHead (head : List Char) : Prop :=
  ∃ e, (e = 'e' ∨ e = 'E') ∧ (head = [e] ∨ head = [e, '+'] ∨ head = [e, '-'])

/-- The letter of an exponent, which may have a sign, with digits behind it, or nothing. -/
inductive IsExponent : List Char → Prop where
  | absent : IsExponent []
  | present (head ds : List Char) (hhead : IsExponentHead head) (h : IsDigits ds) :
      IsExponent (head ++ ds)

/-- The spelling of a number: digits, a fraction and an exponent, each optional, but not the first
two together. -/
def IsNumeral (text : String) : Prop :=
  ∃ whole point exponent, text.toList = whole ++ (point ++ exponent) ∧ (∀ c ∈ whole, c.isDigit) ∧
    IsFraction point ∧ IsExponent exponent ∧ whole ++ point ≠ []

/-! ### What the scanner takes -/

theorem isDigits_takeWhile {cs : List Char} (h : startsWithDigit cs) :
    IsDigits (cs.takeWhile Char.isDigit) := by
  refine ⟨?_, fun c hc => List.mem_takeWhile_imp hc⟩
  cases cs with
  | nil => cases h
  | cons c cs => simp [show c.isDigit = true from h]

theorem isFraction_fraction (cs : List Char) : IsFraction (fraction cs) := by
  unfold fraction
  split
  · split
    · next h => exact .point _ (isDigits_takeWhile h)
    · exact .absent
  · exact .absent

theorem isExponentHead_exponentHead {cs : List Char} (h : exponentHead cs ≠ []) :
    IsExponentHead (exponentHead cs) := by
  cases cs with
  | nil => exact absurd rfl h
  | cons e rest =>
    by_cases he : e = 'e' ∨ e = 'E'
    · refine ⟨e, he, ?_⟩
      cases rest with
      | nil => simp [exponentHead, he]
      | cons s rest =>
        by_cases hs : s = '+' ∨ s = '-'
        · rcases hs with rfl | rfl <;> simp [exponentHead, he]
        · simp [exponentHead, he, hs]
    · simp [exponentHead, he] at h

/-- The exponent that a text begins with; of one without digits this is the head alone. -/
def exponent (cs : List Char) : List Char :=
  let head := exponentHead cs
  if head.isEmpty then [] else head ++ (cs.drop head.length).takeWhile Char.isDigit

/-- Only a number that has neither a fraction nor an exponent is an integer. -/
def numberKind (point exponent : List Char) : Token.Kind :=
  if point.isEmpty && exponent.isEmpty then .integer else .float

/-- A number without a fault is a mantissa with an exponent. -/
theorem number_of_ok {cs : List Char} {kind : Token.Kind} (h : (number cs).outcome = .ok kind) :
    (number cs).text = mantissa cs ++ exponent (cs.drop (mantissa cs).length) ∧
      IsExponent (exponent (cs.drop (mantissa cs).length)) ∧
      kind = numberKind (fraction (cs.drop (cs.takeWhile Char.isDigit).length))
        (exponent (cs.drop (mantissa cs).length)) := by
  unfold number at h ⊢
  unfold mantissa
  dsimp only at h ⊢
  generalize hwhole : cs.takeWhile Char.isDigit = whole at h ⊢
  generalize hpoint : fraction (cs.drop whole.length) = point at h ⊢
  generalize hhead : exponentHead (cs.drop (whole ++ point).length) = head at h ⊢
  generalize hdigits : (cs.drop ((whole ++ point).length + head.length)).takeWhile Char.isDigit =
    digits at h ⊢
  have hparts : exponent (cs.drop (whole ++ point).length) =
      if head.isEmpty then [] else head ++ digits := by
    simp only [exponent, hhead, List.drop_drop, hdigits]
  rw [hparts]
  split at h
  · cases h
  · next hmalformed =>
    rw [if_neg hmalformed]
    have hexponent : IsExponent (if head.isEmpty then [] else head ++ digits) := by
      cases hempty : head.isEmpty with
      | true => exact .absent
      | false =>
        refine .present head digits (hhead ▸ isExponentHead_exponentHead ?_) ⟨?_, ?_⟩
        · rw [hhead]
          simpa using hempty
        · simpa [hempty] using hmalformed
        · intro c hc
          exact List.mem_takeWhile_imp (hdigits ▸ hc)
    have hempty : (if head.isEmpty then [] else head ++ digits).isEmpty = head.isEmpty := by
      cases hempty : head.isEmpty <;> simp_all
    rw [numberKind, hempty]
    split at h
    · split at h
      · cases h
      · next hfollow =>
        rw [if_neg hfollow]
        exact ⟨rfl, hexponent, (Except.ok.inj h).symm⟩
    · exact ⟨rfl, hexponent, (Except.ok.inj h).symm⟩

/-- A number without a fault is spelled as one. -/
theorem isNumeral_number {cs : List Char} {kind : Token.Kind}
    (h : (number cs).outcome = .ok kind) (hcs : mantissa cs ≠ []) :
    IsNumeral (String.ofList (number cs).text) ∧ (kind = .integer ∨ kind = .float) := by
  obtain ⟨htext, hexponent, hkind⟩ := number_of_ok h
  have hlist : (String.ofList (number cs).text).toList = cs.takeWhile Char.isDigit ++
      (fraction (cs.drop (cs.takeWhile Char.isDigit).length) ++
        exponent (cs.drop (mantissa cs).length)) := by
    rw [String.toList_ofList, htext, ← List.append_assoc]
    rfl
  refine ⟨⟨_, _, _, hlist, fun c hc => List.mem_takeWhile_imp hc, isFraction_fraction _, hexponent,
    hcs⟩, ?_⟩
  rw [hkind, numberKind]
  split <;> simp

/-- A word that is spelled as its kind asks. -/
def Spelled (w : Word) : Prop :=
  (w.1 = .identifier → IsName w.2) ∧ (w.1 = .integer ∨ w.1 = .float → IsNumeral w.2)

/-- The kinds whose lexemes are always spelled the same. -/
def isFixed : Token.Kind → Bool
  | .identifier | .integer | .float | .endOfInput => false
  | _ => true

theorem spelled_of_isFixed {kind : Token.Kind} (h : isFixed kind) (text : String) :
    kind ≠ .endOfInput ∧ Spelled (kind, text) := by
  cases kind <;> simp_all [isFixed, Spelled]

theorem isFixed_spellings : ∀ s ∈ spellings, isFixed s.2 := by
  decide

theorem keyword?_eq_some {text : String} {kind : Token.Kind}
    (h : Token.Kind.keyword? text = some kind) : isFixed kind := by
  unfold Token.Kind.keyword? at h
  split at h
  · cases h
    rfl
  · split at h
    · cases h
      rfl
    · split at h <;> cases h
      rfl

theorem eq_of_balanced {depth : Nat} {kind kind' : Token.Kind}
    (h : balanced depth kind = .ok kind') : kind' = kind := by
  unfold balanced at h
  split at h
  · split at h <;> cases h
    rfl
  · cases h
    rfl

/-- A lexeme without a fault is spelled as its kind asks, and is not the end of the input. -/
theorem spelled_of_lexeme? {depth : Nat} {cs : List Char} {l : Lexeme} {kind : Token.Kind}
    (h : lexeme? depth cs = some l) (hk : l.outcome = .ok kind) :
    kind ≠ .endOfInput ∧ Spelled (kind, String.ofList l.text) := by
  unfold lexeme? at h
  split at h
  · cases h
  · next c cs =>
    split at h
    · next text kind' hs =>
      cases h
      cases eq_of_balanced hk
      exact spelled_of_isFixed (isFixed_spellings _ (spelling?_eq_some hs).1) _
    · split at h
      · next hd =>
        cases h
        obtain ⟨hn, hkind⟩ := isNumeral_number hk (mantissa_ne_nil hd)
        rcases hkind with rfl | rfl <;> simp [Spelled, hn]
      · split at h
        · next hstart =>
          cases h
          have hkind : (Token.Kind.keyword? (String.ofList (identifier c cs).text)).getD
              .identifier = kind := Except.ok.inj hk
          cases hword : Token.Kind.keyword? (String.ofList (identifier c cs).text) with
          | some kind' =>
            rw [hword] at hkind
            cases hkind
            exact spelled_of_isFixed (keyword?_eq_some hword) _
          | none =>
            rw [hword] at hkind
            cases hkind
            refine ⟨by simp, fun _ => ?_, by simp⟩
            exact ⟨c, _, String.toList_ofList .., hstart,
              fun d hd => List.mem_takeWhile_imp hd, hword⟩
        · cases h
          cases hk

theorem spelled_of_mem_run {n : Nat} {s : Scanner} {t : Token}
    (h : Item.token t ∈ (s.run n).1) : Spelled t.word := by
  induction n generalizing s with
  | zero => simp [Scanner.run] at h
  | succ n ih =>
    have hnext : ∀ t, s.next.1 = .token t → Spelled t.word := by
      intro t ht
      unfold Scanner.next at ht
      dsimp only at ht
      split at ht
      · cases ht
        simp [Token.word, Spelled]
      · next l hl =>
        split at ht
        · next kind hk =>
          cases ht
          exact (spelled_of_lexeme? hl hk).2
        · cases ht
    rw [Scanner.run] at h
    cases hend : s.next.1.isEnd with
    | true =>
      simp only [hend, if_true, List.mem_singleton] at h
      exact hnext t h.symm
    | false =>
      simp only [hend, Bool.false_eq_true, if_false, List.mem_cons] at h
      rcases h with h | h
      · exact hnext t h.symm
      · exact ih h

/-- The names and numbers of a text are spelled as such. -/
theorem spelled_of_mem_tokens {source : String} {ts : List Token} (h : tokens source = .ok ts)
    {t : Token} (ht : t ∈ ts) : Spelled t.word := by
  rw [tokens, tokensOf_eq_ok_iff] at h
  exact spelled_of_mem_run (n := source.toList.length + 1) (s := Scanner.ofText source.toList)
    (show Item.token t ∈ items source from h ▸ List.mem_map_of_mem ht)

end Scan

end LoopNest
