import LoopNest.Proofs.Spelling
import LoopNest.Proofs.TermExpressions

/-!
# The scanner as a lexer

Between brackets and on one line the scanner is a lexer whose state is the number of open brackets.
A text that the lexer reads to its end has the tokens that were read. Names and numbers spell
themselves, operators with blanks around them separate, and brackets enclose.
-/

namespace LoopNest.Scan

/-! ### Numbers -/

theorem takeWhile_append_stop {p : Char → Bool} {cs tail : List Char} (hcs : ∀ c ∈ cs, p c)
    (htail : ∀ c ∈ tail.head?, p c = false) : (cs ++ tail).takeWhile p = cs := by
  have hstop : tail.takeWhile p = [] := by
    cases tail with
    | nil => rfl
    | cons c tail => simp [htail c rfl]
  rw [List.takeWhile_append_of_pos hcs, hstop, List.append_nil]

/-- A text that no number and no name goes on with. -/
def endsNumber (c : Char) : Bool :=
  !(c.isDigit || c = '.' || c = 'e' || c = 'E' || continuesName c || startsName c)

theorem endsNumber_boundaries : ∀ c ∈ Lexer.boundaries, endsNumber c :=
  List.all_eq_true.mp (by decide)

theorem endsNumber_of_bounded {tail : List Char} (h : Lexer.Bounded tail) :
    ∀ c ∈ tail.head?, endsNumber c :=
  fun c hc => endsNumber_boundaries c (h c hc)

/-- What may follow the fraction of a number: no digit and no point. -/
def endsFraction (c : Char) : Bool :=
  !(c.isDigit || c = '.')

theorem endsFraction_of_endsNumber {c : Char} (h : endsNumber c) : endsFraction c := by
  simp_all [endsNumber, endsFraction]

theorem endsFraction_exponent {exponent tail : List Char} (he : IsExponent exponent)
    (htail : ∀ c ∈ tail.head?, endsNumber c) : ∀ c ∈ (exponent ++ tail).head?, endsFraction c := by
  cases he with
  | absent => exact fun c hc => endsFraction_of_endsNumber (htail c hc)
  | present head ds hhead =>
    obtain ⟨e, rfl | rfl, rfl | rfl | rfl⟩ := hhead <;> simp <;> decide

theorem fraction_append {point tail : List Char} (hp : IsFraction point)
    (htail : ∀ c ∈ tail.head?, endsFraction c) : fraction (point ++ tail) = point := by
  cases hp with
  | absent =>
    cases tail with
    | nil => rfl
    | cons c tail =>
      have hc : c ≠ '.' := by
        rintro rfl
        exact absurd (htail '.' rfl) (by decide)
      unfold fraction
      split
      · next heq =>
        cases heq
        exact absurd rfl hc
      · rfl
  | point ds h =>
    have hstart : startsWithDigit (ds ++ tail) := by
      obtain ⟨hne, hds⟩ := h
      cases ds with
      | nil => exact absurd rfl hne
      | cons d ds => exact hds d List.mem_cons_self
    have htake : (ds ++ tail).takeWhile Char.isDigit = ds := by
      refine takeWhile_append_stop h.2 fun c hc => ?_
      have := htail c hc
      simp_all [endsFraction]
    simp [fraction, hstart, htake]

theorem exponentHead_append {head ds tail : List Char} (hhead : IsExponentHead head)
    (hds : IsDigits ds) : exponentHead (head ++ (ds ++ tail)) = head := by
  obtain ⟨d, ds, rfl⟩ := List.exists_cons_of_ne_nil hds.1
  have hd : d.isDigit := hds.2 d List.mem_cons_self
  have hsign : d ≠ '+' ∧ d ≠ '-' := by
    constructor <;> rintro rfl <;> exact absurd hd (by decide)
  obtain ⟨e, he, rfl | rfl | rfl⟩ := hhead <;> simp [exponentHead, he, hsign]

theorem exponentHead_of_ends {tail : List Char} (htail : ∀ c ∈ tail.head?, endsNumber c) :
    exponentHead tail = [] := by
  cases tail with
  | nil => rfl
  | cons c tail =>
    have hc := htail c rfl
    simp_all [endsNumber, exponentHead]

/-- A number from its parts, which end where no name follows. -/
theorem number_eq {cs whole point head digits tail : List Char}
    (hwhole : cs.takeWhile Char.isDigit = whole) (hpoint : fraction (cs.drop whole.length) = point)
    (hhead : exponentHead (cs.drop (whole ++ point).length) = head)
    (hdigits : (cs.drop ((whole ++ point).length + head.length)).takeWhile Char.isDigit = digits)
    (hok : head ≠ [] → digits ≠ [])
    (htail : cs.drop (whole ++ point ++ if head.isEmpty then [] else head ++ digits).length = tail)
    (hfollow : ∀ c ∈ tail.head?, startsName c = false) :
    number cs =
      ⟨whole ++ point ++ if head.isEmpty then [] else head ++ digits,
        .ok (if point.isEmpty && head.isEmpty then .integer else .float)⟩ := by
  have hformed : ¬ (!head.isEmpty && digits.isEmpty) = true := by simpa using hok
  unfold number
  simp only [hwhole, hpoint, hhead, hdigits, if_neg hformed, htail]
  cases tail with
  | nil => rfl
  | cons c tail =>
    have hc : ¬ (Text.isIdentifierStart c || c = '_') = true := by
      simpa [startsName] using hfollow c rfl
    simp only [if_neg hc]

/-- A number is read up to where it ends. -/
theorem number_append {whole point exponent tail : List Char} (hw : ∀ c ∈ whole, c.isDigit)
    (hp : IsFraction point) (he : IsExponent exponent) (htail : ∀ c ∈ tail.head?, endsNumber c) :
    number (whole ++ (point ++ (exponent ++ tail))) =
      ⟨whole ++ point ++ exponent,
        .ok (if point.isEmpty && exponent.isEmpty then .integer else .float)⟩ := by
  have hexponent := endsFraction_exponent he htail
  have hstop : ∀ c ∈ (point ++ (exponent ++ tail)).head?, c.isDigit = false := by
    intro c hc
    cases hp with
    | absent =>
      have := hexponent c hc
      simp_all [endsFraction]
    | point ds =>
      cases hc
      decide
  have hends : ∀ c ∈ tail.head?, c.isDigit = false ∧ startsName c = false := by
    intro c hc
    have := htail c hc
    simp_all [endsNumber]
  have hwhole := takeWhile_append_stop hw hstop
  have hpoint : fraction ((whole ++ (point ++ (exponent ++ tail))).drop whole.length) = point := by
    rw [List.drop_left, fraction_append hp hexponent]
  have hmantissa : (whole ++ (point ++ (exponent ++ tail))).drop (whole ++ point).length =
      exponent ++ tail := by
    rw [← List.append_assoc, List.drop_left]
  have hrest : (whole ++ (point ++ (exponent ++ tail))).drop (whole ++ point ++ exponent).length =
      tail := by
    rw [← List.append_assoc, ← List.append_assoc, List.drop_left]
  cases he with
  | absent =>
    have hhead := (congrArg exponentHead hmantissa).trans (exponentHead_of_ends htail)
    exact number_eq hwhole hpoint hhead rfl (by simp) hrest fun c hc => (hends c hc).2
  | present head ds hhead hds =>
    have hne : head.isEmpty = false ∧ (head ++ ds).isEmpty = false := by
      obtain ⟨e, -, rfl | rfl | rfl⟩ := hhead <;> simp
    have hread : exponentHead (head ++ ds ++ tail) = head := by
      rw [List.append_assoc, exponentHead_append hhead hds]
    have hdigits : ((whole ++ (point ++ (head ++ ds ++ tail))).drop
        ((whole ++ point).length + head.length)).takeWhile Char.isDigit = ds := by
      rw [← List.drop_drop, hmantissa, List.append_assoc, List.drop_left]
      exact takeWhile_append_stop hds.2 fun c hc => (hends c hc).1
    have h := number_eq hwhole hpoint ((congrArg exponentHead hmantissa).trans hread) hdigits
      (fun _ => hds.1) (by simp [hne.1]) fun c hc => (hends c hc).2
    simpa [hne] using h

/-! ### The lexer -/

theorem gap_blank (depth : Nat) (cs : List Char) :
    gap depth false (' ' :: cs) = ' ' :: gap depth false cs := by
  rw [gap.eq_def]
  simp

/-- The characters that a gap begins with. -/
def gapStarts : List Char :=
  ['#', ' ', '\t', '\r', '\n', '\\']

theorem gap_eq_nil {c : Char} (h : c ∉ gapStarts) (depth : Nat) (cs : List Char) :
    gap depth false (c :: cs) = [] := by
  rw [gap.eq_def]
  simp_all [gapStarts]

/-- The scanner where no gap lies ahead. Its tokens are words. -/
def lexer : Lexer Nat Word where
  step depth cs :=
    if (gap depth false cs).isEmpty then
      match lexeme? depth cs with
      | some ⟨text, .ok kind⟩ =>
        some ((kind, String.ofList text), depthAfter depth kind, cs.drop text.length)
      | _ => none
    else none
  step_nil depth := by simp [lexeme?]
  step_blank depth cs := by simp [gap_blank]

theorem lexer_step_eq_some_iff {depth d : Nat} {cs cs₁ : List Char} {w : Word} :
    lexer.step depth cs = some (w, d, cs₁) ↔
      gap depth false cs = [] ∧ ∃ text, lexeme? depth cs = some ⟨text, .ok w.1⟩ ∧
        w.2 = String.ofList text ∧ d = depthAfter depth w.1 ∧ cs₁ = cs.drop text.length := by
  obtain ⟨kind, s⟩ := w
  unfold lexer
  dsimp only
  split
  · next hgap =>
    have hgap : gap depth false cs = [] := by simpa using hgap
    split
    · next text kind' hl =>
      simp only [hgap, hl, true_and, Option.some.injEq, Prod.mk.injEq, Lexeme.mk.injEq,
        Except.ok.injEq]
      constructor
      · rintro ⟨⟨rfl, rfl⟩, rfl, rfl⟩
        exact ⟨text, ⟨rfl, rfl⟩, rfl, rfl, rfl⟩
      · rintro ⟨text, ⟨rfl, rfl⟩, rfl, rfl, rfl⟩
        exact ⟨⟨rfl, rfl⟩, rfl, rfl⟩
    · next hl =>
      constructor
      · intro h
        cases h
      · rintro ⟨-, text, h, -⟩
        exact absurd h (hl text kind)
  · next hgap =>
    constructor
    · intro h
      cases h
    · rintro ⟨h, -⟩
      simp [h] at hgap

end LoopNest.Scan

namespace LoopNest.Scanner

open Scan (lexer)

theorem next_blank (cs : List Char) (place : Location) (depth : Nat) (finished : Bool) :
    next ⟨' ' :: cs, place, depth, finished⟩ =
      next ⟨cs, place.after [' '], depth, finished⟩ := by
  have hplace : place.after (' ' :: Scan.gap depth false cs) =
      (place.after [' ']).after (Scan.gap depth false cs) := by
    rw [← Location.after_append]
    rfl
  simp only [next, Scan.gap_blank, hplace, List.length_cons, List.drop_succ_cons]

/-- A word that the lexer reads is a token of the scanner. -/
theorem next_of_step {s : Scanner} {w : Word} {d : Nat} {cs : List Char}
    (h : lexer.step s.depth s.rest = some (w, d, cs)) :
    ∃ t s₁, s.next = (.token t, s₁) ∧ t.word = w ∧ t.isEnd = false ∧ s₁.rest = cs ∧
      s₁.depth = d ∧ cs.length < s.rest.length := by
  obtain ⟨hgap, text, hl, hw, rfl, rfl⟩ := Scan.lexer_step_eq_some_iff.mp h
  have hend := (Scan.spelled_of_lexeme? hl rfl).1
  have hpos := List.length_pos_iff.mpr (Scan.lexeme?_text_ne_nil hl)
  have hlen : (s.rest.drop text.length).length < s.rest.length := by
    have hrest : s.rest ≠ [] := by
      intro hnil
      rw [hnil] at hl
      cases hl
    have := List.length_pos_iff.mpr hrest
    simp only [List.length_drop] at hpos ⊢
    omega
  refine ⟨⟨w.1, ⟨s.place, s.place.after text⟩, String.ofList text⟩,
    ⟨s.rest.drop text.length, s.place.after text, Scan.depthAfter s.depth w.1, s.finished⟩,
    ?_, by rw [Token.word, ← hw], by simp [Token.isEnd, hend], rfl, rfl, hlen⟩
  simp [next, hgap, hl]

theorem run_token {n : Nat} {s s₁ : Scanner} {t : Token} (h : s.next = (.token t, s₁))
    (ht : t.isEnd = false) : (s.run (n + 1)).1 = .token t :: (s₁.run n).1 := by
  have hend : (Scan.Item.token t).isEnd = false := ht
  simp [run, h, hend]

/-- A text that the lexer reads to its end has the words that were read. -/
theorem run_of_reads {n : Nat} {s : Scanner} {ws : List Word} {d : Nat}
    (h : lexer.Reads s.depth s.rest ws d []) (hn : s.rest.length < n) :
    ∃ ts stop, (s.run n).1 = (ts ++ [stop]).map .token ∧ stop.isEnd ∧ ts.map Token.word = ws := by
  generalize hdepth : s.depth = d₀ at h
  generalize hrest : s.rest = cs at h
  generalize hend : ([] : List Char) = tail at h
  induction h generalizing s n with
  | done depth cs =>
    subst hend
    obtain ⟨n, rfl⟩ := Nat.exists_eq_succ_of_ne_zero (Nat.ne_of_gt (Nat.zero_lt_of_lt hn))
    refine ⟨[], ⟨.endOfInput, ⟨s.place, s.place⟩, ""⟩, ?_, rfl, rfl⟩
    simp [run, next, hrest, Scan.gap, Scan.lexeme?, Scan.Item.isEnd, Token.isEnd]
  | @blank depth d cs tail ws _ ih =>
    obtain ⟨n, rfl⟩ := Nat.exists_eq_succ_of_ne_zero (Nat.ne_of_gt (Nat.zero_lt_of_lt hn))
    have hnext : s.next = next ⟨cs, s.place.after [' '], s.depth, s.finished⟩ := by
      rw [← next_blank, ← hrest]
    have hrun : s.run (n + 1) = run (n + 1) ⟨cs, s.place.after [' '], s.depth, s.finished⟩ := by
      rw [run, run, hnext]
    rw [hrun]
    refine ih ?_ hdepth rfl hend
    rw [hrest] at hn
    exact Nat.lt_of_succ_lt hn
  | token head _ ih =>
    obtain ⟨n, rfl⟩ := Nat.exists_eq_succ_of_ne_zero (Nat.ne_of_gt (Nat.zero_lt_of_lt hn))
    rw [← hdepth, ← hrest] at head
    obtain ⟨t, s₁, hnext, rfl, ht, hrest₁, hdepth₁, hlen⟩ := next_of_step head
    obtain ⟨ts, stop, hrun, hstop, rfl⟩ := ih (s := s₁) (n := n) (by rw [hrest₁]; omega)
      hdepth₁ hrest₁ hend
    exact ⟨t :: ts, stop, by rw [run_token hnext ht, hrun]; rfl, hstop, rfl⟩

end LoopNest.Scanner

namespace LoopNest.Scan

theorem tokens_of_reads {source : String} {ws : List Word} {d : Nat}
    (h : lexer.Reads 0 source.toList ws d []) :
    ∃ ts stop, tokens source = .ok (ts ++ [stop]) ∧ stop.isEnd ∧ ts.map Token.word = ws := by
  obtain ⟨ts, stop, hrun, hstop, hws⟩ := Scanner.run_of_reads (s := Scanner.ofText source.toList) h
    (Nat.lt_succ_self _)
  exact ⟨ts, stop, tokensOf_eq_ok_iff.mpr hrun, hstop, hws⟩

/-! ### Spelled texts -/

/-- The characters that gaps and fixed spellings begin with. -/
def reserved : List Char :=
  gapStarts ++ spellings.filterMap fun s => s.1.head?

theorem spelling?_eq_none {c : Char} (h : c ∉ reserved) (cs : List Char) :
    spelling? (c :: cs) = none := by
  unfold spelling?
  rw [List.find?_eq_none]
  intro s hs hpre
  have hne := spellings_ne_nil s hs
  obtain ⟨text, kind⟩ := s
  cases text with
  | nil => exact hne rfl
  | cons d ds =>
    have heq : d = c ∧ ds.isPrefixOf cs := by simpa [List.isPrefixOf] using hpre
    obtain rfl := heq.1
    exact h (List.mem_append_right _ (List.mem_filterMap.mpr ⟨_, hs, rfl⟩))

theorem startsName_reserved : ∀ c ∈ '.' :: reserved, startsName c = false := by
  have hall : ('.' :: reserved).all (fun c => !startsName c) := by decide
  simpa using List.all_eq_true.mp hall

theorem isDigit_reserved : ∀ c ∈ reserved, c.isDigit = false := by
  have hall : reserved.all (fun c => !c.isDigit) := by decide
  simpa using List.all_eq_true.mp hall

theorem toNat_of_isDigit {c : Char} (h : c.isDigit) : 48 ≤ c.toNat ∧ c.toNat ≤ 57 := by
  simpa [Char.isDigit, UInt32.le_iff_toNat_le] using h

theorem isAscii_of_isDigit {c : Char} (h : c.isDigit) : Text.isAscii c := by
  have := (toNat_of_isDigit h).2
  simp only [Text.isAscii, decide_eq_true_eq]
  omega

theorem not_isDigit_of_startsName {c : Char} (h : startsName c) : c.isDigit = false := by
  by_contra hd
  have hdigit : c.isDigit = true := by simpa using hd
  have hunder : c ≠ '_' := by
    rintro rfl
    exact absurd hdigit (by decide)
  have halpha : c.isAlpha = false := by
    have hval : c.val.toNat ≤ 57 := (toNat_of_isDigit hdigit).2
    have hupper : ¬ c.val ≥ 'A'.val := fun hlow => absurd (Nat.le_trans hlow hval) (by decide)
    have hlower : ¬ c.val ≥ 'a'.val := fun hlow => absurd (Nat.le_trans hlow hval) (by decide)
    change (decide (c.val ≥ 'A'.val ∧ c.val ≤ 'Z'.val) ||
      (decide (c.val ≥ 'a'.val) && decide (c.val ≤ 'z'.val))) = false
    rw [decide_eq_false fun h => hupper h.1, decide_eq_false hlower]
    rfl
  simp [startsName, Text.isIdentifierStart, isAscii_of_isDigit hdigit, halpha, hunder] at h

theorem not_decomposing_of_otherStarts {c : Char} (h : Text.otherStarts.contains c) :
    Text.decomposingLetters.contains c = false := by
  simp [Text.otherStarts, Text.decomposingLetters, Text.Ranges.contains] at h ⊢
  omega

theorem continuesName_of_startsName {c : Char} (h : startsName c) : continuesName c := by
  simp only [startsName, continuesName, Text.isIdentifierStart, Text.isIdentifierContinue,
    Bool.or_eq_true] at h ⊢
  refine h.imp_left fun h => ?_
  split at h
  · simp_all [Text.isAsciiAlphanumeric]
  · rw [if_neg ‹_›]
    simp only [Bool.or_eq_true, Bool.and_eq_true] at h ⊢
    rcases h with h | h
    · simp_all
    · simp [h, not_decomposing_of_otherStarts h]

theorem IsName.continues {text : String} (h : IsName text) : ∀ c ∈ text.toList, continuesName c := by
  obtain ⟨c, cs, htext, hc, hcs, -⟩ := h
  rw [htext]
  exact List.forall_mem_cons.mpr ⟨continuesName_of_startsName hc, hcs⟩

/-- What a name begins with is read as a name or a keyword. -/
theorem lexeme?_word {c : Char} (hc : startsName c) (cs : List Char) (depth : Nat) :
    lexeme? depth (c :: cs) = some (identifier c cs) := by
  have hreserved : c ∉ '.' :: reserved := by
    intro hmem
    simp [startsName_reserved c hmem] at hc
  simp only [List.mem_cons, not_or] at hreserved
  have hstart : (Text.isIdentifierStart c || decide (c = '_')) = true := hc
  simp only [lexeme?, spelling?_eq_none hreserved.2, not_isDigit_of_startsName hc, hreserved.1,
    decide_false, Bool.false_and, Bool.or_self, Bool.false_eq_true, if_false, hstart, if_true]

/-- A word is read up to where no name goes on. -/
theorem identifier_append {c : Char} {cs tail : List Char} (hcs : ∀ d ∈ cs, continuesName d)
    (htail : ∀ d ∈ tail.head?, continuesName d = false) :
    identifier c (cs ++ tail) =
      ⟨c :: cs, .ok ((Token.Kind.keyword? (String.ofList (c :: cs))).getD .identifier)⟩ := by
  change Lexeme.mk (c :: (cs ++ tail).takeWhile continuesName)
    (.ok ((Token.Kind.keyword? (String.ofList (c :: (cs ++ tail).takeWhile continuesName))).getD
      .identifier)) = _
  rw [takeWhile_append_stop hcs htail]

/-- A name is taken off a text that goes on with a boundary. -/
theorem lexeme?_name {c : Char} {cs tail : List Char} (hc : startsName c)
    (hcs : ∀ d ∈ cs, continuesName d)
    (hkeyword : Token.Kind.keyword? (String.ofList (c :: cs)) = none)
    (htail : Lexer.Bounded tail) (depth : Nat) :
    lexeme? depth (c :: (cs ++ tail)) = some ⟨c :: cs, .ok .identifier⟩ := by
  have hstop : ∀ d ∈ tail.head?, continuesName d = false := by
    intro d hd
    have := endsNumber_of_bounded htail d hd
    simp_all [endsNumber]
  rw [lexeme?_word hc, identifier_append hcs hstop, hkeyword]
  rfl

theorem spells_name {text : String} (h : IsName text) :
    lexer.Spells text [(.identifier, text)] := by
  obtain ⟨c, cs, htext, hc, hcs, hkeyword⟩ := h
  intro depth tail htail
  have hreserved : c ∉ gapStarts := by
    intro hmem
    simp [startsName_reserved c (List.mem_cons_of_mem _ (List.mem_append_left _ hmem))] at hc
  have hlist : text = String.ofList (c :: cs) := by rw [← htext, String.ofList_toList]
  refine .token (lexer_step_eq_some_iff.mpr ⟨?_, c :: cs, ?_, hlist, rfl, rfl⟩) ?_
  · rw [htext]
    exact gap_eq_nil hreserved depth _
  · rw [htext]
    exact lexeme?_name hc hcs (hlist ▸ hkeyword) htail depth
  · rw [htext, List.drop_left]
    exact .done depth tail

theorem lexeme?_numeral {cs : List Char} {c : Char}
    (h : c.isDigit || (c = '.' && startsWithDigit cs)) (depth : Nat) :
    gap depth false (c :: cs) = [] ∧ lexeme? depth (c :: cs) = some (number (c :: cs)) := by
  have hreserved : c ∉ reserved := by
    intro hmem
    have hdot : c ≠ '.' := by
      rintro rfl
      exact absurd hmem (by decide)
    simp [isDigit_reserved c hmem, hdot] at h
  refine ⟨gap_eq_nil (fun hmem => hreserved (List.mem_append_left _ hmem)) depth cs, ?_⟩
  simp only [lexeme?, spelling?_eq_none hreserved, h, if_true]

/-- A number begins with a digit, or with a point and a digit. -/
theorem IsNumeral.begins {text : String} (h : IsNumeral text) :
    ∃ c cs, text.toList = c :: cs ∧
      ∀ tail, (c.isDigit || (c = '.' && startsWithDigit (cs ++ tail))) = true := by
  obtain ⟨whole, point, exponent, htext, hw, hp, -, hne⟩ := h
  cases whole with
  | cons c whole =>
    exact ⟨c, whole ++ (point ++ exponent), htext, fun tail => by
      simp [hw c List.mem_cons_self]⟩
  | nil =>
    cases hp with
    | absent => exact absurd rfl hne
    | point ds hds =>
      obtain ⟨d, ds, rfl⟩ := List.exists_cons_of_ne_nil hds.1
      exact ⟨'.', d :: ds ++ exponent, htext, fun tail => by
        simp [startsWithDigit, hds.2 d List.mem_cons_self]⟩

theorem spells_numeral {text : String} (h : IsNumeral text) :
    ∃ kind, (kind = .integer ∨ kind = .float) ∧ lexer.Spells text [(kind, text)] := by
  obtain ⟨c, cs, hcs, hbegins⟩ := h.begins
  obtain ⟨whole, point, exponent, htext, hw, hp, he, -⟩ := h
  refine ⟨if point.isEmpty && exponent.isEmpty then .integer else .float, by split <;> simp, ?_⟩
  intro depth tail htail
  obtain ⟨hgap, hl⟩ := lexeme?_numeral (hbegins tail) depth
  rw [← List.cons_append, ← hcs, htext] at hgap hl
  have hnumber := number_append hw hp he (endsNumber_of_bounded htail)
  simp only [List.append_assoc] at hl hgap hnumber
  rw [hnumber] at hl
  have hlist : text = String.ofList (whole ++ (point ++ exponent)) := by
    rw [← htext, String.ofList_toList]
  refine .token (lexer_step_eq_some_iff.mpr
    ⟨?_, whole ++ (point ++ exponent), ?_, hlist, rfl, rfl⟩) ?_
  · rw [htext]
    simpa using hgap
  · rw [htext]
    simpa using hl
  · rw [htext, List.drop_left]
    have hdepth :
        depthAfter depth (if point.isEmpty && exponent.isEmpty then .integer else .float) =
          depth := by
      split <;> rfl
    rw [hdepth]
    exact .done depth tail

theorem lexer_step_symbol {depth : Nat} {c : Char} {tail : List Char} {kind : Token.Kind}
    (cs : List Char) (hc : c ∉ gapStarts)
    (hs : spelling? (c :: (cs ++ tail)) = some (c :: cs, kind))
    (hb : balanced depth kind = .ok kind) :
    lexer.step depth (c :: (cs ++ tail)) =
      some ((kind, String.ofList (c :: cs)), depthAfter depth kind, tail) := by
  refine lexer_step_eq_some_iff.mpr ⟨gap_eq_nil hc depth _, c :: cs, ?_, rfl, rfl, ?_⟩
  · simp only [lexeme?, hs, hb]
  · rw [← List.cons_append, List.drop_left]

/-- A number with a sign is read as a sign and a number. -/
theorem spells_negative {text : String} (h : IsNumeral text) :
    ∃ kind, (kind = .integer ∨ kind = .float) ∧
      lexer.Spells ("-" ++ text) [(.binary .sub, "-"), (kind, text)] := by
  obtain ⟨kind, hkind, hspells⟩ := spells_numeral h
  obtain ⟨c, cs, hcs, hbegins⟩ := h.begins
  refine ⟨kind, hkind, fun depth tail htail => ?_⟩
  have hc : ('=' == c) = false := by
    have hne : c ≠ '=' := by
      rintro rfl
      exact absurd (hbegins []) (by simp)
    simpa using hne.symm
  have hsign : spelling? ('-' :: (text.toList ++ tail)) = some (['-'], .binary .sub) := by
    rw [hcs]
    simp [spelling?, spellings, List.isPrefixOf, hc]
  rw [String.toList_append, List.append_assoc]
  exact .token (lexer_step_symbol [] (by decide) hsign rfl) (hspells depth tail htail)

/-- A symbol that no longer one begins with is taken off a text that goes on with a blank. -/
theorem separates_of_step {symbol : String} {w : Word}
    (h : ∀ depth tail, lexer.step depth (symbol.toList ++ ' ' :: tail) =
      some (w, depth, ' ' :: tail)) : lexer.Separates (" " ++ symbol ++ " ") w where
  bounded tail := by
    rw [String.toList_append, String.toList_append, List.append_assoc, List.append_assoc]
    exact Lexer.bounded_cons (by decide) _
  reads depth tail := by
    rw [String.toList_append, String.toList_append, List.append_assoc, List.append_assoc]
    exact .blank (.token (h depth tail) (.blank (.done depth tail)))

theorem separates_arith (op : ArithOp) :
    lexer.Separates (" " ++ op.symbol ++ " ") (.binary op.binary, op.symbol) := by
  cases op <;> exact separates_of_step fun depth tail => rfl

theorem separates_compare (op : CompareOp) :
    lexer.Separates (" " ++ op.symbol ++ " ") (.compare op, op.symbol) := by
  cases op <;> exact separates_of_step fun depth tail => rfl

theorem separates_conjunction : lexer.Separates (" " ++ "&&" ++ " ") (.ampAmp, "&&") :=
  separates_of_step fun _ _ => rfl

theorem separates_equal : lexer.Separates (" " ++ "=" ++ " ") (.equal, "=") :=
  separates_of_step fun _ _ => rfl

theorem separates_colon : lexer.Separates (" " ++ ":" ++ " ") (.colon, ":") :=
  separates_of_step fun _ _ => rfl

theorem separates_comma : lexer.Separates ", " (.comma, ",") where
  bounded tail := Lexer.bounded_cons (by decide) _
  reads depth tail :=
    .token (show lexer.step depth (',' :: ' ' :: tail) = some (_, depth, ' ' :: tail) from rfl)
      (.blank (.done depth tail))

theorem reads_left (b : Bracket) (depth : Nat) (tail : List Char) :
    lexer.Reads depth (b.leftSymbol.toList ++ tail) [(.left b, b.leftSymbol)] (depth + 1) tail := by
  have hstep : lexer.step depth (b.leftSymbol.toList ++ tail) =
      some ((.left b, b.leftSymbol), depth + 1, tail) := by
    cases b <;> exact lexer_step_symbol [] (by decide) (by cases tail <;> rfl) rfl
  exact .token hstep (.done _ tail)

theorem reads_right (b : Bracket) (depth : Nat) (tail : List Char) :
    lexer.Reads (depth + 1) (b.rightSymbol.toList ++ tail) [(.right b, b.rightSymbol)] depth
      tail := by
  have hstep : lexer.step (depth + 1) (b.rightSymbol.toList ++ tail) =
      some ((.right b, b.rightSymbol), depth, tail) := by
    cases b <;> exact lexer_step_symbol [] (by decide) (by cases tail <;> rfl) rfl
  exact .token hstep (.done _ tail)

theorem encloses (b : Bracket) :
    lexer.Encloses b.leftSymbol b.rightSymbol (.left b, b.leftSymbol)
      (.right b, b.rightSymbol) where
  bounded tail := by
    cases b <;> exact ⟨Lexer.bounded_cons (by decide) _, Lexer.bounded_cons (by decide) _⟩
  reads depth := ⟨depth + 1, reads_left b depth, reads_right b depth⟩

end LoopNest.Scan
