import LoopNest.Proofs.ScanLexer
import LoopNest.Proofs.ScanTiling

/-!
# Tokens as longest lexemes

The lexemes of the language are symbols and keywords, which have one spelling each, names, and
numbers. What a text begins with tells these apart, and of those that it begins with the scanner takes
the longest. So a token does not depend on how the scanner got to it, and neither does its kind, since
no lexeme has two.
-/

namespace LoopNest

/-- The spelling of a kind that has only one. -/
def Token.Kind.symbol? : Token.Kind → Option String
  | .integer | .float | .identifier | .endOfInput => none
  | .and => some "and"
  | .or => some "or"
  | .not => some "not"
  | .binary op => some op.symbol
  | .augmented op => some (op.symbol ++ "=")
  | .compare op => some op.symbol
  | .left b => some b.leftSymbol
  | .right b => some b.rightSymbol
  | .tilde => some "~"
  | .ampAmp => some "&&"
  | .pipePipe => some "||"
  | .bang => some "!"
  | .equal => some "="
  | .comma => some ","
  | .colon => some ":"
  | .semicolon => some ";"
  | .newline => some "\n"

namespace Scan

/-- The lexemes of the language and what they are. -/
inductive IsLexeme : Token.Kind → String → Prop where
  | symbol {kind : Token.Kind} {text : String} (h : kind.symbol? = some text) : IsLexeme kind text
  | name {text : String} (h : IsName text) : IsLexeme .identifier text
  | number {whole point exponent : List Char} (hw : ∀ c ∈ whole, c.isDigit) (hp : IsFraction point)
      (he : IsExponent exponent) (hne : whole ++ point ≠ []) :
      IsLexeme (numberKind point exponent) (String.ofList (whole ++ (point ++ exponent)))

/-! ### Symbols -/

theorem mem_spellings_of_symbol? {kind : Token.Kind} {text : String}
    (h : kind.symbol? = some text) :
    (text.toList, kind) ∈ spellings ∨ Token.Kind.keyword? text = some kind := by
  cases kind with
  | binary op | augmented op | compare op =>
    cases h
    cases op <;> exact .inl (by decide)
  | left b | right b =>
    cases h
    cases b <;> exact .inl (by decide)
  | and | or | not =>
    cases h
    exact .inr (by decide)
  | integer | float | identifier | endOfInput => cases h
  | _ =>
    cases h
    exact .inl (by decide)

theorem symbol?_of_mem_spellings : ∀ s ∈ spellings, s.2.symbol? = some (String.ofList s.1) := by
  decide

/-- The longer spellings come first, so the first one that fits is the longest. -/
theorem length_le_spelling {cs text : List Char} {kind : Token.Kind} (h : (text, kind) ∈ spellings)
    (hcs : text <+: cs) : ∃ s, spelling? cs = some s ∧ text.length ≤ s.1.length := by
  have hfits : (spellings.find? fun s => s.1.isPrefixOf cs).isSome := by
    rw [List.find?_isSome]
    exact ⟨_, h, List.isPrefixOf_iff_prefix.mpr hcs⟩
  obtain ⟨s, hs⟩ := Option.isSome_iff_exists.mp hfits
  obtain ⟨-, before, behind, hsplit, hbefore⟩ := List.find?_eq_some_iff_append.mp hs
  have hsorted : spellings.Pairwise fun a b => b.1.length ≤ a.1.length := by decide
  rw [hsplit, List.pairwise_append, List.pairwise_cons] at hsorted
  rw [hsplit, List.mem_append, List.mem_cons] at h
  refine ⟨s, hs, ?_⟩
  rcases h with h | rfl | h
  · have hnot := hbefore _ h
    rw [List.isPrefixOf_iff_prefix.mpr hcs] at hnot
    cases hnot
  · exact Nat.le_refl _
  · exact hsorted.2.1.1 _ h

theorem lexeme?_of_spelling? {cs text : List Char} {kind : Token.Kind}
    (h : spelling? cs = some (text, kind)) (depth : Nat) :
    lexeme? depth cs = some ⟨text, balanced depth kind⟩ := by
  cases cs with
  | nil =>
    obtain ⟨hmem, hnil⟩ := spelling?_eq_some h
    exact absurd (List.prefix_nil.mp hnil) (spellings_ne_nil _ hmem)
  | cons c cs => simp only [lexeme?, h]

/-! ### Words -/

/-- The spelling of a name or a keyword. -/
def NameShaped (cs : List Char) : Prop :=
  ∃ c ds, cs = c :: ds ∧ startsName c ∧ ∀ d ∈ ds, continuesName d

/-- The keywords and their kinds. -/
def keywordKinds : List (String × Token.Kind) :=
  [("and", .and), ("or", .or), ("not", .not)]

theorem mem_keywordKinds_of_keyword? {text : String} {kind : Token.Kind}
    (h : Token.Kind.keyword? text = some kind) : (text, kind) ∈ keywordKinds := by
  unfold Token.Kind.keyword? at h
  repeat' split at h
  all_goals simp_all [keywordKinds]

theorem symbol?_of_mem_keywordKinds : ∀ w ∈ keywordKinds, w.2.symbol? = some w.1 := by
  decide

theorem nameShaped_of_mem_keywordKinds : ∀ w ∈ keywordKinds, NameShaped w.1.toList := by
  simp only [keywordKinds, List.forall_mem_cons, List.not_mem_nil, false_imp_iff, implies_true,
    and_true]
  exact ⟨⟨'a', ['n', 'd'], rfl, by decide, List.all_eq_true.mp (by decide)⟩,
    ⟨'o', ['r'], rfl, by decide, List.all_eq_true.mp (by decide)⟩,
    ⟨'n', ['o', 't'], rfl, by decide, List.all_eq_true.mp (by decide)⟩⟩

/-- What a word is. -/
def wordKind (text : String) : Token.Kind :=
  (Token.Kind.keyword? text).getD .identifier

theorem balanced_wordKind (depth : Nat) (text : String) :
    balanced depth (wordKind text) = .ok (wordKind text) := by
  have hall : ∀ w ∈ keywordKinds, balanced depth w.2 = .ok w.2 := by simp [keywordKinds, balanced]
  unfold wordKind
  cases hkeyword : Token.Kind.keyword? text with
  | none => rfl
  | some kind => exact hall _ (mem_keywordKinds_of_keyword? hkeyword)

/-! ### Classes of lexemes -/

/-- A lexeme is a symbol, a word or a number. -/
theorem IsLexeme.cases {kind : Token.Kind} {text : String} (h : IsLexeme kind text) :
    (text.toList, kind) ∈ spellings ∨ (NameShaped text.toList ∧ kind = wordKind text) ∨
      ∃ whole point exponent, text.toList = whole ++ (point ++ exponent) ∧
        (∀ c ∈ whole, c.isDigit) ∧ IsFraction point ∧ IsExponent exponent ∧
        whole ++ point ≠ [] ∧ kind = numberKind point exponent := by
  cases h with
  | symbol h =>
    rcases mem_spellings_of_symbol? h with hmem | hkeyword
    · exact .inl hmem
    · have hmem := mem_keywordKinds_of_keyword? hkeyword
      refine .inr (.inl ⟨nameShaped_of_mem_keywordKinds _ hmem, ?_⟩)
      rw [wordKind, hkeyword]
      rfl
  | name h =>
    obtain ⟨c, cs, htext, hc, hcs, hkeyword⟩ := h
    refine .inr (.inl ⟨⟨c, cs, htext, hc, hcs⟩, ?_⟩)
    rw [wordKind, hkeyword]
    rfl
  | number hw hp he hne =>
    exact .inr (.inr ⟨_, _, _, String.toList_ofList, hw, hp, he, hne, rfl⟩)

theorem isLexeme_of_nameShaped {cs : List Char} (h : NameShaped cs) :
    IsLexeme (wordKind (String.ofList cs)) (String.ofList cs) := by
  obtain ⟨c, ds, rfl, hc, hds⟩ := h
  unfold wordKind
  cases hkeyword : Token.Kind.keyword? (String.ofList (c :: ds)) with
  | some kind =>
    exact .symbol (symbol?_of_mem_keywordKinds _ (mem_keywordKinds_of_keyword? hkeyword))
  | none => exact .name ⟨c, ds, String.toList_ofList, hc, hds, hkeyword⟩

/-- What the scanner takes without a fault is a lexeme. -/
theorem isLexeme_of_lexeme? {depth : Nat} {cs text : List Char} {kind : Token.Kind}
    (h : lexeme? depth cs = some ⟨text, .ok kind⟩) : IsLexeme kind (String.ofList text) := by
  rcases lexeme?_cases h with ⟨kind', hmem, hout⟩ | ⟨hne, hnumber⟩ | ⟨c, rest, hc, hword⟩ |
    ⟨c, -, -, hfault⟩
  · cases eq_of_balanced hout.symm
    exact .symbol (symbol?_of_mem_spellings _ hmem)
  · obtain ⟨htext, hexponent, hkind⟩ := number_of_ok (congrArg Lexeme.outcome hnumber).symm
    rw [← congrArg Lexeme.text hnumber, mantissa, List.append_assoc] at htext
    have hdigits : ∀ c ∈ cs.takeWhile Char.isDigit, c.isDigit :=
      fun c hc => List.mem_takeWhile_imp hc
    rw [hkind, show text = _ from htext]
    exact .number hdigits (isFraction_fraction _) hexponent hne
  · cases hword
    exact isLexeme_of_nameShaped ⟨c, _, rfl, hc, fun d hd => List.mem_takeWhile_imp hd⟩
  · cases hfault

/-! ### The longest lexeme -/

theorem length_le_takeWhile {p : Char → Bool} {cs : List Char} (h : ∀ c ∈ cs, p c)
    (tail : List Char) : cs.length ≤ ((cs ++ tail).takeWhile p).length := by
  rw [List.takeWhile_append_of_pos h, List.length_append]
  exact Nat.le_add_right ..

theorem length_le_mantissa {whole point : List Char} (hw : ∀ c ∈ whole, c.isDigit)
    (hp : IsFraction point) (tail : List Char) :
    (whole ++ point).length ≤ (mantissa (whole ++ (point ++ tail))).length := by
  cases hp with
  | absent =>
    have hle := length_le_takeWhile hw tail
    simp only [mantissa, List.append_nil, List.nil_append, List.length_append]
    omega
  | point ds h =>
    have hstop : ∀ c ∈ ('.' :: ds ++ tail).head?, c.isDigit = false := by
      intro c hc
      cases hc
      decide
    have hstart : startsWithDigit (ds ++ tail) := by
      obtain ⟨d, ds, rfl⟩ := List.exists_cons_of_ne_nil h.1
      exact h.2 d List.mem_cons_self
    have hle := length_le_takeWhile h.2 tail
    simp only [mantissa, takeWhile_append_stop hw hstop, List.drop_left]
    simp only [List.cons_append, fraction, hstart, if_true, List.length_append, List.length_cons]
    omega

theorem mantissa_append {whole point tail : List Char} (hw : ∀ c ∈ whole, c.isDigit)
    (hp : IsFraction point) (htail : ∀ c ∈ tail.head?, endsFraction c) :
    mantissa (whole ++ (point ++ tail)) = whole ++ point := by
  have hstop : ∀ c ∈ (point ++ tail).head?, c.isDigit = false := by
    intro c hc
    cases hp with
    | absent =>
      have hends := htail c hc
      simp_all [endsFraction]
    | point ds =>
      cases hc
      decide
  simp only [mantissa, takeWhile_append_stop hw hstop, List.drop_left, fraction_append hp htail]

/-- No number that a text begins with is longer than the one that the scanner takes. -/
theorem length_le_number {whole point exponent tail : List Char} {kind : Token.Kind}
    (hw : ∀ c ∈ whole, c.isDigit) (hp : IsFraction point) (he : IsExponent exponent)
    (h : (number (whole ++ (point ++ (exponent ++ tail)))).outcome = .ok kind) :
    (whole ++ (point ++ exponent)).length ≤
      (number (whole ++ (point ++ (exponent ++ tail)))).text.length := by
  rw [(number_of_ok h).1]
  clear h
  cases he with
  | absent =>
    have hle := length_le_mantissa hw hp tail
    simp only [List.append_nil, List.nil_append, List.length_append] at hle ⊢
    omega
  | present head ds hhead hds =>
    -- An exponent ends the digits before it, so the mantissa is the one that was given.
    have hnext : ∀ c ∈ (head ++ ds ++ tail).head?, endsFraction c := by
      obtain ⟨e, rfl | rfl, rfl | rfl | rfl⟩ := hhead <;> simp <;> decide
    have hrest : (whole ++ (point ++ (head ++ ds ++ tail))).drop (whole ++ point).length =
        head ++ (ds ++ tail) := by
      rw [← List.append_assoc, List.drop_left, List.append_assoc]
    have hne : head.isEmpty = false := by
      obtain ⟨e, -, rfl | rfl | rfl⟩ := hhead <;> rfl
    have hle := length_le_takeWhile hds.2 tail
    rw [mantissa_append hw hp hnext, hrest, Scan.exponent, exponentHead_append hhead hds]
    simp only [hne, Bool.false_eq_true, if_false, List.drop_left, List.length_append]
    omega

theorem lexeme?_of_isNumeral {text : String} (h : IsNumeral text) (tail : List Char) (depth : Nat) :
    lexeme? depth (text.toList ++ tail) = some (number (text.toList ++ tail)) := by
  obtain ⟨c, cs, htext, hbegins⟩ := h.begins
  rw [htext]
  exact (lexeme?_numeral (hbegins tail) depth).2

/-- No lexeme that a text begins with is longer than the one that the scanner takes. -/
theorem IsLexeme.length_le {depth : Nat} {cs text : List Char} {kind other : Token.Kind}
    {lexeme : String} (h : IsLexeme other lexeme) (hcs : lexeme.toList <+: cs)
    (htaken : lexeme? depth cs = some ⟨text, .ok kind⟩) : lexeme.toList.length ≤ text.length := by
  rcases h.cases with hmem | ⟨⟨c, ds, hword, hc, hds⟩, -⟩ |
    ⟨whole, point, exponent, hnumber, hw, hp, he, hne, -⟩
  · obtain ⟨s, hs, hle⟩ := length_le_spelling hmem hcs
    rw [lexeme?_of_spelling? hs, Option.some.injEq] at htaken
    have htext : s.1 = text := congrArg Lexeme.text htaken
    rwa [htext] at hle
  · obtain ⟨tail, rfl⟩ := hcs
    rw [hword, List.cons_append, lexeme?_word hc] at htaken
    cases htaken
    rw [hword]
    exact Nat.succ_le_succ (length_le_takeWhile hds tail)
  · obtain ⟨tail, rfl⟩ := hcs
    have hnumeral : IsNumeral lexeme := ⟨whole, point, exponent, hnumber, hw, hp, he, hne⟩
    rw [lexeme?_of_isNumeral hnumeral, Option.some.injEq, hnumber, List.append_assoc,
      List.append_assoc] at htaken
    have hle := length_le_number hw hp he (congrArg Lexeme.outcome htaken)
    rwa [htaken, ← hnumber] at hle

/-! ### Lexemes before a blank -/

theorem spelling?_before_blank (cs tail : List Char) :
    spelling? (cs ++ ' ' :: tail) = spelling? cs := by
  have hblank : ∀ s ∈ spellings, ' ' ∉ s.1 := by decide
  unfold spelling?
  refine List.find?_congr fun s hs => Bool.eq_iff_iff.mpr ?_
  rw [List.isPrefixOf_iff_prefix, List.isPrefixOf_iff_prefix]
  exact prefix_before_iff _ tail (hblank s hs)

/-- A lexeme is taken off a text that goes on with a blank. -/
theorem IsLexeme.before_blank {kind : Token.Kind} {text : String} (h : IsLexeme kind text)
    (depth : Nat) (tail : List Char) :
    lexeme? depth (text.toList ++ ' ' :: tail) = some ⟨text.toList, balanced depth kind⟩ := by
  rcases h.cases with hmem | ⟨⟨c, ds, hword, hc, hds⟩, rfl⟩ |
    ⟨whole, point, exponent, hnumber, hw, hp, he, hne, rfl⟩
  · have hself : ∀ s ∈ spellings, spelling? s.1 = some s := by decide
    exact lexeme?_of_spelling? ((spelling?_before_blank _ tail).trans (hself _ hmem)) depth
  · have hlist : String.ofList (c :: ds) = text := by rw [← hword, String.ofList_toList]
    have hstop : ∀ d ∈ (' ' :: tail).head?, continuesName d = false := by
      intro d hd
      cases hd
      decide
    rw [balanced_wordKind, hword, List.cons_append, lexeme?_word hc, identifier_append hds hstop,
      hlist]
    rfl
  · have hnumeral : IsNumeral text := ⟨whole, point, exponent, hnumber, hw, hp, he, hne⟩
    have hends : ∀ c ∈ (' ' :: tail).head?, endsNumber c := by
      intro c hc
      cases hc
      decide
    have hkind : balanced depth (numberKind point exponent) = .ok (numberKind point exponent) := by
      unfold numberKind
      split <;> rfl
    rw [lexeme?_of_isNumeral hnumeral, hnumber, List.append_assoc, List.append_assoc,
      number_append hw hp he hends, List.append_assoc, hkind]
    rfl

/-- A lexeme is of one kind only. -/
theorem IsLexeme.kind_unique {kind other : Token.Kind} {text : String} (h : IsLexeme kind text)
    (h' : IsLexeme other text) : other = kind := by
  have heq := (h'.before_blank 1 []).symm.trans (h.before_blank 1 [])
  have hopen : ∀ k, balanced 1 k = .ok k := by
    intro k
    cases k <;> rfl
  rw [hopen, hopen] at heq
  cases heq
  rfl

/-! ### Gaps -/

theorem gap_drop_gap (depth : Nat) (comment : Bool) (cs : List Char) :
    gap depth false (cs.drop (gap depth comment cs).length) = [] := by
  fun_induction gap depth comment cs with
  | case1 => rfl
  | case7 comment cs hline =>
    rw [List.length_nil, List.drop_zero, gap.eq_def]
    simp_all
  | case8 comment c cs h₁ h₂ h₃ h₄ h₅ =>
    rw [List.length_nil, List.drop_zero, gap.eq_def]
    simp_all
  | _ => simp_all

/-- What begins with a gap is skipped. -/
theorem Gap.eq_nil {depth : Nat} {behind cs : List Char} (h : Gap (0 < depth) behind cs)
    (hgap : gap depth false (cs ++ behind) = []) : cs = [] := by
  cases h with
  | nil => rfl
  | blank hc =>
    rw [List.cons_append, gap.eq_def] at hgap
    rcases hc with rfl | rfl | rfl <;> simp at hgap
  | newline hinside =>
    rw [List.cons_append, gap.eq_def] at hgap
    simp [hinside] at hgap
  | escaped =>
    rw [List.cons_append, List.cons_append, gap.eq_def] at hgap
    simp at hgap
  | comment =>
    rw [List.cons_append, gap.eq_def] at hgap
    simp at hgap

/-! ### Tokens -/

/-- All of the gap that a text begins with: what stands behind begins with no other. -/
structure WholeGap (inside : Prop) (gap rest : List Char) : Prop where
  isGap : Gap inside rest gap
  ended : ∀ more behind, rest = more ++ behind → Gap inside behind more → more = []

/-- The longest lexeme that a text begins with, and what it is. -/
structure LongestLexeme (rest : List Char) (kind : Token.Kind) (text : String) : Prop where
  isLexeme : IsLexeme kind text
  isPrefix : text.toList <+: rest
  longest : ∀ other lexeme, IsLexeme other lexeme → lexeme.toList <+: rest →
    lexeme.length ≤ text.length
  kind_unique : ∀ other, IsLexeme other text → other = kind

theorem wholeGap_of_gap {depth : Nat} {gap rest : List Char}
    (h : Scan.gap depth false (gap ++ rest) = gap) : WholeGap (0 < depth) gap rest := by
  have hrest := gap_drop_gap depth false (gap ++ rest)
  rw [h, List.drop_left] at hrest
  constructor
  · have hgap := (isGap_gap (congrArg (· ++ rest) h)).1 rfl
    rwa [h] at hgap
  · intro more behind hsplit hmore
    rw [hsplit] at hrest
    exact hmore.eq_nil hrest

theorem longestLexeme_of_lexeme? {depth : Nat} {cs text : List Char} {kind : Token.Kind}
    (h : lexeme? depth cs = some ⟨text, .ok kind⟩) :
    LongestLexeme cs kind (String.ofList text) := by
  have hlexeme := isLexeme_of_lexeme? h
  constructor
  · exact hlexeme
  · rw [String.toList_ofList]
    exact lexeme?_isPrefix h
  · intro other lexeme hother hcs
    rw [← String.length_toList, ← String.length_toList, String.toList_ofList]
    exact hother.length_le hcs h
  · intro other hother
    exact hlexeme.kind_unique hother

end Scan

namespace Scanner

open Scan

/-- Whatever the scanner has read, a token that it goes on with is the longest lexeme behind the whole
gap before it. -/
theorem next_longest {s : Scanner} {t : Token} (h : s.next.1 = .token t) (hend : t.isEnd = false) :
    ∃ gap rest, s.rest = gap ++ rest ∧ WholeGap (0 < s.depth) gap rest ∧
      LongestLexeme rest t.kind t.lexeme := by
  have hstep : Step s t s.next.2 := Step.of_next (Prod.ext h rfl) hend
  generalize s.next.2 = s₁ at hstep
  cases hstep with
  | @mk gap text rest depth kind place finished hgap hlexeme =>
    exact ⟨gap, text ++ rest, rfl, wholeGap_of_gap hgap, longestLexeme_of_lexeme? hlexeme⟩

/-- Behind a name inside brackets, where a comment and a line break are skipped. -/
def insideBrackets : Scanner :=
  (ofText "(a # note\n  **=.5e-3 <<= 1e5)".toList).behind 2

theorem next_longest_power : ∃ t, insideBrackets.next.1 = .token t ∧ t.isEnd = false ∧
    t.kind = .augmented .pow ∧ ∃ gap rest, insideBrackets.rest = gap ++ rest ∧
      WholeGap (0 < insideBrackets.depth) gap rest ∧ LongestLexeme rest t.kind t.lexeme := by
  have h : insideBrackets.next.1 =
      .token ⟨.augmented .pow, ⟨⟨2, 3, 12⟩, ⟨2, 6, 15⟩⟩, "**="⟩ := by decide +kernel
  exact ⟨_, h, rfl, rfl, next_longest h rfl⟩

end Scanner

end LoopNest
