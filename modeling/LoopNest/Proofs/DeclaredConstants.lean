import LoopNest.Proofs.ClosedUnits
import LoopNest.Proofs.SpaceScripts

/-!
# The constants that a script declares

The plain symbols of a script are the words that are left in the conditions, iterators and keywords
aside. A constant that stands only among arguments for which iterators are written is not left, and
then it is not declared. The other way round, the exponent of a number is a word, and is declared
although it is no constant. A script declares the constants of its space exactly if neither happens.
-/

namespace LoopNest

open Script Scan

/-! ### Words in numbers -/

theorem isWordStart_of_isDigit {c : Char} (h : c.isDigit) : isWordStart c = false := by
  rw [Bool.eq_false_iff]
  intro hstart
  have hascii := isAscii_of_isDigit h
  have hname : startsName c := by
    simpa [startsName, Text.isIdentifierStart, hascii, isWordStart] using hstart
  rw [not_isDigit_of_startsName hname] at h
  cases h

theorem isAsciiWord_exponent {e : Char} (he : e = 'e' ∨ e = 'E') {ds : List Char}
    (hds : ∀ d ∈ ds, d.isDigit) : IsAsciiWord (e :: ds) :=
  ⟨e, ds, rfl, by rcases he with rfl | rfl <;> rfl, fun d hd => isWordRest_of_isDigit (hds d hd)⟩

/-- The words in a number are exponents, with their digits if there is no sign between. -/
theorem exists_of_mem_usesFrom_exponent {exponent : List Char} (h : IsExponent exponent) {use : Use}
    (huse : use ∈ usesFrom 0 exponent) :
    ∃ e ds, (e = 'e' ∨ e = 'E') ∧ (∀ d ∈ ds, d.isDigit) ∧ use.1 = e :: ds := by
  cases h with
  | absent => cases huse
  | present head ds hhead hds =>
    obtain ⟨e, he, hhead⟩ := hhead
    -- behind a sign there are digits only
    have hsigned : ∀ sign, isWordStart sign = false → isWordRest sign = false →
        usesFrom 0 ([e, sign] ++ ds) = [([e], argumentsOf? (sign :: ds))] := by
      intro sign hstart hrest
      have hstop : ∀ c ∈ (sign :: ds).head?, isWordRest c = false := by
        intro c hc
        cases hc
        exact hrest
      have hnone : ∀ d ∈ sign :: ds, isWordStart d = false :=
        List.forall_mem_cons.mpr ⟨hstart, fun d hd => isWordStart_of_isDigit (hds.2 d hd)⟩
      have hdigits := usesFrom_append_of_not_start hnone []
      rw [List.append_nil] at hdigits
      change usesFrom 0 ([e] ++ sign :: ds) = _
      rw [usesFrom_word (isAsciiWord_exponent he (by simp)) hstop, hdigits]
      rfl
    rcases hhead with rfl | rfl | rfl
    · have hword := (UsesOf.word (isAsciiWord_exponent he hds.2)).eq
      rw [List.singleton_append, hword, List.mem_singleton] at huse
      exact ⟨e, ds, he, hds.2, by rw [huse]⟩
    · rw [hsigned '+' rfl rfl, List.mem_singleton] at huse
      exact ⟨e, [], he, by simp, by rw [huse]⟩
    · rw [hsigned '-' rfl rfl, List.mem_singleton] at huse
      exact ⟨e, [], he, by simp, by rw [huse]⟩

theorem exists_of_mem_wordsOf {text word : String} (h : IsLiteral text)
    (hword : word ∈ Term.wordsOf text) :
    ∃ e ds, (e = 'e' ∨ e = 'E') ∧ (∀ d ∈ ds, d.isDigit) ∧ word.toList = e :: ds := by
  have hnumeral : ∀ {text : String} {use : Use}, IsNumeral text → use ∈ usesFrom 0 text.toList →
      ∃ e ds, (e = 'e' ∨ e = 'E') ∧ (∀ d ∈ ds, d.isDigit) ∧ use.1 = e :: ds := by
    intro text use h huse
    obtain ⟨whole, point, exponent, htext, hwhole, hpoint, hexponent, -⟩ := h
    have hdigits : ∀ {ds : List Char}, (∀ d ∈ ds, d.isDigit) → ∀ d ∈ ds, isWordStart d = false :=
      fun hds d hd => isWordStart_of_isDigit (hds d hd)
    have hfraction : ∀ c ∈ point, isWordStart c = false := by
      cases hpoint with
      | absent => simp
      | point ds hds => exact List.forall_mem_cons.mpr ⟨rfl, hdigits hds.2⟩
    rw [htext, usesFrom_append_of_not_start (hdigits hwhole),
      usesFrom_append_of_not_start hfraction] at huse
    exact exists_of_mem_usesFrom_exponent hexponent huse
  rw [Term.wordsOf, wordsFrom_eq, List.map_map, List.mem_map] at hword
  obtain ⟨use, huse, rfl⟩ := hword
  rw [Function.comp_apply, String.toList_ofList]
  rcases h with h | ⟨digits, rfl, h⟩
  · exact hnumeral h huse
  · rw [String.toList_append] at huse
    exact hnumeral h huse

theorem not_isKeyword_of_mem_wordsOf {text word : String} (h : IsLiteral text)
    (hword : word ∈ Term.wordsOf text) : isKeyword word = false := by
  obtain ⟨e, ds, -, hds, hchars⟩ := exists_of_mem_wordsOf h hword
  -- a keyword has a letter behind its first one
  have hkeywords : ∀ k ∈ keywords, ∃ c ∈ k.toList[1]?, c.isDigit = false := by
    have hall : keywords.all fun k => k.toList[1]?.any fun c => !c.isDigit := by decide
    intro k hk
    simpa [Option.any_eq_true] using List.all_eq_true.mp hall k hk
  refine decide_eq_false fun hmem => ?_
  obtain ⟨c, hc, hdigit⟩ := hkeywords _ hmem
  rw [String.toList_ofList, hchars] at hc
  cases ds with
  | nil => cases hc
  | cons d ds =>
    have hd := hds d List.mem_cons_self
    have hlower : d.toLower = d := by
      have hval : d.val.toNat ≤ 57 := (toNat_of_isDigit hd).2
      have hupper : ¬ d.val ≥ 'A'.val := fun hlow => absurd (Nat.le_trans hlow hval) (by decide)
      exact dif_neg fun hrange => hupper hrange.1
    obtain rfl : d.toLower = c := Option.some.inj hc
    rw [hlower, hd] at hdigit
    cases hdigit

namespace Term

/-! ### Words that are left -/

theorem mem_unapplied {words : List String} {x : String} :
    (x.toList, none) ∈ unapplied words ↔ x ∈ words := by
  simp [unapplied, String.toList_inj]

/-- The unapplied words of an emitted term that are no iterators are those that are shown. -/
theorem Plain.mem_uses_iff {t : Term} (h : t.Plain) {iterators : List String} {vs : Variants}
    (hi : ∀ i ∈ iterators, IsAsciiWord i.toList) (hserves : Serves iterators t.calls vs) {x : String}
    (hx : x ∉ iterators) : (x.toList, none) ∈ t.uses vs ↔ x ∈ t.shown iterators := by
  induction h with
  | iterator => exact mem_unapplied
  | constant => exact mem_unapplied
  | literal => exact mem_unapplied
  | @apply function args _ hargs ih =>
    rw [uses, shown]
    by_cases hparen : '(' ∈ argumentText args
    · have hkept : isReplaced iterators args = false := by simp [isReplaced, hparen]
      rw [if_pos hparen, if_neg (by simp [hkept]), usesAll_eq, shownAll_eq, List.mem_cons,
        List.mem_flatMap, List.mem_flatMap]
      simp only [Prod.mk.injEq, reduceCtorEq, and_false, false_or]
      exact exists_congr fun t => and_congr_right fun ht => ih t ht (hserves.argument hparen ht)
    · obtain ⟨v, -, hlookup, hstands⟩ := hserves.exists_stands hargs hparen
      rw [if_neg hparen, hlookup, Option.map_some, Option.getD_some, Variant.uses, List.mem_cons]
      simp only [Prod.mk.injEq, reduceCtorEq, and_false, false_or]
      cases hmentions : mentionsIterator iterators args with
      | true =>
        have hreplaced : isReplaced iterators args = true := by simp [isReplaced, hparen, hmentions]
        rw [if_pos hreplaced, hstands.replaced hmentions]
        refine iff_of_false (fun hmem => hx ?_) List.not_mem_nil
        obtain ⟨_, hmem', huse⟩ := List.mem_flatMap.mp hmem
        obtain ⟨i, hreached, rfl⟩ := List.mem_map.mp hmem'
        have hword := hi i (mem_of_mem_reached hreached)
        rw [(UsesOf.word hword).eq, List.mem_singleton, Prod.mk.injEq, String.toList_inj] at huse
        rw [huse.1]
        exact mem_of_mem_reached hreached
      | false =>
        have hkept : isReplaced iterators args = false := by simp [isReplaced, hmentions]
        rw [if_neg (by simp [hkept]), hstands.kept hmentions, mem_unapplied]
  | arith op _ _ ihl ihr =>
    rw [uses, shown, List.mem_append, List.mem_append, ihl hserves.left, ihr hserves.right]

theorem AllResolved.of_mem {iterators : List String} {ts : List Term} (h : AllResolved iterators ts)
    {t : Term} (ht : t ∈ ts) : t.Resolved iterators := by
  induction ts with
  | nil => cases ht
  | cons u ts ih =>
    rcases List.mem_cons.mp ht with rfl | ht
    · exact h.1
    · exact ih h.2 ht

/-- What is shown is a name or stands in a number. -/
theorem Plain.of_mem_shown {t : Term} (h : t.Plain) {iterators : List String} {x : String}
    (hx : x ∈ t.shown iterators) :
    x ∈ t.names ∨ ∃ text, IsLiteral text ∧ x ∈ wordsOf text := by
  induction h with
  | iterator => exact .inl hx
  | constant => exact .inl hx
  | @literal text h => exact .inr ⟨text, h, hx⟩
  | apply _ _ ih =>
    rw [shown] at hx
    split at hx
    · cases hx
    · rw [shownAll_eq] at hx
      obtain ⟨t, ht, hx⟩ := List.mem_flatMap.mp hx
      rcases ih t ht hx with hname | hnumber
      · left
        rw [names, namesAll_eq]
        exact List.mem_cons_of_mem _ (List.mem_flatMap.mpr ⟨t, ht, hname⟩)
      · exact .inr hnumber
  | arith _ _ _ ihl ihr =>
    rw [shown, List.mem_append] at hx
    rw [names, List.mem_append]
    rcases hx with hx | hx
    · exact (ihl hx).imp_left .inl
    · exact (ihr hx).imp_left .inr

/-- A constant of a term is a name and no iterator. -/
theorem Spelled.of_mem_constants {t : Term} (h : t.Spelled) {iterators : List String} {x : String}
    (hresolved : t.Resolved iterators) (hx : x ∈ t.constants) : x ∈ t.names ∧ x ∉ iterators := by
  induction h with
  | iterator => cases hx
  | constant =>
    rw [constants, List.mem_singleton] at hx
    subst hx
    exact ⟨List.mem_singleton_self _, hresolved⟩
  | literal => cases hx
  | @apply function args _ _ ih =>
    rw [constants, mem_constantsAll] at hx
    obtain ⟨t, ht, hx⟩ := hx
    obtain ⟨hname, hi⟩ := ih t ht (AllResolved.of_mem hresolved ht) hx
    rw [names, namesAll_eq]
    exact ⟨List.mem_cons_of_mem _ (List.mem_flatMap.mpr ⟨t, ht, hname⟩), hi⟩
  | arith _ _ _ ihl ihr =>
    rw [constants, List.mem_append] at hx
    rw [names, List.mem_append]
    rcases hx with hx | hx
    · exact (ihl hresolved.1 hx).imp_left .inl
    · exact (ihr hresolved.2 hx).imp_left .inr

end Term

/-! ### The constants of a space -/

namespace Space

/-- The words of a space that are left in its script. -/
def shown (s : Space) : List String :=
  Term.shownAll s.iterators s.terms

theorem mem_constants {s : Space} {x : String} : x ∈ s.constants ↔ ∃ t ∈ s.terms, x ∈ t.constants := by
  rw [constants_eq_distinct, Names.mem_distinct, terms, List.mem_flatMap]
  simp only [Term.mem_constantsAll, List.mem_flatMap]
  constructor
  · rintro ⟨r, hr, t, ht, hx⟩
    exact ⟨t, ⟨r, hr, ht⟩, hx⟩
  · rintro ⟨t, ⟨r, hr, ht⟩, hx⟩
    exact ⟨r, hr, t, ht, hx⟩

end Space

/-- The symbols without arguments that a script declares. -/
def Script.plainSymbols (script : String) : List String :=
  ((symbolsIn script).filter fun symbol => !('(' ∈ symbol)).map String.ofList

namespace Space

theorem plainSymbols_ofRequest {c : Computation} (config : Config) (h : c.space.Plain) :
    plainSymbols (ofRequest (c.request config)) =
      Names.distinct (constantsIn c.space.iterators c.space.emitted) := by
  have hconstants : ∀ symbol ∈ (Names.distinct (constantsIn c.space.iterators c.space.emitted)).map
      String.toList, (!('(' ∈ symbol)) = true := by
    refine List.forall_mem_map.mpr fun x hx => ?_
    have hword := isAsciiWord_of_mem_constantsIn (Names.mem_distinct.mp hx)
    simpa using hword.not_mem rfl
  have hfunctions : ∀ symbol ∈ (c.space.variants.map Variant.declaration).map String.toList,
      ¬ (!('(' ∈ symbol)) = true := by
    rw [List.map_map]
    refine List.forall_mem_map.mpr fun v _ => ?_
    simp [Variant.declaration]
  rw [plainSymbols, symbolsIn_ofRequest config h, declared, List.map_append, List.filter_append,
    List.filter_eq_self.mpr hconstants, List.filter_eq_nil_iff.mpr hfunctions, List.append_nil]
  simp

/-- The plain symbols of the script of a space are the words that are left, iterators and keywords
aside. -/
theorem mem_plainSymbols_iff {c : Computation} (config : Config) (hl : c.space.Legible)
    (h : c.space.Plain) {x : String} :
    x ∈ plainSymbols (ofRequest (c.request config)) ↔
      x ∈ c.space.shown ∧ x ∉ c.space.iterators ∧ isKeyword x = false := by
  rw [plainSymbols_ofRequest config h, Names.mem_distinct, mem_constantsIn,
    (spans_emitted h).uses.eq, and_congr_left_iff]
  rintro ⟨hx, -⟩
  rw [shown, Term.shownAll_eq, List.mem_flatMap, List.mem_flatMap, ← hl.writtenTerms_eq]
  exact exists_congr fun t => and_congr_right fun ht =>
    (h.terms t ht).mem_uses_iff h.iterators (serves_variants h ht) hx

/-- A constant is a name and no iterator. -/
theorem Legible.of_mem_constants {s : Space} (h : s.Legible) {x : String} (hx : x ∈ s.constants) :
    x ∈ s.names ∧ x ∉ s.iterators := by
  obtain ⟨t, ht, hx⟩ := mem_constants.mp hx
  obtain ⟨hspelled, hresolved⟩ := h.terms t ht
  obtain ⟨hname, hi⟩ := hspelled.of_mem_constants hresolved hx
  exact ⟨mem_names_of_mem_term ht hname, hi⟩

theorem not_isKeyword_of_mem_shown {s : Space} (h : ∀ t ∈ s.terms, t.Plain)
    (hnames : ∀ name ∈ s.names, isKeyword name = false) {x : String} (hx : x ∈ s.shown) :
    isKeyword x = false := by
  rw [shown, Term.shownAll_eq] at hx
  obtain ⟨t, ht, hx⟩ := List.mem_flatMap.mp hx
  rcases (h t ht).of_mem_shown hx with hname | ⟨text, hliteral, hword⟩
  · exact hnames x (mem_names_of_mem_term ht hname)
  · exact not_isKeyword_of_mem_wordsOf hliteral hword

end Space

/-- What the script of a request should declare for a space: its constants and no other plain names,
so that every constraint is on a declared constant. -/
structure Script.DeclaresConstants (request : Request) (s : Space) : Prop where
  constants : ∀ x, x ∈ plainSymbols (ofRequest request) ↔ x ∈ s.constants
  given : ∀ constraint ∈ request.constraints,
    ∃ x ∈ plainSymbols (ofRequest request), constraint = x ++ " >= 1"

namespace Space

/-- The script of a space from a program, whose names are ASCII and no keywords, declares its
constants exactly if every constant is left outside the arguments that iterators are written for, and
no number is left with an exponent that is neither a constant nor an iterator. -/
theorem declaresConstants_iff {source : String} {p : Program} {stmt : Stmt} {s : Space}
    (hp : Program.parse source = .ok p) (hs : stmt ∈ p.body) (h : Space.ofStmt stmt = .ok s)
    (hnames : ∀ name ∈ s.names, isAsciiText name ∧ isKeyword name = false) (config : Config)
    (body : List Stmt) (fields : Fields) :
    DeclaresConstants (Computation.request config ⟨s, body, fields⟩) s ↔
      (∀ x ∈ s.constants, x ∈ s.shown) ∧ ∀ x ∈ s.shown, x ∈ s.constants ∨ x ∈ s.iterators := by
  have hl : s.Legible :=
    legible_of_space? (Program.proper_of_parse hp stmt hs) ((Space.ofStmt_eq_ok_iff stmt s).mp h)
  have hplain := hl.plain fun name hname => (hnames name hname).1
  have hsymbols : ∀ x, x ∈ plainSymbols (ofRequest (Computation.request config ⟨s, body, fields⟩)) ↔
      x ∈ s.shown ∧ x ∉ s.iterators ∧ isKeyword x = false :=
    fun x => mem_plainSymbols_iff (c := ⟨s, body, fields⟩) config hl hplain
  have hkeyword : ∀ x ∈ s.shown, isKeyword x = false := fun x hx =>
    not_isKeyword_of_mem_shown (hl.writtenTerms_eq ▸ hplain.terms)
      (fun name hname => (hnames name hname).2) hx
  constructor
  · rintro ⟨hexact, -⟩
    refine ⟨fun x hx => ((hsymbols x).mp ((hexact x).mpr hx)).1, fun x hx => ?_⟩
    by_cases hi : x ∈ s.iterators
    · exact .inr hi
    · exact .inl ((hexact x).mp ((hsymbols x).mpr ⟨hx, hi, hkeyword x hx⟩))
  · rintro ⟨hshown, hconstants⟩
    have hexact : ∀ x, x ∈ plainSymbols (ofRequest (Computation.request config ⟨s, body, fields⟩)) ↔
        x ∈ s.constants := by
      intro x
      rw [hsymbols]
      constructor
      · rintro ⟨hx, hi, -⟩
        exact (hconstants x hx).resolve_right hi
      · intro hx
        obtain ⟨hname, hi⟩ := hl.of_mem_constants hx
        exact ⟨hshown x hx, hi, (hnames x hname).2⟩
    refine ⟨hexact, fun constraint hc => ?_⟩
    change constraint ∈ if config.assumePositive then s.writtenConstants.map (· ++ " >= 1") else [] at hc
    split at hc
    · rw [hl.writtenConstants_eq] at hc
      obtain ⟨x, hx, rfl⟩ := List.mem_map.mp hc
      exact ⟨x, (hexact x).mpr hx, rfl⟩
    · cases hc

/-- A header with calls of all kinds: one for which iterators are written, one that keeps its arguments,
and one with parentheses inside. -/
def calledHeader : String :=
  "s = \x7b[i, j]: 0 <= i < rp(N) ^ f(i) <= j < 2 * (M + 1) ^ g(2 * (i + K)) == 1\x7d"

theorem declaresConstants_called :
    ∃ p stmt s, Program.parse calledHeader = .ok p ∧ stmt ∈ p.body ∧ Space.ofStmt stmt = .ok s ∧
      (∀ name ∈ s.names, isAsciiText name ∧ isKeyword name = false) ∧
      s.constants = ["N", "M", "K"] ∧
      DeclaresConstants (Computation.request .standard ⟨s, [], []⟩) s := by
  have hread : (Program.parse calledHeader).toOption.any fun p => p.body.any fun stmt =>
      (Space.ofStmt stmt).toOption.any fun s =>
        (s.names.all fun name => isAsciiText name && !isKeyword name) &&
        s.constants = ["N", "M", "K"] && s.constants.all (· ∈ s.shown) &&
        s.shown.all fun x => x ∈ s.constants || x ∈ s.iterators := by
    decide +kernel
  obtain ⟨p, stmt, hp, hs, hspace⟩ := Program.exists_of_any hread
  obtain ⟨s, h, hcheck⟩ := exists_ok_of_any hspace
  simp only [Bool.and_eq_true, Bool.or_eq_true, List.all_eq_true, decide_eq_true_eq,
    Bool.not_eq_true'] at hcheck
  obtain ⟨⟨⟨hnames, hconstants⟩, hshown⟩, hexponents⟩ := hcheck
  exact ⟨p, stmt, s, hp, hs, h, hnames, hconstants,
    (declaresConstants_iff hp hs h hnames .standard [] []).mpr ⟨hshown, hexponents⟩⟩

/-- The only constant stands in an argument that is replaced. -/
def replacedSource : String :=
  "s = \x7b[i]: 0 <= i < rp(N + i)\x7d\ny[i] = 1"

def replacedScript : String :=
  "symbolic rp(1);\ns := \x7b[i] : 0 <= i < rp(i)\x7d;\nr0s := \x7b[i] -> [0, i, 0]\x7d;\n" ++
    "codegen r0s:s given \x7b[i] : N >= 1\x7d;\n"

theorem not_declaresConstants_replaced :
    ∃ p stmt s, Program.parse replacedSource = .ok p ∧ stmt ∈ p.body ∧ Space.ofStmt stmt = .ok s ∧
      (∀ name ∈ s.names, isAsciiText name ∧ isKeyword name = false) ∧ s.constants = ["N"] ∧
      ofRequest (Computation.request .standard ⟨s, p.body.tail, []⟩) = replacedScript ∧
      ¬ DeclaresConstants (Computation.request .standard ⟨s, p.body.tail, []⟩) s := by
  have hread : (Program.parse replacedSource).toOption.any fun p => p.body.any fun stmt =>
      (Space.ofStmt stmt).toOption.any fun s =>
        (s.names.all fun name => isAsciiText name && !isKeyword name) && s.constants = ["N"] &&
        ofRequest (Computation.request .standard ⟨s, p.body.tail, []⟩) = replacedScript := by
    decide +kernel
  obtain ⟨p, hp, hbody⟩ := exists_ok_of_any hread
  obtain ⟨stmt, hs, hspace⟩ := List.any_eq_true.mp hbody
  obtain ⟨s, h, hcheck⟩ := exists_ok_of_any hspace
  simp only [Bool.and_eq_true, List.all_eq_true, decide_eq_true_eq, Bool.not_eq_true'] at hcheck
  obtain ⟨⟨hnames, hconstants⟩, hscript⟩ := hcheck
  refine ⟨p, stmt, s, hp, hs, h, hnames, hconstants, hscript, fun hdeclares => ?_⟩
  have hdeclared := (hdeclares.constants "N").mpr (by rw [hconstants]; exact List.mem_singleton_self _)
  rw [hscript] at hdeclared
  exact absurd hdeclared (by decide +kernel)

end Space

end LoopNest
