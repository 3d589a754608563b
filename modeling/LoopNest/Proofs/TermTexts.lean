import LoopNest.Proofs.EngineText
import LoopNest.Proofs.ScriptWords

/-!
# The words in the text of a term

The names of a term are words of a script if they are ASCII. A term that is written without
parentheses is a row of names and numbers with operators between them, so its words and the names it
mentions can be read off its text, with the spaces or without.
-/

namespace LoopNest

open Script Scan

/-! ### Names and numbers as texts -/

def isAsciiText (text : String) : Bool :=
  text.toList.all Text.isAscii

theorem isAsciiWord_of_isName {name : String} (h : IsName name) (hascii : isAsciiText name) :
    IsAsciiWord name.toList := by
  obtain ⟨c, cs, hname, hc, hcs, -⟩ := h
  have hall := List.all_eq_true.mp hascii
  rw [hname] at hall
  obtain ⟨hcascii, hcsascii⟩ := List.forall_mem_cons.mp hall
  refine ⟨c, cs, hname, ?_, fun d hd => ?_⟩
  · simpa [startsName, Text.isIdentifierStart, hcascii, isWordStart] using hc
  · simpa [continuesName, Text.isIdentifierContinue, hcsascii d hd, isWordRest] using hcs d hd

/-- No name goes on with a blank. -/
theorem isBlank_of_continuesName {c : Char} (h : continuesName c) : Text.isBlank c = false := by
  have hall : (Text.blanks.flatMap fun r => List.range' r.1 (r.2 - r.1 + 1)).all fun n =>
      !continuesName (Char.ofNat n) := by decide +kernel
  rw [Bool.eq_false_iff]
  intro hblank
  obtain ⟨r, hr, hlow, hhigh⟩ := Text.Ranges.contains_iff.mp hblank
  have hrange : c.toNat ∈ List.range' r.1 (r.2 - r.1 + 1) :=
    List.mem_range'_1.mpr ⟨hlow, by omega⟩
  have hname := List.all_eq_true.mp hall c.toNat (List.mem_flatMap.mpr ⟨r, hr, hrange⟩)
  rw [Char.ofNat_toNat, h] at hname
  cases hname

theorem undivided_of_isName {name : String} (h : IsName name) : Text.Undivided name.toList := by
  refine ⟨?_, fun c hc => isBlank_of_continuesName (h.continues c hc), fun c hc hmem => ?_⟩
  · obtain ⟨c, cs, hname, -⟩ := h
    simp [hname]
  · have hall : Text.dividers.all fun c => !continuesName c := by decide
    simpa [h.continues c hc] using List.all_eq_true.mp hall c hmem

/-- The characters of numbers. -/
def isNumeralChar (c : Char) : Bool :=
  c.isDigit || c = '.' || c = 'e' || c = 'E' || c = '+' || c = '-'

theorem isNumeralChar_of_isNumeral {text : String} (h : IsNumeral text) :
    ∀ c ∈ text.toList, isNumeralChar c := by
  have hdigits : ∀ {ds : List Char}, (∀ c ∈ ds, c.isDigit) → ∀ c ∈ ds, isNumeralChar c := by
    intro ds hds c hc
    simp [isNumeralChar, hds c hc]
  obtain ⟨whole, point, exponent, htext, hwhole, hpoint, hexponent, -⟩ := h
  rw [htext, List.forall_mem_append, List.forall_mem_append]
  refine ⟨hdigits hwhole, ?_, ?_⟩
  · cases hpoint with
    | absent => simp
    | point ds hds => exact List.forall_mem_cons.mpr ⟨rfl, hdigits hds.2⟩
  · cases hexponent with
    | absent => simp
    | present head ds hhead hds =>
      refine List.forall_mem_append.mpr ⟨?_, hdigits hds.2⟩
      obtain ⟨e, rfl | rfl, rfl | rfl | rfl⟩ := hhead <;>
        exact List.all_eq_true.mp (by decide)

theorem isNumeralChar_of_isLiteral {text : String} (h : IsLiteral text) :
    ∀ c ∈ text.toList, isNumeralChar c := by
  rcases h with h | ⟨digits, rfl, h⟩
  · exact isNumeralChar_of_isNumeral h
  · rw [String.toList_append]
    exact List.forall_mem_cons.mpr ⟨rfl, isNumeralChar_of_isNumeral h⟩

theorem ne_nil_of_isLiteral {text : String} (h : IsLiteral text) : text.toList ≠ [] := by
  rcases h with h | ⟨digits, rfl, -⟩
  · obtain ⟨c, cs, htext, -⟩ := h.begins
    simp [htext]
  · simp

theorem isWordRest_of_isDigit {c : Char} (h : c.isDigit) : isWordRest c := by
  simp [isWordRest, Text.isAsciiAlphanumeric, h]

theorem tight_of_isLiteral {text : String} (h : IsLiteral text) : Text.Tight text.toList := by
  refine Text.tight_of_noBlank fun c hc => ?_
  have hnumeral := isNumeralChar_of_isLiteral h c hc
  simp only [isNumeralChar, Bool.or_eq_true, decide_eq_true_eq] at hnumeral
  rcases hnumeral with ((((hdigit | rfl) | rfl) | rfl) | rfl) | rfl
  · exact isBlank_of_isWordRest (isWordRest_of_isDigit hdigit)
  all_goals decide

/-- Digits with letters and digits behind them are no word, and mention none. -/
theorem not_mentions_of_digit {c : Char} (hc : c.isDigit) {cs : List Char}
    (hcs : ∀ d ∈ cs, isWordRest d) {name : String} (hname : IsAsciiWord name.toList) :
    ¬ mentions (c :: cs) name := by
  have hrest := isWordRest_of_isDigit hc
  rw [mentions_word (List.forall_mem_cons.mpr ⟨hrest, hcs⟩)]
  obtain ⟨d, tail, hname, hd, -⟩ := hname
  rw [hname]
  intro heq
  cases heq
  have hascii := isAscii_of_isWordRest hrest
  have hstarts : startsName c := by
    simpa [startsName, Text.isIdentifierStart, hascii, isWordStart] using hd
  rw [not_isDigit_of_startsName hstarts] at hc
  cases hc

theorem not_mentions_digits {ds : List Char} (h : ∀ d ∈ ds, d.isDigit) {name : String}
    (hname : IsAsciiWord name.toList) : ¬ mentions ds name := by
  cases ds with
  | nil => exact not_mentions_nil hname.ne_nil
  | cons d ds =>
    obtain ⟨hd, hds⟩ := List.forall_mem_cons.mp h
    exact not_mentions_of_digit hd (fun c hc => isWordRest_of_isDigit (hds c hc)) hname

/-- The letter of an exponent is no word, since digits stand before it. -/
theorem not_mentions_exponent {ds exponent : List Char} (hds : IsDigits ds)
    (hexponent : IsExponent exponent) {name : String} (hname : IsAsciiWord name.toList) :
    ¬ mentions (ds ++ exponent) name := by
  obtain ⟨hne, hdigits⟩ := hds
  have hrest : ∀ {ds : List Char}, (∀ d ∈ ds, d.isDigit) → ∀ d ∈ ds, isWordRest d :=
    fun h d hd => isWordRest_of_isDigit (h d hd)
  cases ds with
  | nil => exact absurd rfl hne
  | cons d ds =>
    obtain ⟨hd, hds⟩ := List.forall_mem_cons.mp hdigits
    cases hexponent with
    | absent =>
      rw [List.append_nil]
      exact not_mentions_of_digit hd (hrest hds) hname
    | present head es hhead hes =>
      obtain ⟨e, he, hhead⟩ := hhead
      have hletter : isWordRest e := by rcases he with rfl | rfl <;> rfl
      -- a sign cuts the exponent in two
      have hsigned : ∀ sign, isBreak sign → ¬ mentions (d :: ds ++ ([e, sign] ++ es)) name := by
        intro sign hsign
        have hcut : d :: ds ++ ([e, sign] ++ es) = d :: (ds ++ [e]) ++ sign :: es := by simp
        rw [hcut, mentions_append_cons hsign, not_or]
        refine ⟨not_mentions_of_digit hd (List.forall_mem_append.mpr ⟨hrest hds, ?_⟩) hname,
          not_mentions_digits hes.2 hname⟩
        exact List.forall_mem_singleton.mpr hletter
      rcases hhead with rfl | rfl | rfl
      · exact not_mentions_of_digit hd (List.forall_mem_append.mpr ⟨hrest hds,
          List.forall_mem_cons.mpr ⟨hletter, hrest hes.2⟩⟩) hname
      · exact hsigned '+' (by decide)
      · exact hsigned '-' (by decide)

/-- No name is mentioned in a number. -/
theorem not_mentions_literal {text name : String} (h : IsLiteral text)
    (hname : IsAsciiWord name.toList) : ¬ mentions text.toList name := by
  have hnumeral : ∀ {text : String}, IsNumeral text → ¬ mentions text.toList name := by
    intro text h
    obtain ⟨whole, point, exponent, htext, hwhole, hpoint, hexponent, hne⟩ := h
    rw [htext]
    cases hpoint with
    | absent =>
      rw [List.append_nil] at hne
      exact not_mentions_exponent ⟨hne, hwhole⟩ hexponent hname
    | point ds hds =>
      rw [List.cons_append, mentions_append_cons (by decide), not_or]
      exact ⟨not_mentions_digits hwhole hname, not_mentions_exponent hds hexponent hname⟩
  rcases h with h | ⟨digits, rfl, h⟩
  · exact hnumeral h
  · rw [String.toList_append]
    change ¬ mentions ([] ++ '-' :: digits.toList) name
    rw [mentions_append_cons (by decide), not_or]
    exact ⟨not_mentions_nil hname.ne_nil, hnumeral h⟩

/-! ### Terms -/

/-- The text of an operator with the spaces around it. -/
def ArithOp.spaced (op : ArithOp) : List Char :=
  ' ' :: (op.symbol.toList ++ [' '])

theorem ArithOp.separates_spaced (op : ArithOp) : Separates op.spaced := by
  cases op <;> exact separates_of_all (by decide) (by decide)

theorem separates_listed : Separates [',', ' '] :=
  separates_of_all (by decide) (by decide)

namespace Term

/-- A term whose names are words of a script. -/
inductive Plain : Term → Prop where
  | iterator {name : String} (h : IsAsciiWord name.toList) : Plain (.iterator name)
  | constant {name : String} (h : IsAsciiWord name.toList) : Plain (.constant name)
  | literal {text : String} (h : IsLiteral text) : Plain (.literal text)
  | apply {function : String} {args : List Term} (hf : IsAsciiWord function.toList)
      (h : ∀ t ∈ args, Plain t) : Plain (.apply function args)
  | arith {left right : Term} (op : ArithOp) (hl : Plain left) (hr : Plain right) :
      Plain (.arith left op right)

mutual

/-- The names in a term: iterators, constants and functions. -/
def names : Term → List String
  | iterator name => [name]
  | constant name => [name]
  | literal _ => []
  | apply function args => function :: namesAll args
  | arith left _ right => left.names ++ right.names

def namesAll : List Term → List String
  | [] => []
  | t :: ts => t.names ++ namesAll ts

end

theorem namesAll_eq (ts : List Term) : namesAll ts = ts.flatMap names := by
  induction ts with
  | nil => rfl
  | cons t ts ih => rw [namesAll, ih, List.flatMap_cons]

theorem textAll_eq (ts : List Term) : textAll ts = ts.map text := by
  induction ts with
  | nil => rfl
  | cons t ts ih => rw [textAll, ih, List.map_cons]

theorem symbolsAll_eq (ts : List Term) : symbolsAll ts = ts.flatMap symbols := by
  induction ts with
  | nil => rfl
  | cons t ts ih => rw [symbolsAll, ih, List.flatMap_cons]

/-- A term with ASCII names is written with words. -/
theorem Spelled.plain {t : Term} (h : t.Spelled) (hascii : ∀ name ∈ t.names, isAsciiText name) :
    t.Plain := by
  induction h with
  | iterator h => exact .iterator (isAsciiWord_of_isName h (hascii _ (by simp [names])))
  | constant h => exact .constant (isAsciiWord_of_isName h (hascii _ (by simp [names])))
  | literal h => exact .literal h
  | apply hf _ ih =>
    rw [names, namesAll_eq] at hascii
    obtain ⟨hfunction, hargs⟩ := List.forall_mem_cons.mp hascii
    refine .apply (isAsciiWord_of_isName hf hfunction) fun t ht => ih t ht fun name hname => ?_
    exact hargs name (List.mem_flatMap.mpr ⟨t, ht, hname⟩)
  | arith op _ _ ihl ihr =>
    rw [names] at hascii
    obtain ⟨hl, hr⟩ := List.forall_mem_append.mp hascii
    exact .arith op (ihl hl) (ihr hr)

/-- The text between the parentheses of an application. -/
def argumentText (args : List Term) : List Char :=
  (", ".intercalate (textAll args)).toList

theorem argumentText_eq (args : List Term) :
    argumentText args = [',', ' '].intercalate (args.map fun t => t.text.toList) := by
  rw [argumentText, String.toList_intercalate, textAll_eq, List.map_map]
  rfl

theorem toList_text_apply (function : String) (args : List Term) :
    (apply function args).text.toList = function.toList ++ '(' :: (argumentText args ++ [')']) := by
  simp [text, argumentText]

theorem toList_text_arith (left : Term) (op : ArithOp) (right : Term) :
    (arith left op right).text.toList =
      (group (groupsLeft op left) left.text).toList ++ op.spaced ++
        (group (groupsRight op right) right.text).toList := by
  simp [text, ArithOp.spaced]

theorem toList_group (needed : Bool) (text : String) :
    (group needed text).toList = if needed then '(' :: (text.toList ++ [')']) else text.toList := by
  cases needed <;> simp [group]

/-- A term that is written without a blank at an end. -/
structure Tight (t : Term) : Prop where
  ne_nil : t.text.toList ≠ []
  ends : Text.Tight t.text.toList

namespace Tight

theorem group {t : Term} (h : t.Tight) (needed : Bool) :
    (group needed t.text).toList ≠ [] ∧ Text.Tight (group needed t.text).toList := by
  rw [toList_group]
  cases needed with
  | false => exact ⟨h.ne_nil, h.ends⟩
  | true => exact ⟨List.cons_ne_nil _ _, tight_enclosed _⟩

theorem literal {text : String} (h : IsLiteral text) : (literal text).Tight :=
  ⟨ne_nil_of_isLiteral h, tight_of_isLiteral h⟩

theorem apply {function : String} (hf : Text.Undivided function.toList) (args : List Term) :
    (apply function args).Tight := by
  refine ⟨?_, ?_⟩
  · simp [toList_text_apply]
  · rw [toList_text_apply]
    exact tight_applied hf _

theorem arith {left right : Term} (hl : left.Tight) (op : ArithOp) (hr : right.Tight) :
    (arith left op right).Tight := by
  obtain ⟨hlne, hlends⟩ := hl.group (groupsLeft op left)
  obtain ⟨hrne, hrends⟩ := hr.group (groupsRight op right)
  refine ⟨?_, ?_⟩
  · rw [toList_text_arith]
    exact List.append_ne_nil_of_right_ne_nil _ hrne
  · rw [toList_text_arith]
    exact hlends.append hlne op.spaced hrends hrne

end Tight

theorem Plain.tight {t : Term} (h : t.Plain) : t.Tight := by
  induction h with
  | iterator h | constant h => exact ⟨h.ne_nil, h.tight⟩
  | literal h => exact .literal h
  | apply hf => exact .apply hf.undivided _
  | arith op _ _ ihl ihr => exact .arith ihl op ihr

theorem Spelled.tight {t : Term} (h : t.Spelled) : t.Tight := by
  induction h with
  | iterator h | constant h =>
    have hname := undivided_of_isName h
    exact ⟨hname.ne_nil, hname.tight⟩
  | literal h => exact .literal h
  | apply hf => exact .apply (undivided_of_isName hf) _
  | arith op _ _ ihl ihr => exact .arith ihl op ihr

/-! ### Terms without parentheses -/

/-- A term that is written without parentheses. -/
inductive Flat : Term → Prop where
  | iterator {name : String} (h : IsAsciiWord name.toList) : Flat (.iterator name)
  | constant {name : String} (h : IsAsciiWord name.toList) : Flat (.constant name)
  | literal {text : String} (h : IsLiteral text) : Flat (.literal text)
  | arith {left right : Term} (op : ArithOp) (hleft : groupsLeft op left = false)
      (hright : groupsRight op right = false) (hl : Flat left) (hr : Flat right) :
      Flat (.arith left op right)

theorem Plain.flat {t : Term} (h : t.Plain) (hparen : '(' ∉ t.text.toList) : t.Flat := by
  induction h with
  | iterator h => exact .iterator h
  | constant h => exact .constant h
  | literal h => exact .literal h
  | apply => simp [toList_text_apply] at hparen
  | @arith left right op _ _ ihl ihr =>
    rw [toList_text_arith, toList_group, toList_group] at hparen
    cases hleft : groupsLeft op left with
    | true => simp [hleft] at hparen
    | false =>
      cases hright : groupsRight op right with
      | true => simp [hright] at hparen
      | false =>
        simp only [hleft, hright, List.mem_append, not_or] at hparen
        exact .arith op hleft hright (ihl (by simpa using hparen.1.1)) (ihr (by simpa using hparen.2))

theorem toList_text_flat {left right : Term} {op : ArithOp} (hleft : groupsLeft op left = false)
    (hright : groupsRight op right = false) :
    (arith left op right).text.toList = left.text.toList ++ op.spaced ++ right.text.toList := by
  rw [toList_text_arith, toList_group, toList_group, hleft, hright]
  rfl

/-- The characters of names, numbers and operators. -/
def isFlatChar (c : Char) : Bool :=
  isWordRest c || c = '.' || c = ' ' || c = '+' || c = '-' || c = '*' || c = '/' || c = '%'

theorem isFlatChar_word {w : List Char} (h : IsAsciiWord w) : ∀ c ∈ w, isFlatChar c := by
  intro c hc
  simp [isFlatChar, h.rest c hc]

theorem isFlatChar_literal {text : String} (h : IsLiteral text) : ∀ c ∈ text.toList, isFlatChar c := by
  intro c hc
  have hnumeral := isNumeralChar_of_isLiteral h c hc
  simp only [isNumeralChar, Bool.or_eq_true, decide_eq_true_eq] at hnumeral
  rcases hnumeral with ((((h | rfl) | rfl) | rfl) | rfl) | rfl
  · simp [isFlatChar, isWordRest_of_isDigit h]
  all_goals decide

theorem isFlatChar_spaced (op : ArithOp) : ∀ c ∈ op.spaced, isFlatChar c := by
  cases op <;> exact List.all_eq_true.mp (by decide)

theorem Flat.isFlatChar {t : Term} (h : t.Flat) : ∀ c ∈ t.text.toList, isFlatChar c := by
  induction h with
  | iterator h => exact isFlatChar_word h
  | constant h => exact isFlatChar_word h
  | literal h => exact isFlatChar_literal h
  | arith op hleft hright _ _ ihl ihr =>
    rw [toList_text_flat hleft hright, List.forall_mem_append, List.forall_mem_append]
    exact ⟨⟨ihl, isFlatChar_spaced op⟩, ihr⟩

theorem Flat.noParen {t : Term} (h : t.Flat) :
    '(' ∉ t.text.toList ∧ ')' ∉ t.text.toList ∧ ',' ∉ t.text.toList :=
  ⟨fun hmem => absurd (h.isFlatChar _ hmem) (by decide),
    fun hmem => absurd (h.isFlatChar _ hmem) (by decide),
    fun hmem => absurd (h.isFlatChar _ hmem) (by decide)⟩

theorem Flat.plain {t : Term} (h : t.Flat) : t.Plain := by
  induction h with
  | iterator h => exact .iterator h
  | constant h => exact .constant h
  | literal h => exact .literal h
  | arith op _ _ _ _ ihl ihr => exact .arith op ihl ihr

/-! ### The words that are shown -/

def mentionsIterator (iterators : List String) (args : List Term) : Bool :=
  iterators.any (· ∈ symbolsAll args)

/-- Whether iterators are written in the place of arguments: there are no parentheses among them, and
they mention an iterator. -/
def isReplaced (iterators : List String) (args : List Term) : Bool :=
  !('(' ∈ argumentText args) && mentionsIterator iterators args

def wordsOf (text : String) : List String :=
  (wordsFrom 0 text.toList).map fun word => String.ofList word.1

mutual

/-- The words of a term that are left in a script, those in numbers included. -/
def shown (iterators : List String) : Term → List String
  | iterator name => [name]
  | constant name => [name]
  | literal text => wordsOf text
  | apply _ args => if isReplaced iterators args then [] else shownAll iterators args
  | arith left _ right => left.shown iterators ++ right.shown iterators

def shownAll (iterators : List String) : List Term → List String
  | [] => []
  | t :: ts => t.shown iterators ++ shownAll iterators ts

end

theorem shownAll_eq (iterators : List String) (ts : List Term) :
    shownAll iterators ts = ts.flatMap (shown iterators) := by
  induction ts with
  | nil => rfl
  | cons t ts ih => rw [shownAll, ih, List.flatMap_cons]

/-- Words that are not applied to anything. -/
def unapplied (words : List String) : List Use :=
  words.map fun word => (word.toList, none)

theorem usesOf_literal {text : String} (h : IsLiteral text) :
    UsesOf text.toList (unapplied (wordsOf text)) := by
  have hparen : '(' ∉ text.toList := fun hmem =>
    absurd (isNumeralChar_of_isLiteral h _ hmem) (by decide)
  have huses : unapplied (wordsOf text) = usesFrom 0 text.toList := by
    rw [unapplied, wordsOf, wordsFrom_eq, List.map_map, List.map_map]
    refine (List.map_congr_left fun use huse => ?_).trans (List.map_id _)
    have hnone := eq_none_of_mem_usesFrom hparen huse
    obtain ⟨word, arguments⟩ := use
    subst hnone
    simp
  rw [huses]
  exact .of_not_mem hparen

theorem filter_argumentText (q : Char → Bool) (args : List Term) :
    (argumentText args).filter q =
      ([',', ' '].filter q).intercalate (args.map fun t => t.text.toList.filter q) := by
  rw [argumentText_eq, filter_intercalate, List.map_map]
  rfl

section Spaces

variable {q : Char → Bool} (hq : ∀ c, c ≠ ' ' → q c)
include hq

theorem filter_word {w : List Char} (h : IsAsciiWord w) : w.filter q = w := by
  rw [List.filter_eq_self]
  intro c hc
  refine hq c ?_
  rintro rfl
  exact absurd (h.rest _ hc) (by decide)

theorem filter_literal {text : String} (h : IsLiteral text) : text.toList.filter q = text.toList := by
  rw [List.filter_eq_self]
  intro c hc
  refine hq c ?_
  rintro rfl
  exact absurd (isNumeralChar_of_isLiteral h _ hc) (by decide)

theorem separates_filter {sep : List Char} (h : Separates sep) (hne : sep.any (· ≠ ' ')) :
    Separates (sep.filter q) := by
  obtain ⟨c, hc, hspace⟩ := List.any_eq_true.mp hne
  have hkept : c ∈ sep.filter q := List.mem_filter.mpr ⟨hc, hq c (of_decide_eq_true hspace)⟩
  refine ⟨List.ne_nil_of_mem hkept, fun c hc => ?_, fun c hc => ?_,
    fun hmem => h.noOpening (List.mem_of_mem_filter hmem)⟩
  · exact h.ascii c (List.mem_of_mem_filter hc)
  · exact h.noWord c (List.mem_of_mem_filter hc)

theorem separates_filter_spaced (op : ArithOp) : Separates (op.spaced.filter q) := by
  refine separates_filter hq op.separates_spaced ?_
  cases op <;> decide

theorem separates_filter_listed : Separates ([',', ' '].filter q) :=
  separates_filter hq separates_listed (by decide)

/-- The words of a term without parentheses, with spaces between them or without. -/
theorem Flat.usesOf {t : Term} (h : t.Flat) (iterators : List String) :
    UsesOf (t.text.toList.filter q) (unapplied (t.shown iterators)) := by
  induction h with
  | iterator h =>
    rw [text, filter_word hq h]
    exact .word h
  | constant h =>
    rw [text, filter_word hq h]
    exact .word h
  | literal h =>
    rw [text, filter_literal hq h]
    exact usesOf_literal h
  | arith op hleft hright _ _ ihl ihr =>
    rw [toList_text_flat hleft hright, List.filter_append, List.filter_append, shown, unapplied,
      List.map_append]
    exact ihl.separated (separates_filter_spaced hq op) ihr

/-- A term without parentheses mentions its symbols and nothing else. -/
theorem Flat.mentions_iff {t : Term} (h : t.Flat) {name : String} (hname : IsAsciiWord name.toList) :
    mentions (t.text.toList.filter q) name ↔ name ∈ t.symbols := by
  induction h with
  | iterator h =>
    rw [text, filter_word hq h, mentions_word h.rest, String.toList_inj, symbols,
      List.mem_singleton]
  | constant h =>
    rw [text, filter_word hq h, mentions_word h.rest, String.toList_inj, symbols,
      List.mem_singleton]
  | literal h =>
    rw [text, filter_literal hq h, symbols]
    simpa using not_mentions_literal h hname
  | arith op hleft hright _ _ ihl ihr =>
    rw [toList_text_flat hleft hright, List.filter_append, List.filter_append,
      mentions_separated hname.ne_nil (separates_filter_spaced hq op), ihl, ihr, symbols,
      List.mem_append]

theorem usesOf_argumentText {args : List Term} (h : ∀ t ∈ args, t.Flat) (iterators : List String) :
    UsesOf ((argumentText args).filter q) (unapplied (shownAll iterators args)) := by
  rw [filter_argumentText, shownAll_eq, unapplied, List.map_flatMap]
  exact .joined (separates_filter_listed hq) fun t ht => (h t ht).usesOf hq iterators

theorem mentions_argumentText {args : List Term} (h : ∀ t ∈ args, t.Flat) {name : String}
    (hname : IsAsciiWord name.toList) :
    mentions ((argumentText args).filter q) name ↔ name ∈ symbolsAll args := by
  rw [filter_argumentText, mentions_intercalate hname.ne_nil (separates_filter_listed hq),
    symbolsAll_eq, List.mem_flatMap]
  simp only [List.mem_map, exists_exists_and_eq_and]
  exact exists_congr fun t => and_congr_right fun ht => (h t ht).mentions_iff hq hname

end Spaces

end Term

end LoopNest
