import LoopNest.Proofs.CGrammar
import LoopNest.Proofs.ScanLexer
import Mathlib.Tactic.FinCases

/-!
# The tokens of C texts

Names and numbers spell themselves in C as well, operators with blanks around them separate, and
parentheses and square brackets enclose. A sign is a token of its own before an operand, as long as
the operand does not begin with the same sign.
-/

namespace LoopNest.C

open Scan

theorem lexer_step_eq_some_iff {cs rest : List Char} {t : Token} :
    lexer.step () cs = some (t, (), rest) ↔ token? cs = some (t, rest) := by
  simp [lexer]

/-! ### Names and numbers -/

theorem spells_name {text : String} (h : IsName text) : lexer.Spells text [.name text] := by
  obtain ⟨c, cs, htext, hc, hcs, -⟩ := h
  intro _ tail htail
  have hdot : c ≠ '.' := by
    rintro rfl
    exact absurd hc (by decide)
  have htake : (cs ++ tail).takeWhile continuesName = cs := by
    refine takeWhile_append_stop hcs fun d hd => ?_
    have := endsNumber_of_bounded htail d hd
    simp_all [endsNumber]
  have hdrop : (cs ++ tail).dropWhile continuesName = tail := by
    have := List.takeWhile_append_dropWhile (p := continuesName) (l := cs ++ tail)
    rw [htake] at this
    exact List.append_cancel_left this
  have hstep : token? (c :: (cs ++ tail)) = some (.name text, tail) := by
    simp only [token?, not_isDigit_of_startsName hc, hdot, decide_false, Bool.false_and,
      Bool.or_self, Bool.false_eq_true, if_false, hc, if_true, htake, hdrop, ← htext,
      String.ofList_toList]
  rw [htext]
  exact .token (lexer_step_eq_some_iff.mpr hstep) (.done _ tail)

theorem continuesName_of_isDigit {c : Char} (h : c.isDigit) :
    continuesName c ∧ isExponentLetter c = false := by
  have hdigit : ∀ d ∈ ['e', 'E', 'p', 'P'], d.isDigit = false := by simp
  have hletter : ∀ d ∈ ['e', 'E', 'p', 'P'], c ≠ d := by
    rintro d hd rfl
    simp [hdigit c hd] at h
  constructor
  · simp [continuesName, Text.isIdentifierContinue, isAscii_of_isDigit h,
      Text.isAsciiAlphanumeric, h]
  · simpa [isExponentLetter, and_assoc] using hletter

theorem numberTail_digits {ds : List Char} (h : ∀ c ∈ ds, c.isDigit) (rest : List Char) :
    numberTail false (ds ++ rest) = ds ++ numberTail false rest := by
  induction ds with
  | nil => rfl
  | cons d ds ih =>
    obtain ⟨hd, hds⟩ := List.forall_mem_cons.mp h
    obtain ⟨hname, hletter⟩ := continuesName_of_isDigit hd
    simp [numberTail, hname, hletter, ih hds]

theorem numberTail_fraction {point : List Char} (h : IsFraction point) (rest : List Char) :
    numberTail false (point ++ rest) = point ++ numberTail false rest := by
  cases h with
  | absent => rfl
  | point ds hds =>
    have hletter : isExponentLetter '.' = false := by decide
    simp [numberTail, hletter, numberTail_digits hds.2]

theorem numberTail_exponent {exponent : List Char} (h : IsExponent exponent) (rest : List Char) :
    numberTail false (exponent ++ rest) = exponent ++ numberTail false rest := by
  cases h with
  | absent => rfl
  | present head ds hhead hds =>
    obtain ⟨d, ds, rfl⟩ := List.exists_cons_of_ne_nil hds.1
    have hfirst := continuesName_of_isDigit (hds.2 d List.mem_cons_self)
    have hrest := numberTail_digits (fun c hc => hds.2 c (List.mem_cons_of_mem _ hc)) rest
    obtain ⟨e, he, hhead⟩ := hhead
    have hletter : continuesName e ∧ isExponentLetter e := by
      rcases he with rfl | rfl <;> decide
    have hsign : isExponentLetter '+' = false ∧ isExponentLetter '-' = false := by decide
    rcases hhead with rfl | rfl | rfl <;>
      simp [numberTail, hletter, hsign, hfirst, hrest]

theorem numberTail_bounded {tail : List Char} (h : Lexer.Bounded tail) :
    numberTail false tail = [] := by
  cases tail with
  | nil => rfl
  | cons c tail =>
    have := endsNumber_of_bounded h c rfl
    simp_all [endsNumber, numberTail]

theorem spells_numeral {text : String} (h : IsNumeral text) : lexer.Spells text [.number text] := by
  obtain ⟨c, cs, hcs, hbegins⟩ := h.begins
  obtain ⟨whole, point, exponent, htext, hw, hp, he, -⟩ := h
  intro _ tail htail
  have hnumber : numberTail false (text.toList ++ tail) = text.toList := by
    rw [htext, List.append_assoc, List.append_assoc, numberTail_digits hw, numberTail_fraction hp,
      numberTail_exponent he, numberTail_bounded htail, List.append_nil]
  have hletter : isExponentLetter c = false := by
    have hc := hbegins []
    simp only [Bool.or_eq_true, Bool.and_eq_true, decide_eq_true_eq] at hc
    rcases hc with hd | ⟨rfl, -⟩
    · exact (continuesName_of_isDigit hd).2
    · decide
  have htail' : numberTail false (cs ++ tail) = cs := by
    rw [hcs, List.cons_append, numberTail, hletter] at hnumber
    split at hnumber
    · exact (List.cons.inj hnumber).2
    · cases hnumber
  have hstep : token? (c :: (cs ++ tail)) = some (.number text, tail) := by
    simp only [token?, hbegins tail, if_true, htail', List.drop_left, ← hcs, String.ofList_toList]
  rw [hcs]
  exact .token (lexer_step_eq_some_iff.mpr hstep) (.done _ tail)

/-! ### Symbols -/

theorem token?_symbol {c : Char} {cs : List Char} {p : String} (hd : c.isDigit = false)
    (hdot : c ≠ '.') (hs : startsName c = false) (hp : punctuator? (c :: cs) = some p)
    (hc : p ∉ comments) : token? (c :: cs) = some (.symbol p, (c :: cs).drop p.toList.length) := by
  simp [token?, hd, hdot, hs, hp, hc]

/-- A symbol that no longer one begins with is taken off a text that goes on with a blank. -/
theorem separates_of_step {symbol : String}
    (h : ∀ tail, token? (symbol.toList ++ ' ' :: tail) = some (.symbol symbol, ' ' :: tail)) :
    lexer.Separates (" " ++ symbol ++ " ") (.symbol symbol) where
  bounded tail := by
    rw [String.toList_append, String.toList_append, List.append_assoc, List.append_assoc]
    exact Lexer.bounded_cons (by decide) _
  reads _ tail := by
    rw [String.toList_append, String.toList_append, List.append_assoc, List.append_assoc]
    exact .blank (.token (lexer_step_eq_some_iff.mpr (h tail)) (.blank (.done _ tail)))

theorem separates_operator {l : CLevel} {op : String} (h : op ∈ operators l) :
    lexer.Separates (" " ++ op ++ " ") (.symbol op) := by
  refine separates_of_step fun tail => ?_
  cases l <;> fin_cases h <;> rfl

theorem separates_comma : lexer.Separates ", " (.symbol ",") where
  bounded tail := Lexer.bounded_cons (by decide) _
  reads _ tail :=
    .token (show lexer.step () (',' :: ' ' :: tail) = some (_, (), ' ' :: tail) from rfl)
      (.blank (.done _ tail))

theorem encloses_round : lexer.Encloses "(" ")" (.symbol "(") (.symbol ")") where
  bounded tail := ⟨Lexer.bounded_cons (by decide) _, Lexer.bounded_cons (by decide) _⟩
  reads _ := by
    refine ⟨(), fun tail => ?_, fun tail => ?_⟩
    · have hstep : token? ('(' :: tail) = some (.symbol "(", tail) := by cases tail <;> rfl
      exact .token (lexer_step_eq_some_iff.mpr hstep) (.done _ tail)
    · have hstep : token? (')' :: tail) = some (.symbol ")", tail) := by cases tail <;> rfl
      exact .token (lexer_step_eq_some_iff.mpr hstep) (.done _ tail)

theorem encloses_square : lexer.Encloses "[" "]" (.symbol "[") (.symbol "]") where
  bounded tail := ⟨Lexer.bounded_cons (by decide) _, Lexer.bounded_cons (by decide) _⟩
  reads _ := by
    refine ⟨(), fun tail => ?_, fun tail => ?_⟩
    · have hstep : token? ('[' :: tail) = some (.symbol "[", tail) := by cases tail <;> rfl
      exact .token (lexer_step_eq_some_iff.mpr hstep) (.done _ tail)
    · have hstep : token? (']' :: tail) = some (.symbol "]", tail) := by cases tail <;> rfl
      exact .token (lexer_step_eq_some_iff.mpr hstep) (.done _ tail)

/-! ### Signs -/

/-- The characters that an operand begins with. -/
def opensOperand (c : Char) : Bool :=
  startsName c || c.isDigit || c ∈ ['.', '(', '-', '+', '~', '!']

/-- A text that begins as an operand does. -/
def Opens (text : String) : Prop :=
  ∃ c cs, text.toList = c :: cs ∧ opensOperand c

theorem Opens.append {text : String} (h : Opens text) (more : String) : Opens (text ++ more) := by
  obtain ⟨c, cs, htext, hc⟩ := h
  exact ⟨c, cs ++ more.toList, by rw [String.toList_append, htext]; rfl, hc⟩

theorem opens_of_isName {text : String} (h : IsName text) : Opens text := by
  obtain ⟨c, cs, htext, hc, -⟩ := h
  exact ⟨c, cs, htext, by simp [opensOperand, hc]⟩

theorem opens_of_isNumeral {text : String} (h : IsNumeral text) : Opens text := by
  obtain ⟨c, cs, htext, hbegins⟩ := h.begins
  refine ⟨c, cs, htext, ?_⟩
  have hc := hbegins []
  simp only [Bool.or_eq_true, Bool.and_eq_true, decide_eq_true_eq] at hc
  rcases hc with hd | ⟨rfl, -⟩
  · simp [opensOperand, hd]
  · decide

/-- The sign that a text starts with, if what follows makes no other symbol with it. -/
theorem punctuator?_sign (op : UnaryOp) {c : Char} (rest : List Char)
    (hother : c ≠ '=' ∧ c ≠ '>') (hc : op = .neg → c ≠ '-') (hc' : op = .pos → c ≠ '+') :
    punctuator? ((CText.signSymbol op).toList ++ c :: rest) = some (CText.signSymbol op) := by
  have hequal : ('=' == c) = false := by simpa using hother.1.symm
  have hgreater : ('>' == c) = false := by simpa using hother.2.symm
  cases op with
  | neg =>
    have hminus : ('-' == c) = false := by simpa using (hc rfl).symm
    simp [CText.signSymbol, punctuator?, comments, punctuators, List.isPrefixOf, hequal, hgreater,
      hminus]
  | pos =>
    have hplus : ('+' == c) = false := by simpa using (hc' rfl).symm
    simp [CText.signSymbol, punctuator?, comments, punctuators, List.isPrefixOf, hequal, hplus]
  | invert => simp [CText.signSymbol, punctuator?, comments, punctuators, List.isPrefixOf]
  | not => simp [CText.signSymbol, punctuator?, comments, punctuators, List.isPrefixOf, hequal]

/-- A sign before an operand is a token of its own, unless it would make another one with it. -/
theorem spells_sign {op : UnaryOp} {text : String} {ws : List Token} (h : lexer.Spells text ws)
    (ho : Opens text) (hc : CText.clashes op text = false) :
    lexer.Spells (CText.signSymbol op ++ text) (.symbol (CText.signSymbol op) :: ws) := by
  obtain ⟨c, cs, htext, hopens⟩ := ho
  have hother : c ≠ '=' ∧ c ≠ '>' := by
    constructor <;> rintro rfl <;> exact absurd hopens (by decide)
  intro s tail htail
  have hstep : token? ((CText.signSymbol op).toList ++ (c :: (cs ++ tail))) =
      some (.symbol (CText.signSymbol op), c :: (cs ++ tail)) := by
    have hsign := punctuator?_sign op (cs ++ tail) hother
      (by rintro rfl; simpa [CText.clashes, htext] using hc)
      (by rintro rfl; simpa [CText.clashes, htext] using hc)
    cases op <;> exact token?_symbol (by decide) (by decide) (by decide) hsign (by decide)
  rw [String.toList_append, List.append_assoc, htext]
  exact .token (lexer_step_eq_some_iff.mpr hstep) (by simpa [htext] using h s tail htail)

end LoopNest.C
