import LoopNest.Proofs.Relocation
import LoopNest.Proofs.Spelling
import Mathlib.Data.List.Find

/-!
# Texts on the line behind another

A newline is no part of a lexeme, so what the scanner takes off a text it also takes if the text goes
on with a newline. Gaps end there too, except between brackets and behind a backslash. Where neither
is open at the end of a text, the tokens of a second text on the next line are the tokens that it has
alone, shifted.
-/

namespace LoopNest

namespace Scan

/-! ### Lexemes before a newline -/

variable (cs more : List Char)

theorem takeWhile_line {p : Char → Bool} (hp : p '\n' = false) :
    (cs ++ '\n' :: more).takeWhile p = cs.takeWhile p := by
  induction cs with
  | nil => simp [hp]
  | cons c cs ih => simp [List.takeWhile_cons, ih]

theorem startsWithDigit_line : startsWithDigit (cs ++ '\n' :: more) = startsWithDigit cs := by
  cases cs <;> rfl

theorem fraction_line : fraction (cs ++ '\n' :: more) = fraction cs := by
  cases cs with
  | nil => rfl
  | cons c cs =>
    by_cases hc : c = '.'
    · subst hc
      have hdigits := takeWhile_line (p := Char.isDigit) cs more rfl
      simp only [List.cons_append, fraction, startsWithDigit_line, hdigits]
    · unfold fraction
      split <;> split <;> simp_all

theorem exponentHead_line : exponentHead (cs ++ '\n' :: more) = exponentHead cs := by
  cases cs with
  | nil => rfl
  | cons c cs =>
    cases cs with
    | nil => simp [exponentHead]
    | cons d cs => rfl

theorem prefix_append_of_drop {a b cs : List Char} (ha : a <+: cs) (hb : b <+: cs.drop a.length) :
    a ++ b <+: cs := by
  obtain ⟨rest, rfl⟩ := ha
  rw [List.drop_left] at hb
  exact (List.prefix_append_right_inj a).mpr hb

theorem fraction_isPrefix : fraction cs <+: cs := by
  unfold fraction
  split
  · split
    · exact (List.prefix_cons_inj '.').mpr (List.takeWhile_prefix _)
    · exact List.nil_prefix
  · exact List.nil_prefix

theorem exponentHead_isPrefix : exponentHead cs <+: cs := by
  unfold exponentHead
  split
  · split
    · split
      · split <;> simp
      · simp
    · exact List.nil_prefix
  · exact List.nil_prefix

theorem drop_line {a cs : List Char} (h : a <+: cs) (more : List Char) :
    (cs ++ '\n' :: more).drop a.length = cs.drop a.length ++ '\n' :: more :=
  List.drop_append_of_le_length h.length_le

/-- The parts of a number stand one behind the other. -/
theorem parts_isPrefix {cs whole point head digits : List Char}
    (hwhole : cs.takeWhile Char.isDigit = whole) (hpoint : fraction (cs.drop whole.length) = point)
    (hhead : exponentHead (cs.drop (whole ++ point).length) = head)
    (hdigits : (cs.drop ((whole ++ point).length + head.length)).takeWhile Char.isDigit = digits) :
    whole <+: cs ∧ whole ++ point <+: cs ∧ whole ++ point ++ head <+: cs ∧
      whole ++ point ++ (head ++ digits) <+: cs := by
  have h₁ : whole <+: cs := hwhole ▸ List.takeWhile_prefix _
  have h₂ : whole ++ point <+: cs := prefix_append_of_drop h₁ (hpoint ▸ fraction_isPrefix _)
  have h₃ : whole ++ point ++ head <+: cs :=
    prefix_append_of_drop h₂ (hhead ▸ exponentHead_isPrefix _)
  refine ⟨h₁, h₂, h₃, ?_⟩
  rw [← List.append_assoc]
  refine prefix_append_of_drop h₃ ?_
  rw [List.length_append, ← hdigits]
  exact List.takeWhile_prefix _

/-- A number is read from its own characters, and a newline ends it. -/
theorem number_line : (number cs).text <+: cs ∧ number (cs ++ '\n' :: more) = number cs := by
  unfold number
  dsimp only
  generalize hwhole : cs.takeWhile Char.isDigit = whole
  generalize hpoint : fraction (cs.drop whole.length) = point
  generalize hhead : exponentHead (cs.drop (whole ++ point).length) = head
  generalize hdigits : (cs.drop ((whole ++ point).length + head.length)).takeWhile Char.isDigit =
    digits
  obtain ⟨h₁, h₂, h₃, h₄⟩ := parts_isPrefix hwhole hpoint hhead hdigits
  have htext : whole ++ point ++ (if head.isEmpty then [] else head ++ digits) <+: cs := by
    split
    · rwa [List.append_nil]
    · exact h₄
  have hdigits' : ((cs ++ '\n' :: more).drop ((whole ++ point).length + head.length)).takeWhile
      Char.isDigit = digits := by
    rw [← List.length_append, drop_line h₃, takeWhile_line _ more rfl, List.length_append, hdigits]
  rw [takeWhile_line cs more rfl, hwhole, drop_line h₁, fraction_line, hpoint, drop_line h₂,
    exponentHead_line, hhead, hdigits', drop_line htext]
  constructor
  · split
    · exact h₃
    · split
      · next c rest hrest =>
        split
        · exact prefix_append_of_drop htext (by rw [hrest]; exact ⟨rest, rfl⟩)
        · exact htext
      · exact htext
  · cases cs.drop (whole ++ point ++ if head.isEmpty then [] else head ++ digits).length with
    | nil => rfl
    | cons c rest => rfl

theorem identifier_line (c : Char) : identifier c (cs ++ '\n' :: more) = identifier c cs := by
  unfold identifier
  rw [takeWhile_line cs more (by decide)]

theorem prefix_before_iff {x : Char} {p : List Char} (hp : x ∉ p) :
    p <+: cs ++ x :: more ↔ p <+: cs := by
  induction p generalizing cs with
  | nil => simp
  | cons c p ih =>
    simp only [List.mem_cons, not_or] at hp
    cases cs with
    | nil =>
      rw [List.nil_append, List.cons_prefix_cons]
      simp [Ne.symm hp.1]
    | cons d cs => rw [List.cons_append, List.cons_prefix_cons, List.cons_prefix_cons, ih cs hp.2]

theorem spelling?_line {cs : List Char} (h : cs ≠ []) :
    spelling? (cs ++ '\n' :: more) = spelling? cs := by
  obtain ⟨c, cs, rfl⟩ := List.exists_cons_of_ne_nil h
  have hline : ∀ s ∈ spellings, '\n' ∉ s.1 ∨ s.1 = ['\n'] := by decide
  unfold spelling?
  refine List.find?_congr fun s hs => Bool.eq_iff_iff.mpr ?_
  rw [List.isPrefixOf_iff_prefix, List.isPrefixOf_iff_prefix]
  rcases hline s hs with hnone | hone
  · exact prefix_before_iff _ more hnone
  · rw [hone, List.cons_append, List.cons_prefix_cons, List.cons_prefix_cons]
    simp

theorem lexeme?_line {cs : List Char} (h : cs ≠ []) (depth : Nat) :
    lexeme? depth (cs ++ '\n' :: more) = lexeme? depth cs := by
  obtain ⟨c, cs, rfl⟩ := List.exists_cons_of_ne_nil h
  have hspelling := spelling?_line more h
  rw [List.cons_append] at hspelling ⊢
  rw [lexeme?, lexeme?, hspelling, startsWithDigit_line, ← List.cons_append, (number_line ..).2,
    identifier_line]

theorem eq_nil_of_lexeme? {depth : Nat} {cs : List Char} (h : lexeme? depth cs = none) :
    cs = [] := by
  unfold lexeme? at h
  split at h
  · rfl
  · split at h
    · cases h
    · split at h
      · cases h
      · split at h <;> cases h

theorem lexeme?_isPrefix {depth : Nat} {cs : List Char} {l : Lexeme} (h : lexeme? depth cs = some l) :
    l.text <+: cs := by
  unfold lexeme? at h
  split at h
  · cases h
  · next c cs =>
    split at h
    · next hs =>
      cases h
      exact (spelling?_eq_some hs).2
    · split at h
      · cases h
        exact (number_line _ []).1
      · split at h <;> cases h
        · exact (List.prefix_cons_inj c).mpr (List.takeWhile_prefix _)
        · exact ⟨cs, rfl⟩

/-! ### Gaps -/

theorem gap_isPrefix (depth : Nat) (comment : Bool) (cs : List Char) :
    gap depth comment cs <+: cs := by
  fun_induction gap depth comment cs <;> simp_all [List.cons_prefix_cons]

/-- A gap before a newline ends where it ended, unless an escape or a bracket makes the newline a
part of it. -/
theorem gap_line {depth : Nat} {comment : Bool} (cs more : List Char)
    (hend : depth = 0 ∨ cs.drop (gap depth comment cs).length ≠ [])
    (hescape : cs.drop (gap depth comment cs).length ≠ ['\\']) :
    gap depth comment (cs ++ '\n' :: more) = gap depth comment cs := by
  fun_induction gap depth comment cs with
  | case1 comment =>
    have hdepth : depth = 0 := by simpa using hend
    rw [List.nil_append, gap.eq_def]
    simp [hdepth]
  | case7 comment cs hline =>
    cases cs with
    | nil => exact absurd rfl hescape
    | cons d cs =>
      rw [List.cons_append, List.cons_append, gap.eq_def]
      simp_all
  | case8 comment c cs h₁ h₂ h₃ h₄ h₅ =>
    rw [List.cons_append, gap.eq_def]
    simp only [if_neg h₁, if_neg h₂, if_neg h₃, if_neg h₄, if_neg h₅]
  | _ =>
    rw [List.cons_append, gap.eq_def]
    simp_all

end Scan

/-! ### Steps of the scanner -/

namespace Scanner

open Scan

/-- A step over a token: the scanner skips a gap and takes a lexeme. -/
inductive Step : Scanner → Token → Scanner → Prop where
  | mk {gap text rest : List Char} {depth : Nat} {kind : Token.Kind} (place : Location)
      (finished : Bool) (hgap : Scan.gap depth false (gap ++ (text ++ rest)) = gap)
      (hlexeme : lexeme? depth (text ++ rest) = some ⟨text, .ok kind⟩) :
      Step ⟨gap ++ (text ++ rest), place, depth, finished⟩
        ⟨kind, ⟨place.after gap, (place.after gap).after text⟩, String.ofList text⟩
        ⟨rest, (place.after gap).after text, depthAfter depth kind, finished⟩

theorem Step.next_eq {s s₁ : Scanner} {t : Token} (h : Step s t s₁) : s.next = (.token t, s₁) := by
  cases h with
  | mk place finished hgap hlexeme =>
    simp only [next, hgap, List.drop_left, hlexeme]

theorem Step.isEnd {s s₁ : Scanner} {t : Token} (h : Step s t s₁) : t.isEnd = false := by
  cases h with
  | mk place finished hgap hlexeme =>
    exact decide_eq_false (spelled_of_lexeme? hlexeme rfl).1

theorem Step.length_lt {s s₁ : Scanner} {t : Token} (h : Step s t s₁) :
    s₁.rest.length < s.rest.length := by
  have hnext := Step.next_eq h
  have hlt := next_length_lt (s := s) (by rw [hnext]; exact h.isEnd)
  rwa [hnext] at hlt

theorem Step.of_next {s s₁ : Scanner} {t : Token} (h : s.next = (.token t, s₁))
    (ht : t.isEnd = false) : Step s t s₁ := by
  obtain ⟨cs, place, depth, finished⟩ := s
  obtain ⟨rest, hrest⟩ := gap_isPrefix depth false cs
  unfold next at h
  dsimp only at h
  generalize hg : Scan.gap depth false cs = g at h hrest
  subst hrest
  rw [List.drop_left] at h
  cases hl : lexeme? depth rest with
  | none =>
    rw [hl] at h
    cases h
    cases ht
  | some l =>
    obtain ⟨text, outcome⟩ := l
    obtain ⟨behind, rfl⟩ := lexeme?_isPrefix hl
    rw [hl] at h
    cases outcome with
    | error cause => cases h
    | ok kind =>
      simp only [List.drop_left] at h
      cases h
      exact .mk place finished hg hl

/-- The scanner is at the end of the input if nothing but a gap is left. -/
theorem next_eq_end_iff {s : Scanner} {t : Token} (ht : t.isEnd) :
    s.next.1 = .token t ↔ Scan.gap s.depth false s.rest = s.rest ∧
      t = ⟨.endOfInput, ⟨s.place.after s.rest, s.place.after s.rest⟩, ""⟩ := by
  constructor
  · intro h
    unfold next at h
    dsimp only at h
    cases hl : lexeme? s.depth (s.rest.drop (Scan.gap s.depth false s.rest).length) with
    | none =>
      have hgap : Scan.gap s.depth false s.rest = s.rest :=
        (gap_isPrefix ..).eq_of_length_le (List.drop_eq_nil_iff.mp (eq_nil_of_lexeme? hl))
      rw [hl] at h
      cases h
      exact ⟨hgap, by rw [hgap]⟩
    | some l =>
      rw [hl] at h
      cases hout : l.outcome with
      | error cause =>
        simp only [hout] at h
        cases h
      | ok kind =>
        simp only [hout] at h
        cases h
        exact absurd (of_decide_eq_true ht) (spelled_of_lexeme? hl hout).1
  · rintro ⟨hgap, rfl⟩
    have hrest : s.rest.drop s.rest.length = [] := List.drop_length
    simp only [next, hgap, hrest, lexeme?]

/-! ### Runs of the scanner -/

/-- The tokens on the way from one scanner to another. -/
inductive Reads : Scanner → List Token → Scanner → Prop where
  | done (s : Scanner) : Reads s [] s
  | token {s s₁ s' : Scanner} {t : Token} {ts : List Token} (head : Step s t s₁)
      (rest : Reads s₁ ts s') : Reads s (t :: ts) s'

theorem exists_reads_of_run {n : Nat} {s : Scanner} {ts : List Token} {stop : Token}
    (h : (s.run n).1 = ts.map .token ++ [.token stop]) (hstop : stop.isEnd) :
    ∃ s', Reads s ts s' ∧ s'.next.1 = .token stop := by
  induction n generalizing s ts with
  | zero => simp [run] at h
  | succ n ih =>
    rcases hnext : s.next with ⟨item, s₁⟩
    cases hend : item.isEnd with
    | true =>
      simp only [run, hnext, hend, if_true] at h
      cases ts with
      | nil =>
        refine ⟨s, .done s, ?_⟩
        rw [hnext]
        exact List.cons.inj h |>.1
      | cons t ts => simp at h
    | false =>
      simp only [run, hnext, hend, Bool.false_eq_true, if_false] at h
      cases ts with
      | nil =>
        cases List.cons.inj h |>.1
        rw [Item.isEnd, hstop] at hend
        cases hend
      | cons t ts =>
        obtain ⟨rfl, htail⟩ := List.cons.inj h
        obtain ⟨s', hreads, hs'⟩ := ih htail
        exact ⟨s', .token (Step.of_next hnext hend) hreads, hs'⟩

theorem Reads.run {s s' : Scanner} {ts : List Token} (h : Reads s ts s') {stop : Token}
    (hnext : s'.next.1 = .token stop) (hstop : stop.isEnd) {n : Nat} (hn : s.rest.length < n) :
    (s.run n).1 = ts.map .token ++ [.token stop] := by
  induction h generalizing n with
  | done s =>
    obtain ⟨n, rfl⟩ := Nat.exists_eq_succ_of_ne_zero (Nat.ne_zero_of_lt hn)
    have hend : s.next.1.isEnd = true := by rwa [hnext]
    simp only [Scanner.run, hend, if_true]
    rw [hnext]
    rfl
  | @token s s₁ s' t ts head rest ih =>
    obtain ⟨n, rfl⟩ := Nat.exists_eq_succ_of_ne_zero (Nat.ne_zero_of_lt hn)
    have hlt : s₁.rest.length < n := Nat.lt_of_lt_of_le head.length_lt (Nat.le_of_lt_succ hn)
    have hend : (Item.token t).isEnd = false := head.isEnd
    simp only [Scanner.run, Step.next_eq head, hend, Bool.false_eq_true, if_false, ih hnext hlt]
    rfl

/-! ### Texts on other lines -/

/-- The scanner with a line break and more text behind its own. -/
def before (s : Scanner) (more : List Char) : Scanner :=
  { s with rest := s.rest ++ '\n' :: more }

/-- The scanner of the same text further down. -/
def shift (lines bytes : Nat) (s : Scanner) : Scanner :=
  { s with place := s.place.shift lines bytes }

section Step

variable {s s₁ : Scanner} {t : Token} (h : Step s t s₁)
include h

theorem Step.before (more : List Char) : Step (s.before more) t (s₁.before more) := by
  cases h with
  | @mk gap text rest depth kind place finished hgap hlexeme =>
    have hne : text ++ rest ≠ [] := by
      intro hnil
      rw [hnil] at hlexeme
      cases hlexeme
    have hescape : text ++ rest ≠ ['\\'] := by
      intro hslash
      rw [hslash] at hlexeme
      cases hlexeme
    have hgap' := gap_line (gap ++ (text ++ rest)) more
      (.inr (by rwa [hgap, List.drop_left])) (by rwa [hgap, List.drop_left])
    have hlexeme' := (lexeme?_line more hne depth).trans hlexeme
    rw [hgap, List.append_assoc, List.append_assoc] at hgap'
    rw [List.append_assoc] at hlexeme'
    have hstep := Step.mk place finished hgap' hlexeme'
    rw [← List.append_assoc text, ← List.append_assoc gap] at hstep
    exact hstep

theorem Step.shift (lines bytes : Nat) :
    Step (s.shift lines bytes) (t.relocate (Span.shift lines bytes)) (s₁.shift lines bytes) := by
  cases h with
  | @mk gap text rest depth kind place finished hgap hlexeme =>
    have hstep := Step.mk (place.shift lines bytes) finished hgap hlexeme
    rw [← Location.shift_after, ← Location.shift_after] at hstep
    exact hstep

theorem Step.isReal (hline : 0 < s.place.line) : t.span.IsReal ∧ 0 < s₁.place.line := by
  cases h with
  | mk place finished hgap hlexeme =>
    simp only [Span.IsReal, Location.line_after]
    exact ⟨⟨Nat.add_pos_left hline _, Nat.add_pos_left (Nat.add_pos_left hline _) _⟩,
      Nat.add_pos_left (Nat.add_pos_left hline _) _⟩

/-- A scanner goes on towards the same place, and counts the brackets that are open. -/
theorem Step.keeps : s₁.place.after s₁.rest = s.place.after s.rest ∧ s₁.finished = s.finished ∧
    s₁.depth = depthAfter s.depth t.kind := by
  cases h with
  | mk place finished hgap hlexeme =>
    rw [Location.after_append, Location.after_append]
    exact ⟨rfl, rfl, rfl⟩

end Step

section Reads

variable {s s' : Scanner} {ts : List Token} (h : Reads s ts s')
include h

theorem Reads.before (more : List Char) : Reads (s.before more) ts (s'.before more) := by
  induction h with
  | done s => exact .done _
  | token head rest ih => exact .token (head.before more) ih

theorem Reads.shift (lines bytes : Nat) :
    Reads (s.shift lines bytes) (ts.map (Token.relocate (Span.shift lines bytes)))
      (s'.shift lines bytes) := by
  induction h with
  | done s => exact .done _
  | token head rest ih => exact .token (head.shift lines bytes) ih

theorem Reads.isReal (hline : 0 < s.place.line) :
    ∀ t ∈ ts, t.kind ≠ .endOfInput ∧ t.span.IsReal := by
  induction h with
  | done s => simp
  | token head rest ih =>
    obtain ⟨hreal, hline⟩ := head.isReal hline
    exact List.forall_mem_cons.mpr ⟨⟨of_decide_eq_false head.isEnd, hreal⟩, ih hline⟩

theorem Reads.keeps : s'.place.after s'.rest = s.place.after s.rest ∧ s'.finished = s.finished ∧
    s'.depth = (ts.map Token.kind).foldl depthAfter s.depth := by
  induction h with
  | done s => exact ⟨rfl, rfl, rfl⟩
  | token head rest ih =>
    obtain ⟨hplace, hfinished, hdepth⟩ := ih
    obtain ⟨hplace₁, hfinished₁, hdepth₁⟩ := head.keeps
    refine ⟨hplace.trans hplace₁, hfinished.trans hfinished₁, ?_⟩
    rw [hdepth, hdepth₁]
    rfl

theorem Reads.append {s'' : Scanner} {us : List Token} (h' : Reads s' us s'') :
    Reads s (ts ++ us) s'' := by
  induction h with
  | done s => exact h'
  | token head rest ih => exact .token head (ih h')

end Reads

/-- Outside brackets the line break behind a text is a token. -/
theorem step_line {s : Scanner} (hgap : Scan.gap s.depth false s.rest = s.rest)
    (hdepth : s.depth = 0) (more : List Char) :
    Step (s.before more)
      ⟨.newline, ⟨s.place.after s.rest, (s.place.after s.rest).next '\n'⟩, "\n"⟩
      ⟨more, (s.place.after s.rest).next '\n', 0, s.finished⟩ := by
  obtain ⟨cs, place, depth, finished⟩ := s
  subst hdepth
  have hline : Scan.gap 0 false (cs ++ (['\n'] ++ more)) = cs :=
    (gap_line cs more (.inl rfl) (by rw [hgap]; simp)).trans hgap
  exact .mk place finished hline rfl

end Scanner

namespace Scan

/-- The tokens before the end of the input are places in the text. -/
theorem isReal_of_tokens {source : String} {ts : List Token} {stop : Token}
    (h : tokens source = .ok (ts ++ [stop])) (hstop : stop.isEnd) :
    ∀ t ∈ ts, t.kind ≠ .endOfInput ∧ t.span.IsReal := by
  rw [tokens, tokensOf_eq_ok_iff, items, List.map_append] at h
  obtain ⟨s, hreads, -⟩ := Scanner.exists_reads_of_run h hstop
  exact hreads.isReal Nat.one_pos

/-- The tokens of two texts, the second on the line behind the first. -/
theorem tokens_join {source₁ source₂ : String} {ts₁ ts₂ : List Token} {stop₁ stop₂ : Token}
    (h₁ : tokens source₁ = .ok (ts₁ ++ [stop₁])) (hstop₁ : stop₁.isEnd)
    (hdepth : (ts₁.map Token.kind).foldl depthAfter 0 = 0)
    (h₂ : tokens source₂ = .ok (ts₂ ++ [stop₂])) (hstop₂ : stop₂.isEnd) :
    ∃ line : Token, line.kind = .newline ∧ tokens (source₁ ++ "\n" ++ source₂) =
      .ok (ts₁ ++ line :: (ts₂ ++ [stop₂]).map (Token.relocate
        (Span.shift (source₁.toList.count '\n' + 1) (source₁.utf8ByteSize + 1)))) := by
  generalize hlines : source₁.toList.count '\n' + 1 = lines
  generalize hbytes : source₁.utf8ByteSize + 1 = bytes
  rw [tokens, tokensOf_eq_ok_iff, items, List.map_append] at h₁ h₂
  obtain ⟨s₁, hreads₁, hend₁⟩ := Scanner.exists_reads_of_run h₁ hstop₁
  obtain ⟨s₂, hreads₂, hend₂⟩ := Scanner.exists_reads_of_run h₂ hstop₂
  obtain ⟨hplace, hfinished, hopen⟩ := hreads₁.keeps
  -- Behind the line break the scanner is at the start of the second text, further down.
  have hline := Scanner.step_line ((Scanner.next_eq_end_iff hstop₁).mp hend₁).1
    (hopen.trans hdepth) source₂.toList
  have hstart : (⟨source₂.toList, (s₁.place.after s₁.rest).next '\n', 0, s₁.finished⟩ : Scanner) =
      (Scanner.ofText source₂.toList).shift lines bytes := by
    rw [hplace, hfinished, ← hlines, ← hbytes]
    exact congrArg (Scanner.mk source₂.toList · 0 false) (Location.start_after_line source₁)
  rw [hstart] at hline
  have hreads := (hreads₁.before source₂.toList).append (.token hline (hreads₂.shift lines bytes))
  have hend : (s₂.shift lines bytes).next.1 =
      .token (stop₂.relocate (Span.shift lines bytes)) := by
    obtain ⟨hgap, rfl⟩ := (Scanner.next_eq_end_iff hstop₂).mp hend₂
    refine (Scanner.next_eq_end_iff rfl).mpr ⟨hgap, ?_⟩
    rw [Scanner.shift, ← Location.shift_after]
    rfl
  refine ⟨⟨.newline, ⟨s₁.place.after s₁.rest, (s₁.place.after s₁.rest).next '\n'⟩, "\n"⟩, rfl, ?_⟩
  have htext : (source₁ ++ "\n" ++ source₂).toList = source₁.toList ++ '\n' :: source₂.toList := by
    simp
  rw [tokens, tokensOf_eq_ok_iff, items, htext]
  refine (hreads.run hend hstop₂ (Nat.lt_succ_self _)).trans ?_
  simp

end Scan

end LoopNest
