import LoopNest.Proofs.LongestLexemes
import LoopNest.Proofs.ProperTrees

/-!
# Tokens with blanks between them

The lexemes of a text with a blank behind each are read as the same tokens again. A lexeme before a
blank is taken as it is, and both readings have the same brackets open, which decides where a line
break is a token. So the kinds of the tokens depend on the lexemes alone, and comments, escaped
newlines and the layout inside brackets only separate them.
-/

namespace LoopNest

namespace Scan

/-- Whether a gap lies ahead is seen at the first character, unless that is a backslash. -/
theorem gap_eq_nil_of_head {depth : Nat} {c : Char} {cs ds : List Char} (hc : c ≠ '\\')
    (h : gap depth false (c :: cs) = []) : gap depth false (c :: ds) = [] := by
  rw [gap.eq_def] at h ⊢
  by_cases hskip : c = '#' ∨ (c = ' ' ∨ c = '\t') ∨ c = '\r' ∨ c = '\n' ∧ 0 < depth
  · rcases hskip with rfl | (rfl | rfl) | rfl | ⟨rfl, hdepth⟩ <;> simp_all
  · simp_all

/-- A backslash begins no lexeme. -/
theorem lexeme?_backslash (depth : Nat) (cs : List Char) :
    lexeme? depth ('\\' :: cs) = some ⟨['\\'], .error (.unexpectedCharacter '\\')⟩ := rfl

/-- Where no gap stands before a lexeme, none stands before it with a blank behind it. -/
theorem gap_before_blank {depth : Nat} {text rest : List Char} {kind : Token.Kind}
    (hgap : gap depth false (text ++ rest) = [])
    (hlexeme : lexeme? depth (text ++ rest) = some ⟨text, .ok kind⟩) (tail : List Char) :
    gap depth false (text ++ ' ' :: tail) = [] := by
  cases text with
  | nil => exact absurd rfl (lexeme?_text_ne_nil hlexeme)
  | cons c cs =>
    have hc : c ≠ '\\' := by
      rintro rfl
      rw [List.cons_append, lexeme?_backslash] at hlexeme
      cases hlexeme
    exact gap_eq_nil_of_head hc hgap

end Scan

namespace Scanner

open Scan

/-- A token that is taken off a text is taken off its lexeme before a blank too. -/
theorem Step.spaced {s s₁ : Scanner} {t : Token} (h : Step s t s₁) (tail : List Char) :
    lexer.step s.depth (t.lexeme.toList ++ ' ' :: tail) = some (t.word, s₁.depth, ' ' :: tail) := by
  cases h with
  | @mk gap text rest depth kind place finished hgap hlexeme =>
    have hrest := gap_drop_gap depth false (gap ++ (text ++ rest))
    rw [hgap, List.drop_left] at hrest
    have hbalanced : balanced depth kind = .ok kind := by
      cases kind with
      | right b =>
        have hopen := depth_pos_of_right hlexeme rfl
        rw [balanced, if_neg (Nat.ne_of_gt hopen)]
      | _ => rfl
    have hblank := (isLexeme_of_lexeme? hlexeme).before_blank depth tail
    rw [String.toList_ofList, hbalanced] at hblank
    rw [lexer_step_eq_some_iff, String.toList_ofList]
    exact ⟨gap_before_blank hrest hlexeme tail, text, hblank, rfl, rfl, List.drop_left.symm⟩

/-- The lexemes of some tokens with a blank behind each. -/
def spaced (ts : List Token) : List Char :=
  ts.flatMap fun t => t.lexeme.toList ++ [' ']

/-- Both readings take the same tokens and have the same brackets open. -/
theorem Reads.spaced {s s' : Scanner} {ts : List Token} (h : Reads s ts s') :
    lexer.Reads s.depth (Scanner.spaced ts) (ts.map Token.word) s'.depth [] := by
  induction h with
  | done s => exact .done _ _
  | @token s s₁ s' t ts head rest ih =>
    rw [Scanner.spaced, List.flatMap_cons, List.append_assoc, List.singleton_append]
    exact .token (head.spaced _) (.blank ih)

end Scanner

namespace Scan

/-- The end of the input is the last token. -/
theorem exists_concat_of_tokens {source : String} {ts : List Token} (h : tokens source = .ok ts) :
    ∃ us stop, ts = us ++ [stop] ∧ stop.isEnd := by
  rw [tokens, tokensOf_eq_ok_iff] at h
  have hended := items_ended source
  rw [h] at hended
  clear h
  induction ts with
  | nil => exact hended.elim
  | cons t ts ih =>
    cases ts with
    | nil => exact ⟨[], t, rfl, hended⟩
    | cons u ts =>
      obtain ⟨us, stop, hsplit, hstop⟩ := ih hended.2
      exact ⟨t :: us, stop, by rw [hsplit, List.cons_append], hstop⟩

/-- Reading a text again from its lexemes. -/
theorem exists_reads_of_tokens {source : String} {us : List Token} {stop : Token}
    (h : tokens source = .ok (us ++ [stop])) (hstop : stop.isEnd) :
    stop.word = (.endOfInput, "") ∧
      ∃ depth, lexer.Reads 0 (Scanner.spaced us) (us.map Token.word) depth [] := by
  rw [tokens, tokensOf_eq_ok_iff, List.map_append] at h
  obtain ⟨s, hreads, hend⟩ := Scanner.exists_reads_of_run h hstop
  obtain ⟨-, hstop⟩ := (Scanner.next_eq_end_iff hstop).mp hend
  constructor
  · rw [hstop]
    rfl
  · exact ⟨s.depth, hreads.spaced⟩

theorem toList_intercalate_blank {us : List Token} {stop : Token} (hstop : stop.lexeme = "") :
    (" ".intercalate ((us ++ [stop]).map Token.lexeme)).toList = Scanner.spaced us := by
  induction us with
  | nil =>
    rw [List.nil_append, List.map_singleton, String.intercalate_singleton, hstop]
    rfl
  | cons t us ih =>
    have hcons : " ".intercalate ((t :: us ++ [stop]).map Token.lexeme) =
        t.lexeme ++ " " ++ " ".intercalate ((us ++ [stop]).map Token.lexeme) := by
      cases us <;> simp
    rw [hcons, String.toList_append, String.toList_append, ih]
    rfl

theorem exists_tokens_spaced {source : String} {ts : List Token} (h : tokens source = .ok ts) :
    ∃ us, tokens (" ".intercalate (ts.map Token.lexeme)) = .ok us ∧
      us.map Token.word = ts.map Token.word := by
  obtain ⟨us, stop, rfl, hstop⟩ := exists_concat_of_tokens h
  obtain ⟨hword, depth, hreads⟩ := exists_reads_of_tokens h hstop
  rw [← toList_intercalate_blank (congrArg Prod.snd hword)] at hreads
  obtain ⟨vs, stop', htokens, hstop', hvs⟩ := tokens_of_reads hreads
  have hword' := (exists_reads_of_tokens htokens hstop').1
  refine ⟨vs ++ [stop'], htokens, ?_⟩
  rw [List.map_append, List.map_append, hvs, List.map_singleton, List.map_singleton, hword, hword']

/-- The lexemes of a text with single blanks between them have the same tokens again, and texts with
the same lexemes have tokens of the same kinds. -/
theorem tokens_spaced {source : String} {ts : List Token} (h : tokens source = .ok ts) :
    (∃ us, tokens (" ".intercalate (ts.map Token.lexeme)) = .ok us ∧
      us.map Token.word = ts.map Token.word) ∧
    ∀ other us, tokens other = .ok us → us.map Token.lexeme = ts.map Token.lexeme →
      us.map Token.kind = ts.map Token.kind := by
  obtain ⟨vs, hvs, hwords⟩ := exists_tokens_spaced h
  refine ⟨⟨vs, hvs, hwords⟩, ?_⟩
  intro other us hus hlexemes
  obtain ⟨vs', hvs', hwords'⟩ := exists_tokens_spaced hus
  rw [hlexemes, hvs] at hvs'
  cases hvs'
  have hkinds := congrArg (List.map Prod.fst) (hwords'.symm.trans hwords)
  rwa [List.map_map, List.map_map] at hkinds

/-- A comment, an escaped newline and line breaks inside brackets and outside. -/
def layoutSource : String :=
  "y[i, # index\n  j]**=.5e-3 \\\n or x\n\nz = \x7b\x7d"

theorem tokens_spaced_layout : ∃ ts, tokens layoutSource = .ok ts ∧ ts.length = 17 ∧
    (∃ us, tokens (" ".intercalate (ts.map Token.lexeme)) = .ok us ∧
      us.map Token.word = ts.map Token.word) ∧
    ∀ other us, tokens other = .ok us → us.map Token.lexeme = ts.map Token.lexeme →
      us.map Token.kind = ts.map Token.kind := by
  have hread : (tokens layoutSource).toOption.any fun ts => ts.length = 17 := by decide +kernel
  obtain ⟨ts, hts, hlength⟩ := exists_ok_of_any hread
  exact ⟨ts, hts, of_decide_eq_true hlength, tokens_spaced hts⟩

end Scan

end LoopNest
