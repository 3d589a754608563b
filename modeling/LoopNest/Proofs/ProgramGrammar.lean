import LoopNest.Proofs.StatementComplete
import LoopNest.Proofs.ParserSound
import LoopNest.Proofs.ScanItems

/-!
# Programs and their grammar

A text is a program exactly if it is scanned without a fault and its words are derived from the
grammar. The program is then the tree of the derivation, spans aside, and the grammar has no other
tree for these words.
-/

namespace LoopNest

open Grammar

namespace Cursor

/-- The tokens that a cursor moves over have the words it reads. -/
theorem Reads.tokens {c c' : Cursor} {ws : List Word} (h : c.Reads ws c') :
    ∃ ts : List Token, ts.map Token.word = ws ∧
      .token c.current :: c.rest = ts.map Scan.Item.token ++ .token c'.current :: c'.rest := by
  induction ws generalizing c with
  | nil =>
    cases h
    exact ⟨[], rfl, rfl⟩
  | cons w ws ih =>
    obtain ⟨hw, c₁, hn, h⟩ := h
    obtain ⟨ts, hts, heq⟩ := ih h
    refine ⟨c.current :: ts, by rw [List.map_cons, hw, hts], ?_⟩
    rw [List.map_cons, List.cons_append, ← heq]
    unfold next? at hn
    split at hn
    · next hrest =>
      cases hn
      rw [hrest]
    · cases hn

/-- A cursor moves over all tokens before it. -/
theorem reads_of_tokens {c : Cursor} {ts : List Token} {t : Token} {rest : List Scan.Item}
    (h : .token c.current :: c.rest = ts.map Scan.Item.token ++ .token t :: rest) :
    ∃ c', c.Reads (ts.map Token.word) c' ∧ c'.current = t := by
  induction ts generalizing c with
  | nil =>
    simp only [List.map_nil, List.nil_append, List.cons.injEq, Scan.Item.token.injEq] at h
    exact ⟨c, rfl, h.1⟩
  | cons u us ih =>
    simp only [List.map_cons, List.cons_append, List.cons.injEq, Scan.Item.token.injEq] at h
    obtain ⟨hu, hrest⟩ := h
    have hnext : ∃ c₁, c.next? = some c₁ ∧
        .token c₁.current :: c₁.rest = us.map Scan.Item.token ++ .token t :: rest := by
      cases us with
      | nil => exact ⟨⟨t, c.current.span, rest⟩, by simp [next?, hrest], rfl⟩
      | cons v vs =>
        exact ⟨⟨v, c.current.span, vs.map Scan.Item.token ++ .token t :: rest⟩,
          by simp [next?, hrest], rfl⟩
    obtain ⟨c₁, hn, heq⟩ := hnext
    obtain ⟨c', hr, ht⟩ := ih heq
    exact ⟨c', ⟨by rw [hu], c₁, hn, hr⟩, ht⟩

end Cursor

namespace Grammar

/-- Any words are before some cursor, with the end of the input behind them. -/
theorem exists_reads (ws : List Word) :
    ∃ c c' : Cursor, c.last = .nowhere ∧ c.Reads ws c' ∧ c'.current.kind = .endOfInput := by
  induction ws with
  | nil =>
    let c : Cursor := ⟨⟨.endOfInput, .nowhere, ""⟩, .nowhere, []⟩
    exact ⟨c, c, rfl, rfl, rfl⟩
  | cons w ws ih =>
    obtain ⟨c₁, c', hlast, hr, hend⟩ := ih
    let c : Cursor := ⟨⟨w.1, .nowhere, w.2⟩, .nowhere, .token c₁.current :: c₁.rest⟩
    have hnext : c.next? = some c₁ := by
      simp only [c, Cursor.next?, ← hlast]
    exact ⟨c, c', rfl, ⟨rfl, c₁, hnext, hr⟩, hend⟩

/-- The grammar gives a list of words no more than one program. -/
theorem Body.unique {ws : List Word} {ss ss' : List Stmt} (h : Body ws ss) (h' : Body ws ss') :
    ss = ss' := by
  obtain ⟨c, c', -, hr, hend⟩ := exists_reads ws
  obtain ⟨p, hp, rfl⟩ := Parser.program_complete h hr hend
  obtain ⟨p', hp', rfl⟩ := Parser.program_complete h' hr hend
  rw [hp] at hp'
  cases hp'
  rfl

end Grammar

namespace Program

theorem ofItems_token_eq_ok_iff {t : Token} {rest : List Scan.Item} {p : Program} :
    ofItems (.token t :: rest) = .ok p ↔
      ∃ c', Parser.program ⟨t, t.span, rest⟩ = .ok (p, c') := by
  change Except.map _ (Parser.program ⟨t, t.span, rest⟩) = _ ↔ _
  cases Parser.program ⟨t, t.span, rest⟩ with
  | error e => simp [Except.map]
  | ok r =>
    constructor
    · intro h
      cases h
      exact ⟨r.2, rfl⟩
    · rintro ⟨c', h⟩
      cases h
      rfl

/-- The words of a program have its statements as a tree of the grammar. -/
theorem exists_body_of_parse {source : String} {p : Program} (h : parse source = .ok p) :
    ∃ ts stop, Scan.tokens source = .ok (ts ++ [stop]) ∧ stop.isEnd ∧
      Body (ts.map Token.word) (p.body.map Stmt.bare) := by
  have hended := Scan.items_ended source
  rw [parse] at h
  cases hitems : Scan.items source with
  | nil =>
    rw [hitems] at hended
    exact hended.elim
  | cons i rest =>
    rw [hitems] at h hended
    cases i with
    | fault e => cases h
    | token t =>
      obtain ⟨c', hp⟩ := ofItems_token_eq_ok_iff.mp h
      have hc : Cursor.Closed ⟨t, t.span, rest⟩ := hended
      obtain ⟨ws, hr, hend, hbody⟩ := Parser.program_sound hc hp
      obtain ⟨ts, rfl, heq⟩ := hr.tokens
      refine ⟨ts, c'.current, ?_, by simp [Token.isEnd, hend], hbody⟩
      rw [Scan.tokens, Scan.tokensOf_eq_ok_iff, hitems]
      simpa [(hc.reads hr).rest_eq_nil hend] using heq

/-- A text whose words have a tree of the grammar is read as that tree. -/
theorem exists_parse_of_body {source : String} {ts : List Token} {stop : Token} {ss : List Stmt}
    (htokens : Scan.tokens source = .ok (ts ++ [stop])) (hstop : stop.isEnd)
    (hbody : Body (ts.map Token.word) ss) :
    ∃ p, parse source = .ok p ∧ p.body.map Stmt.bare = ss := by
  rw [Scan.tokens, Scan.tokensOf_eq_ok_iff] at htokens
  have hend : stop.kind = .endOfInput := by simpa [Token.isEnd] using hstop
  obtain ⟨t, rest, hitems⟩ : ∃ t rest, Scan.items source = .token t :: rest := by
    cases ts with
    | nil => exact ⟨stop, [], htokens⟩
    | cons t ts => exact ⟨t, _, htokens⟩
  have hsplit : .token t :: rest = ts.map Scan.Item.token ++ [.token stop] := by
    rw [← hitems, htokens, List.map_append]
    rfl
  obtain ⟨c', hr, rfl⟩ := Cursor.reads_of_tokens (c := ⟨t, t.span, rest⟩) hsplit
  obtain ⟨p, hp, hbare⟩ := Parser.program_complete hbody hr hend
  exact ⟨p, by rw [parse, hitems, ofItems_token_eq_ok_iff]; exact ⟨c', hp⟩, hbare⟩

/-- A text is read as a program exactly if it has no fault up to its end and its words have the
statements of the program as the one tree that the grammar gives them. -/
theorem parse_eq_ok_iff_body (source : String) (ss : List Stmt) :
    (∃ p, parse source = .ok p ∧ p.body.map Stmt.bare = ss) ↔
      ∃ ts stop, Scan.tokens source = .ok (ts ++ [stop]) ∧ stop.isEnd ∧
        Body (ts.map Token.word) ss ∧ ∀ ss', Body (ts.map Token.word) ss' → ss' = ss := by
  constructor
  · rintro ⟨p, hp, rfl⟩
    obtain ⟨ts, stop, htokens, hstop, hbody⟩ := exists_body_of_parse hp
    exact ⟨ts, stop, htokens, hstop, hbody, fun ss' h => h.unique hbody⟩
  · rintro ⟨ts, stop, htokens, hstop, hbody, -⟩
    exact exists_parse_of_body htokens hstop hbody

end Program

end LoopNest
