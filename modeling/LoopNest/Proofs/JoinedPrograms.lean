import LoopNest.Proofs.LineJoining
import LoopNest.Proofs.SplicedParsing

/-!
# Programs on the line behind another

The words of a program close every bracket they open, so a text on the next line begins outside
brackets and is scanned as it is alone. Spliced together, the first program ends at the line break
and the second at the end of the input.
-/

namespace LoopNest

/-! ### Brackets -/

namespace Grammar

open Scan

/-- Words that close the brackets they open. -/
def Balanced (ws : List Word) : Prop :=
  ∀ depth, (ws.map Prod.fst).foldl depthAfter depth = depth

theorem depthAfter_of_signs {k : Token.Kind} {op : UnaryOp} (h : (k, op) ∈ signs) (depth : Nat) :
    depthAfter depth k = depth := by
  simp only [signs, List.mem_cons, Prod.mk.injEq, List.not_mem_nil, or_false] at h
  rcases h with ⟨rfl, -⟩ | ⟨rfl, -⟩ | ⟨rfl, -⟩ <;> rfl

theorem depthAfter_of_connectives {k : Token.Kind} {op : Connective} (h : k ∈ connectives op)
    (depth : Nat) : depthAfter depth k = depth := by
  cases op <;>
    · simp only [connectives, List.mem_cons, List.not_mem_nil, or_false] at h
      rcases h with rfl | rfl <;> rfl

theorem Derives.balanced {symbol : Symbol} {ws : List Word} {phrase : Phrase}
    (h : Derives symbol ws phrase) : Balanced ws := by
  intro depth
  induction h generalizing depth with
  | number text h => rcases h with rfl | rfl <;> rfl
  | sign s h operand ih => simp [depthAfter_of_signs h, ih]
  | inversion s h operand ih => rcases h with rfl | rfl <;> exact ih depth
  | part s h head rest ihhead ihrest => simp [depthAfter_of_connectives h, ihhead, ihrest]
  | _ => simp_all [depthAfter]

theorem Targets.balanced {ws : List Word} {targets : List Expr} (h : Targets ws targets) :
    Balanced ws := by
  intro depth
  induction h with
  | nil => rfl
  | cons s head ha rest ih => simp_all [depthAfter, head.balanced depth]

theorem Statement.balanced {ws : List Word} {s : Stmt} (h : Statement ws s) : Balanced ws := by
  intro depth
  cases h with
  | eval h => exact h.balanced depth
  | assign left right => simp [left.balanced depth, right.balanced depth]
  | augment s left ha right => simp [depthAfter, left.balanced depth, right.balanced depth]

theorem Body.balanced {ws : List Word} {ss : List Stmt} (h : Body ws ss) : Balanced ws := by
  intro depth
  induction h with
  | nil => rfl
  | skip s hsep rest ih => rcases hsep with rfl | rfl <;> exact ih
  | last h => exact h.balanced depth
  | cons s head hsep rest ih =>
    rcases hsep with rfl | rfl <;> simp [depthAfter, head.balanced depth, ih]

end Grammar

/-! ### Programs on the line behind another -/

namespace Splice

/-- Tokens and the end of the input behind them are tracked where they are spliced in. -/
theorem tracks_tokens (σ : Splice) {ts : List Token} {stop : Token}
    (hts : ∀ t ∈ ts, t.kind ≠ .endOfInput ∧ t.span.IsReal) (hstop : stop.isEnd) :
    σ.Tracks ((ts ++ [stop]).map .token)
      ((ts.map (Token.relocate σ.move) ++ [σ.stop]).map .token ++ σ.more) := by
  induction ts with
  | nil => exact .stop (of_decide_eq_true hstop)
  | cons t ts ih =>
    obtain ⟨⟨hend, hreal⟩, hts⟩ := List.forall_mem_cons.mp hts
    exact .token hend hreal (ih hts)

end Splice

namespace Program

open LoopNest.Parser

/-- A text is read as the statements from its first token on. -/
theorem parse_eq_ok_iff {source : String} {t : Token} {ts : List Token}
    (h : Scan.tokens source = .ok (t :: ts)) (ss : List Stmt) :
    (∃ p, parse source = .ok p ∧ p.body = ss) ↔
      ∃ c', statements (expression (ts.length + 1)) (ts.length + 1)
        ⟨t, t.span, ts.map .token⟩ = .ok (ss, c') := by
  rw [Scan.tokens, Scan.tokensOf_eq_ok_iff] at h
  rw [parse, h, List.map_cons]
  simp only [ofItems_token_eq_ok_iff]
  constructor
  · rintro ⟨p, ⟨c', hp⟩, rfl⟩
    rw [program, here_bind, remaining_bind, List.length_map] at hp
    obtain ⟨body, c₁, hbody, hp⟩ := bind_eq_ok.mp hp
    rw [last_bind] at hp
    obtain ⟨rfl, rfl⟩ := pure_eq_ok.mp hp
    exact ⟨_, hbody⟩
  · rintro ⟨c', hbody⟩
    refine ⟨⟨ss, t.span.merge c'.last⟩, ⟨c', ?_⟩, rfl⟩
    rw [program, here_bind, remaining_bind, List.length_map, bind_of_ok hbody]
    rfl

/-- The program of a text is read where the text is spliced in, before what is read behind it. -/
theorem exists_statements_spliced (σ : Splice) {source : String} {p : Program} {ts : List Token}
    {stop : Token} (h : parse source = .ok p) (htokens : Scan.tokens source = .ok (ts ++ [stop]))
    (hstop : stop.isEnd) {n m : Nat} (hn : ts.length < n) {d : Cursor} (hm : d.rest.length < m)
    (hd : .token d.current :: d.rest =
      (ts.map (Token.relocate σ.move) ++ [σ.stop]).map .token ++ σ.more) {behind : List Stmt}
    (hbehind : ∀ d₁ k, d₁.current = σ.stop → d₁.rest = σ.more → σ.more.length < k →
      ∃ d₂, statements (expression n) k d₁ = .ok (behind, d₂)) :
    ∃ d', statements (expression n) m d =
      .ok (p.body.map (Stmt.relocate σ.move) ++ behind, d') := by
  have htracks := σ.tracks_tokens (Scan.isReal_of_tokens htokens hstop) hstop
  obtain ⟨t, us, hcons⟩ := List.exists_cons_of_ne_nil (List.concat_ne_nil stop ts)
  have hlength : us.length = ts.length := by
    have hlen := congrArg List.length hcons
    simpa using hlen.symm
  rw [hcons] at htokens htracks
  rw [← hd] at htracks
  obtain ⟨c', hbody⟩ := (parse_eq_ok_iff htokens p.body).mp ⟨p, h, rfl⟩
  have hmeets : σ.Meets ⟨t, t.span, us.map .token⟩ d := htracks
  exact σ.statements_carries (σ.expression_follows (by omega)) hmeets (by simp) hm hbody hbehind

/-- The program of a text is read where its tokens end the input. -/
theorem exists_statements_last {source : String} {p : Program} {ts : List Token} {stop : Token}
    (h : parse source = .ok p) (htokens : Scan.tokens source = .ok (ts ++ [stop]))
    (hstop : stop.isEnd) {f : Span → Span} (hf : Span.KeepsMerge f) {n m : Nat}
    (hn : ts.length < n) {d : Cursor} (hm : d.rest.length < m)
    (hd : .token d.current :: d.rest = ((ts ++ [stop]).map (Token.relocate f)).map .token) :
    ∃ d', statements (expression n) m d = .ok (p.body.map (Stmt.relocate f), d') := by
  have hkind : (stop.relocate f).kind = .endOfInput := of_decide_eq_true hstop
  let σ : Splice := ⟨f, stop.relocate f, [], hf, .inr hkind⟩
  have hread := exists_statements_spliced σ h htokens hstop hn hm (by simpa [σ] using hd)
    fun d₁ k hcurrent _ _ => ⟨d₁, statements_end (by rw [hcurrent]; exact hkind)⟩
  rwa [List.append_nil] at hread

/-- The program of a text is read where a line break takes the place of its end. -/
theorem exists_statements_line {source : String} {p : Program} {ts : List Token} {stop : Token}
    (h : parse source = .ok p) (htokens : Scan.tokens source = .ok (ts ++ [stop]))
    (hstop : stop.isEnd) {line u : Token} (hline : line.kind = .newline) {more : List Scan.Item}
    {n m : Nat} (hn : ts.length < n) {d : Cursor} (hm : d.rest.length < m)
    (hd : .token d.current :: d.rest = (ts ++ [line]).map .token ++ .token u :: more)
    {behind : List Stmt}
    (hbehind : ∀ k, more.length < k →
      ∃ d', statements (expression n) k ⟨u, line.span, more⟩ = .ok (behind, d')) :
    ∃ d', statements (expression n) m d = .ok (p.body ++ behind, d') := by
  let σ : Splice := ⟨id, line, .token u :: more, Span.keepsMerge_id, .inl hline⟩
  have hmap : ts.map (Token.relocate σ.move) = ts := by
    rw [Token.relocate_id, List.map_id]
  have hnext : ∀ d₁ k, d₁.current = line → d₁.rest = .token u :: more → more.length + 1 < k →
      ∃ d', statements (expression n) k d₁ = .ok (behind, d') := by
    intro d₁ k hcurrent hrest hk
    obtain ⟨k, rfl⟩ := Nat.exists_eq_succ_of_ne_zero (Nat.ne_zero_of_lt hk)
    have hd₁ : d₁.next? = some ⟨u, line.span, more⟩ := by rw [Cursor.next?, hrest, hcurrent]
    rw [statements_separator (by rw [hcurrent]; exact .inl hline) hd₁]
    exact hbehind (k + 1) (by omega)
  have hbody : p.body.map (Stmt.relocate σ.move) = p.body := by
    rw [Stmt.relocate_id, List.map_id]
  have hread := exists_statements_spliced σ h htokens hstop hn hm (by rw [hmap]; exact hd) hnext
  rwa [hbody] at hread

/-- A program on the line behind another one is read as it is alone, further down. -/
theorem exists_parse_join {source₁ source₂ : String} {p₁ p₂ : Program}
    (h₁ : parse source₁ = .ok p₁) (h₂ : parse source₂ = .ok p₂) :
    ∃ p, parse (source₁ ++ "\n" ++ source₂) = .ok p ∧
      p.body = p₁.body ++ p₂.body.map (Stmt.relocate
        (Span.shift (source₁.toList.count '\n' + 1) (source₁.utf8ByteSize + 1))) := by
  obtain ⟨ts₁, stop₁, htokens₁, hstop₁, hbody₁⟩ := exists_body_of_parse h₁
  obtain ⟨ts₂, stop₂, htokens₂, hstop₂, -⟩ := exists_body_of_parse h₂
  have hdepth : (ts₁.map Token.kind).foldl Scan.depthAfter 0 = 0 := by
    simpa [Token.word, Function.comp_def] using hbody₁.balanced 0
  obtain ⟨line, hline, htokens⟩ := Scan.tokens_join htokens₁ hstop₁ hdepth htokens₂ hstop₂
  have hmerge := Span.keepsMerge_shift (source₁.toList.count '\n' + 1) (source₁.utf8ByteSize + 1)
  generalize Span.shift (source₁.toList.count '\n' + 1) (source₁.utf8ByteSize + 1) = f
    at htokens hmerge ⊢
  obtain ⟨u₂, us₂, hcons₂⟩ : ∃ u us, (ts₂ ++ [stop₂]).map (Token.relocate f) = u :: us :=
    List.exists_cons_of_ne_nil (by simp)
  obtain ⟨u, us, hcons⟩ : ∃ u us, ts₁ ++ line :: u₂ :: us₂ = u :: us :=
    List.exists_cons_of_ne_nil (by simp)
  have hlength : us.length = ts₁.length + us₂.length + 1 := by
    have hlen := congrArg List.length hcons
    simp only [List.length_append, List.length_cons] at hlen
    omega
  have hlength₂ : us₂.length = ts₂.length := by
    have hlen := congrArg List.length hcons₂
    simpa using hlen.symm
  rw [hcons₂, hcons] at htokens
  have hsplit : .token u :: us.map Scan.Item.token =
      (ts₁ ++ [line]).map .token ++ .token u₂ :: us₂.map .token := by
    rw [← List.map_cons, ← hcons]
    simp
  refine (parse_eq_ok_iff htokens _).mpr
    (exists_statements_line h₁ htokens₁ hstop₁ hline (by omega) (by simp) hsplit fun k hk => ?_)
  refine exists_statements_last h₂ htokens₂ hstop₂ hmerge (by omega) hk ?_
  rw [hcons₂, List.map_cons]

end Program

end LoopNest
