import LoopNest.Proofs.ParsedSpans
import LoopNest.Proofs.ParserSteps
import LoopNest.Proofs.ProgramGrammar

/-!
# Faults that a parser meets

A parser goes from token to token and stops at the first fault, if it gets there. Until then it cannot
tell the text from one that ends where the fault begins. So it reports that fault, or an error that
it would report in the shorter text, which is placed before the fault.
-/

namespace LoopNest

open LoopNest.Parser

theorem Scan.exists_fault_of_tokensOf {is : List Item} {e : ScanError}
    (h : tokensOf is = .error e) :
    ∃ (ts : List Token) (more : List Item), is = ts.map .token ++ .fault e :: more := by
  induction is with
  | nil => cases h
  | cons i is ih =>
    cases i with
    | fault e' =>
      cases h
      exact ⟨[], is, rfl⟩
    | token t =>
      rw [tokensOf] at h
      cases hrest : tokensOf is with
      | ok ts =>
        rw [hrest] at h
        cases h
      | error e' =>
        rw [hrest] at h
        cases h
        obtain ⟨ts, more, hsplit⟩ := ih hrest
        exact ⟨t :: ts, more, by rw [hsplit, List.map_cons, List.cons_append]⟩

/-! ### The items before a cursor -/

namespace Parser

variable {α β : Type} {p : Parser α} {c d : Cursor}

theorem bind_eq (p : Parser α) (f : α → Parser β) (c : Cursor) :
    (p >>= f) c = (p c).bind fun r => f r.1 r.2 := rfl

/-- A parser leaves some of the items that it had, and fails at one of them or by itself. -/
def Moves (p : Parser α) (c : Cursor) : Prop :=
  match p c with
  | .ok (_, c') => c'.rest <:+ c.rest
  | .error e => (∃ err, e = .parse err) ∨ ∃ fault, e = .scan fault ∧ .fault fault ∈ c.rest

theorem Stepwise.moves (h : Stepwise p) (c : Cursor) : p.Moves c := by
  induction h generalizing c with
  | pure | last | remaining => exact List.suffix_rfl
  | refuse e => exact .inl ⟨e, rfl⟩
  | advance =>
    unfold Moves
    rw [advance_eq, Cursor.advance]
    cases hrest : c.rest with
    | nil => exact List.suffix_rfl
    | cons i is =>
      cases i with
      | token t => exact List.suffix_cons _ _
      | fault e => exact .inr ⟨e, rfl, List.mem_cons_self⟩
  | look hf hcurrent ih => exact ih c c
  | @bind α β p f hp hf ihp ihf =>
    have hfirst := ihp c
    unfold Moves at hfirst ⊢
    cases hc : p c with
    | error e =>
      rw [bind_eq, hc]
      rw [hc] at hfirst
      exact hfirst
    | ok r =>
      rw [hc] at hfirst
      have hrest : r.2.rest <:+ c.rest := hfirst
      have hsecond := ihf r.1 r.2
      unfold Moves at hsecond
      rw [bind_of_ok hc]
      cases hd : f r.1 r.2 with
      | ok r' =>
        rw [hd] at hsecond
        exact List.IsSuffix.trans hsecond hrest
      | error e =>
        rw [hd] at hsecond
        rcases hsecond with hparse | ⟨fault, hscan, hmem⟩
        · exact .inl hparse
        · exact .inr ⟨fault, hscan, hrest.subset hmem⟩

/-! ### Texts that end before a fault -/

end Parser

/-- A cursor before a fault, and one over the same tokens with an end of the input in the place of the
fault and of every item behind it. -/
structure Cursor.Cut (fault : ScanError) (stop : Token) (more : List Scan.Item) (c d : Cursor) :
    Prop where
  current : c.current = d.current
  last : c.last = d.last
  rest : ∃ ts : List Token, c.rest = ts.map .token ++ .fault fault :: more ∧
    d.rest = ts.map .token ++ List.replicate (more.length + 1) (.token stop)

namespace Parser

variable {α : Type} {p : Parser α} {fault : ScanError} {stop : Token} {more : List Scan.Item}
  {c d : Cursor}

/-- At the one cursor a parser does what it does at the other, or it meets the fault. -/
def Agrees (fault : ScanError) (stop : Token) (more : List Scan.Item) (p : Parser α)
    (c d : Cursor) : Prop :=
  match p c with
  | .ok (a, c') => ∃ d', p d = .ok (a, d') ∧ c'.Cut fault stop more d'
  | .error e => e = .scan fault ∨ ∃ err, e = .parse err ∧ p d = .error e

theorem Stepwise.agrees (h : Stepwise p) (hcd : c.Cut fault stop more d) :
    p.Agrees fault stop more c d := by
  induction h generalizing c d with
  | pure a => exact ⟨d, rfl, hcd⟩
  | refuse e => exact .inr ⟨e, rfl, rfl⟩
  | advance =>
    obtain ⟨ts, hc, hd⟩ := hcd.rest
    unfold Agrees
    rw [advance_eq, advance_eq, Cursor.advance, Cursor.advance]
    cases ts with
    | nil =>
      rw [hc]
      exact .inl rfl
    | cons t ts =>
      rw [hc, hd]
      exact ⟨_, rfl, rfl, congrArg Token.span hcd.current, ts, rfl, rfl⟩
  | last => exact ⟨d, by rw [hcd.last]; rfl, hcd⟩
  | remaining =>
    -- As many items lie behind both cursors, so the loops have the same bound.
    obtain ⟨ts, hc, hd⟩ := hcd.rest
    have hlength : c.rest.length = d.rest.length := by
      rw [hc, hd]
      simp
    exact ⟨d, by rw [hlength]; rfl, hcd⟩
  | @look α f hf hcurrent ih =>
    have hsame := ih c hcd
    unfold Agrees at hsame ⊢
    rw [get_bind, get_bind, ← hcurrent c d hcd.current]
    exact hsame
  | @bind α β p f hp hf ihp ihf =>
    have hfirst := ihp hcd
    unfold Agrees at hfirst ⊢
    rw [bind_eq, bind_eq]
    cases hc : p c with
    | error e =>
      rw [hc] at hfirst
      rcases hfirst with hfault | ⟨err, herr, hd⟩
      · exact .inl hfault
      · rw [hd]
        exact .inr ⟨err, herr, rfl⟩
    | ok r =>
      rw [hc] at hfirst
      obtain ⟨d', hd, hcut⟩ := hfirst
      rw [hd]
      exact ihf r.1 hcut

end Parser

/-! ### Places before a fault -/

/-- A place in a text up to which a shorter text goes is a place in that text. -/
theorem Location.In.of_le {source before rest : String} {l : Location} (h : l.In source)
    (hsource : source = before ++ rest) (hle : l.offset ≤ before.utf8ByteSize) : l.In before := by
  obtain ⟨upto, more, hsplit, rfl⟩ := h
  have hlists : upto.toList ++ more.toList = before.toList ++ rest.toList := by
    rw [← String.toList_append, ← String.toList_append, ← hsplit, hsource]
  rcases List.append_eq_append_iff.mp hlists with ⟨between, hbefore, -⟩ | ⟨between, hupto, -⟩
  · refine ⟨upto, String.ofList between, ?_, rfl⟩
    rw [← String.toList_inj, String.toList_append, String.toList_ofList, hbefore]
  · have hstring : upto = before ++ String.ofList between := by
      rw [← String.toList_inj, String.toList_append, String.toList_ofList, hupto]
    have hsize : (before ++ String.ofList between).utf8ByteSize ≤ before.utf8ByteSize := by
      rw [← hstring]
      exact hle
    have hnil : String.ofList between = "" := by
      rw [String.utf8ByteSize_append] at hsize
      exact String.utf8ByteSize_eq_zero_iff.mp (by omega)
    rw [hstring, hnil, String.append_empty]
    exact ⟨before, "", (String.append_empty).symm, rfl⟩

theorem Location.In.offset_le {source : String} {l : Location} (h : l.In source) :
    l.offset ≤ source.utf8ByteSize := by
  obtain ⟨before, rest, rfl, rfl⟩ := h
  rw [String.utf8ByteSize_append]
  exact Nat.le_add_right ..

/-- A cursor before a fault has one beside it over a text that ends where the fault begins. -/
theorem Cursor.exists_cut {source : String} {t : Token} {ts : List Token} {fault : ScanError}
    {more : List Scan.Item}
    (hplaces : ∀ item ∈ (t :: ts).map Scan.Item.token ++ Scan.Item.fault fault :: more,
      item.span.In source)
    (hordered : ((t :: ts).map Scan.Item.token ++ Scan.Item.fault fault :: more).Pairwise
      fun a b => a.span.Before b.span) :
    ∃ before stop d, Cut fault stop more ⟨t, t.span, ts.map .token ++ .fault fault :: more⟩ d ∧
      d.Ready before ∧ d.last = d.current.span ∧
      before.utf8ByteSize = fault.span.start.offset := by
  rw [List.pairwise_append] at hordered
  obtain ⟨htokens, -, hbehind⟩ := hordered
  have hfault : fault.span.In source := hplaces (.fault fault) (by simp)
  obtain ⟨before, rest, hsource, hstart⟩ := hfault.start
  have hsize : before.utf8ByteSize = fault.span.start.offset := by
    rw [hstart]
    rfl
  let stop : Token := ⟨.endOfInput, ⟨fault.span.start, fault.span.start⟩, ""⟩
  have hstop : stop.span.In before :=
    ⟨hfault.start.of_le hsource (Nat.le_of_eq hsize.symm),
      hfault.start.of_le hsource (Nat.le_of_eq hsize.symm), Nat.le_refl _⟩
  have htoken : ∀ item ∈ (t :: ts).map Scan.Item.token,
      item.span.In before ∧ item.span.Before stop.span := by
    intro item hitem
    have hplace := hplaces item (List.mem_append_left _ hitem)
    have hle : item.span.stop.offset ≤ fault.span.start.offset :=
      hbehind item hitem (.fault fault) List.mem_cons_self
    rw [← hsize] at hle
    refine ⟨⟨?_, ?_, hplace.le⟩, by rwa [hsize] at hle⟩
    · exact hplace.start.of_le hsource (Nat.le_trans hplace.le hle)
    · exact hplace.stop.of_le hsource hle
  let d : Cursor :=
    ⟨t, t.span, ts.map .token ++ List.replicate (more.length + 1) (.token stop)⟩
  have hitems : d.items = (t :: ts).map Scan.Item.token ++
      List.replicate (more.length + 1) (.token stop) := rfl
  refine ⟨before, stop, d, ⟨rfl, rfl, ts, rfl, rfl⟩, ⟨?_, ?_, ?_⟩, rfl, hsize⟩
  · rw [hitems, List.forall_mem_append]
    exact ⟨fun item hitem => (htoken item hitem).1,
      fun item hitem => (List.eq_of_mem_replicate hitem) ▸ hstop⟩
  · rw [hitems, List.pairwise_append, List.pairwise_replicate]
    refine ⟨htokens, .inr (Nat.le_refl _), fun item hitem other hother => ?_⟩
    rw [List.eq_of_mem_replicate hother]
    exact (htoken item hitem).2
  · rw [hitems, List.replicate_succ', ← List.append_assoc, List.getLast?_concat]
    intro item hitem
    cases hitem
    exact Nat.le_refl _

namespace Program

theorem ofItems_token_eq_error_iff {t : Token} {rest : List Scan.Item} {e : CompileError} :
    ofItems (.token t :: rest) = .error e ↔ program ⟨t, t.span, rest⟩ = .error e := by
  change Except.map _ (program ⟨t, t.span, rest⟩) = _ ↔ _
  cases program ⟨t, t.span, rest⟩ <;> simp [Except.map]

/-- Where there is no fault none is reported. -/
theorem ofItems_tokens_ne_scan (ts : List Token) (e : ScanError) :
    ofItems (ts.map .token) ≠ .error (.scan e) := by
  intro h
  cases ts with
  | nil => cases h
  | cons t ts =>
    have hmoves := program_stepwise.moves ⟨t, t.span, ts.map .token⟩
    unfold Moves at hmoves
    rw [ofItems_token_eq_error_iff.mp h] at hmoves
    rcases hmoves with ⟨err, herr⟩ | ⟨fault, -, hmem⟩
    · cases herr
    · obtain ⟨u, -, hu⟩ := List.mem_map.mp hmem
      cases hu

/-- What is reported of items with a fault that stand in a text in order. -/
theorem ofItems_fault {source : String} {ts : List Token} {fault : ScanError}
    {more : List Scan.Item}
    (hplaces : ∀ item ∈ ts.map Scan.Item.token ++ Scan.Item.fault fault :: more,
      item.span.In source)
    (hordered : (ts.map Scan.Item.token ++ Scan.Item.fault fault :: more).Pairwise
      fun a b => a.span.Before b.span) {e : CompileError}
    (h : ofItems (ts.map .token ++ .fault fault :: more) = .error e) :
    e = .scan fault ∨ ∃ err, e = .parse err ∧ err.span.Before fault.span := by
  cases ts with
  | nil =>
    cases h
    exact .inl rfl
  | cons t ts =>
    obtain ⟨before, stop, d, hcut, hready, hlast, hsize⟩ := Cursor.exists_cut hplaces hordered
    have hagrees := program_stepwise.agrees hcut
    have hgives := program_gives hready hlast
    unfold Agrees at hagrees
    rw [List.map_cons, List.cons_append, ofItems_token_eq_error_iff] at h
    rw [h] at hagrees
    rcases hagrees with hscan | ⟨err, rfl, hd⟩
    · exact .inl hscan
    · unfold Gives at hgives
      rw [hd] at hgives
      obtain ⟨span, hspan, hplace⟩ := hgives
      cases hspan
      have hle := hplace.stop.offset_le
      rw [hsize] at hle
      exact .inr ⟨err, rfl, hle⟩

/-- A text without a fault has a program or an error of parsing. In another one parsing reports the
first fault, unless it meets an error before that. -/
theorem parse_meets_first_fault (source : String) :
    (∀ ts, Scan.tokens source = .ok ts → ∀ e, parse source ≠ .error (.scan e)) ∧
    ∀ e, Scan.tokens source = .error e → parse source = .error (.scan e) ∨
      ∃ err, parse source = .error (.parse err) ∧ err.span.Before e.span := by
  constructor
  · intro ts hts e
    rw [Scan.tokens, Scan.tokensOf_eq_ok_iff] at hts
    rw [parse, hts]
    exact ofItems_tokens_ne_scan ts e
  · intro e he
    cases hparse : parse source with
    | ok p =>
      obtain ⟨ts, stop, hts, -⟩ := exists_body_of_parse hparse
      rw [hts] at he
      cases he
    | error err =>
      obtain ⟨hplaces, hordered, -⟩ := Scan.items_ordered source
      obtain ⟨ts, more, hitems⟩ := Scan.exists_fault_of_tokensOf he
      rw [parse, hitems] at hparse
      rw [hitems] at hplaces hordered
      rcases ofItems_fault hplaces hordered hparse with rfl | ⟨err, rfl, hbefore⟩
      · exact .inl rfl
      · exact .inr ⟨err, rfl, hbefore⟩

/-- Two statements, and an operand that is missing. -/
def missingSource : String :=
  "s = \x7b[i]: 0 <= i\x7d\ny[i] = f(a *)"

/-- A question mark behind an operand that is missing. -/
def questionSource : String :=
  "y[i] = f(a *) ? 1"

theorem parse_meets_first_fault_question :
    (∃ ts, Scan.tokens missingSource = .ok ts ∧
      ∀ e, parse missingSource ≠ .error (.scan e)) ∧
    ∃ e, Scan.tokens questionSource = .error e ∧ (parse questionSource = .error (.scan e) ∨
      ∃ err, parse questionSource = .error (.parse err) ∧ err.span.Before e.span) := by
  have hread : (Scan.tokens missingSource).toOption.any fun ts => ts.length = 23 := by
    decide +kernel
  have hfault : (Scan.tokens questionSource).toOption.isNone := by decide +kernel
  obtain ⟨ts, hts, -⟩ := exists_ok_of_any hread
  refine ⟨⟨ts, hts, (parse_meets_first_fault missingSource).1 ts hts⟩, ?_⟩
  cases hquestion : Scan.tokens questionSource with
  | ok us =>
    rw [hquestion] at hfault
    cases hfault
  | error e => exact ⟨e, rfl, (parse_meets_first_fault questionSource).2 e hquestion⟩

end Program

end LoopNest
