import LoopNest.Proofs.Descent
import LoopNest.Proofs.ScanTiling

/-!
# The steps of a descent

A descent and a parser are at the same place if they have the same token before them and the scanner
of the one has ahead the items of the other. From such a place the two go on together: they come to
the same result at the same place again, or to the same error. What a descent may call is bounded by
the items up to the first fault, and each rule below takes one step of both and keeps to that bound.
-/

namespace LoopNest

namespace Scan

/-- Whether nothing behind an item is ever read. -/
def Item.stops : Item → Bool
  | .token t => t.isEnd
  | .fault _ => true

/-- The items up to the first fault or the end of the input, and that one as well. -/
def upToStop : List Item → List Item
  | [] => []
  | i :: is => if i.stops then [i] else i :: upToStop is

end Scan

/-- The items ahead of a scanner. -/
def Scanner.ahead (s : Scanner) : List Scan.Item :=
  (s.run (s.rest.length + 1)).1

theorem Scanner.run_eq_ahead {s : Scanner} {n : Nat} (h : s.rest.length < n) :
    (s.run n).1 = s.ahead := by
  obtain ⟨m, hm, hend, hbefore⟩ := s.exists_end
  rw [ahead, run_eq hend hbefore (Nat.lt_of_le_of_lt hm h),
    run_eq hend hbefore (Nat.lt_succ_of_le hm)]

theorem Scanner.ahead_eq_cons (s : Scanner) :
    s.ahead = s.next.1 :: if s.next.1.isEnd then [] else s.next.2.ahead := by
  rw [ahead, run]
  cases hend : s.next.1.isEnd with
  | true => simp [hend]
  | false => simp [hend, run_eq_ahead (next_length_lt hend)]

namespace Descent

/-- The journal of a descent with no more calls than there are items, none of them at the end of the
input, and with at least one call in every pass through a loop and between the start of an
expression and that of one inside it. -/
structure Journal.Within (items : List Scan.Item) (j : Journal) : Prop where
  calls : j.calls.length ≤ items.length
  inside : ∀ t, some t ∈ j.calls → t.kind ≠ .endOfInput
  passes : ∀ k ∈ j.passes, 0 < k
  nestings : ∀ k ∈ j.nestings, 0 < k

theorem Journal.within_start {items : List Scan.Item} (h : 0 < items.length) :
    Journal.start.Within items where
  calls := h
  inside t ht := by cases List.mem_singleton.mp ht
  passes k hk := by cases hk
  nestings k hk := by cases hk

/-! ### Places in a descent -/

namespace State

/-- The items that are still to be asked for. At the end of the input there is none. -/
def pending (s : State) : List Scan.Item :=
  if s.current.isEnd then [] else s.scanner.ahead

/-- The place of a parser over the same items. -/
def cursor (s : State) : Cursor :=
  ⟨s.current, s.last, s.pending⟩

theorem kind_of_pending {s : State} (h : s.pending = []) : s.current.kind = .endOfInput := by
  unfold pending at h
  split at h
  · next hend => simpa [Token.isEnd] using hend
  · rw [Scanner.ahead_eq_cons] at h
    cases h

theorem pending_of_kind {s : State} (h : s.current.kind ≠ .endOfInput) :
    s.pending = s.scanner.next.1 ::
      if s.scanner.next.1.isEnd then [] else s.scanner.next.2.ahead := by
  rw [pending, if_neg (by simpa [Token.isEnd] using h), Scanner.ahead_eq_cons]

/-- The current token is one of the items up to the first fault. -/
theorem length_upToStop (s : State) :
    (Scan.upToStop (.token s.current :: s.pending)).length =
      (Scan.upToStop s.pending).length + 1 := by
  rw [Scan.upToStop]
  split
  · next hstop =>
    have hnil : s.pending = [] := if_pos hstop
    rw [hnil]
    rfl
  · rfl

/-- A place from which as many calls are left as there are items up to the first fault. -/
structure Ready (items : List Scan.Item) (s : State) : Prop where
  within : s.journal.Within items
  total : s.count + (Scan.upToStop s.pending).length = items.length

theorem ready_start (scanner : Scanner) (t : Token) :
    (start scanner t).Ready (Scan.upToStop (.token t :: (start scanner t).pending)) := by
  have hlength := (start scanner t).length_upToStop
  refine ⟨Journal.within_start ?_, ?_⟩
  · exact Nat.lt_of_lt_of_eq (Nat.succ_pos _) hlength.symm
  · exact (Nat.add_comm ..).trans hlength.symm

/-- A descent that goes on from one place to another, with one call for every item. -/
structure Leads (items : List Scan.Item) (s s' : State) : Prop where
  ready : s'.Ready items
  begun : s'.begun = s.begun
  le : s.count ≤ s'.count
  total : s'.count + s'.pending.length = s.count + s.pending.length

variable {items : List Scan.Item} {s s₁ s₂ : State}

theorem Ready.leads (h : s.Ready items) : s.Leads items s :=
  ⟨h, rfl, Nat.le_refl _, rfl⟩

theorem Leads.trans (h : s.Leads items s₁) (h' : s₁.Leads items s₂) : s.Leads items s₂ :=
  ⟨h'.ready, h'.begun.trans h.begun, Nat.le_trans h.le h'.le, h'.total.trans h.total⟩

/-- A place in an expression, with at most `n` items ahead. -/
structure Inside (items : List Scan.Item) (n : Nat) (s : State) : Prop where
  ready : s.Ready items
  begun : ∀ k ∈ s.begun.head?, k ≤ s.count
  pending : s.pending.length ≤ n

/-- A place behind the first token of an expression, with fewer than `n` items ahead. Here another
expression may begin. -/
structure Deeper (items : List Scan.Item) (n : Nat) (s : State) : Prop where
  ready : s.Ready items
  begun : ∀ k ∈ s.begun.head?, k < s.count
  pending : s.pending.length < n

variable {n : Nat}

/-- A call takes one of the items ahead. -/
theorem Leads.pending_lt (h : s.Leads items s₁) (hlt : s.count < s₁.count) {m : Nat}
    (hm : s.pending.length ≤ m) : s₁.pending.length < m := by
  have htotal := h.total
  omega

theorem Leads.inside (h : s.Leads items s₁) (hs : s.Inside items n) : s₁.Inside items n where
  ready := h.ready
  begun k hk := Nat.le_trans (hs.begun k (h.begun ▸ hk)) h.le
  pending := by
    have htotal := h.total
    have hle := h.le
    have hpending := hs.pending
    omega

theorem Leads.deeper (h : s.Leads items s₁) (hs : s.Deeper items n) : s₁.Deeper items n where
  ready := h.ready
  begun k hk := Nat.lt_of_lt_of_le (hs.begun k (h.begun ▸ hk)) h.le
  pending := by
    have htotal := h.total
    have hle := h.le
    have hpending := hs.pending
    omega

/-- A call leads behind the first token of an expression. -/
theorem Leads.deeper_of_lt (h : s.Leads items s₁) (hs : s.Inside items n)
    (hlt : s.count < s₁.count) : s₁.Deeper items n where
  ready := h.ready
  begun k hk := Nat.lt_of_le_of_lt (hs.begun k (h.begun ▸ hk)) hlt
  pending := by
    have htotal := h.total
    have hpending := hs.pending
    omega

/-- A depth at which twenty functions may be nested for each item ahead, and `rank` more here. -/
def Room (rank depth : Nat) (s : State) : Prop :=
  20 * s.pending.length + rank ≤ depth

variable {rank depth : Nat}

/-- A function takes one and leaves the rest to those it calls. -/
theorem Room.below (h : s.Room (rank + 1) depth) : ∃ d, depth = d + 1 ∧ s.Room rank d := by
  unfold Room at h
  exact ⟨depth - 1, by omega, by unfold Room; omega⟩

theorem Leads.room (h : s.Leads items s₁) (hd : s.Room rank depth) {r : Nat} (hr : r ≤ rank) :
    s₁.Room r depth := by
  have htotal := h.total
  have hle := h.le
  unfold Room at *
  omega

/-- Behind a call of the scanner the grammar may be descended again from its top. -/
theorem Leads.room_of_lt (h : s.Leads items s₁) (hlt : s.count < s₁.count)
    (hd : s.Room rank depth) {r : Nat} (hr : r ≤ 20) : s₁.Room r depth := by
  have htotal := h.total
  unfold Room at *
  omega

theorem count_ask (s : State) : s.ask.count = s.count + 1 :=
  List.length_append

theorem Ready.ask (h : s.Ready items) (hend : s.current.kind ≠ .endOfInput) :
    s.ask.journal.Within items := by
  refine ⟨?_, ?_, h.within.passes, h.within.nestings⟩
  · have htotal := h.total
    have hpos : 0 < (Scan.upToStop s.pending).length := by
      rw [pending_of_kind hend, Scan.upToStop]
      split <;> simp
    have hcount : s.ask.journal.calls.length = s.count + 1 := s.count_ask
    omega
  · intro t ht
    rcases List.mem_append.mp ht with hold | hnew
    · exact h.within.inside t hold
    · cases List.mem_singleton.mp hnew
      exact hend

theorem Ready.read (h : s.Ready items) (hend : s.current.kind ≠ .endOfInput) {t : Token}
    (hnext : s.scanner.next.1 = .token t) : s.Leads items (s.read t) := by
  have htotal := h.total
  have hpending : s.pending = .token t :: (s.read t).pending := by
    rw [pending_of_kind hend, hnext]
    rfl
  -- The token is one of the items ahead and one of those up to the first fault.
  have hcount : (s.read t).count = s.count + 1 := s.count_ask
  have hstop : (Scan.upToStop s.pending).length =
      (Scan.upToStop (s.read t).pending).length + 1 := by
    rw [hpending]
    exact (s.read t).length_upToStop
  have hlength : s.pending.length = (s.read t).pending.length + 1 := by
    rw [hpending, List.length_cons]
  exact ⟨⟨h.ask hend, by omega⟩, rfl, by omega, by omega⟩

theorem Ready.pass (h : s.Ready items) {since : Nat} (hlt : since < s.count) :
    (s.pass since).Ready items := by
  refine ⟨⟨h.within.calls, h.within.inside, ?_, h.within.nestings⟩, h.total⟩
  intro k hk
  rcases List.mem_append.mp hk with hold | hnew
  · exact h.within.passes k hold
  · rw [List.mem_singleton.mp hnew]
    omega

/-- Where an expression begins inside another, a call has been made since that one began. -/
theorem Deeper.enter (h : s.Deeper items (n + 1)) : s.enter.Inside items n := by
  refine ⟨⟨⟨h.ready.within.calls, h.ready.within.inside, h.ready.within.passes, ?_⟩,
    h.ready.total⟩, ?_, Nat.le_of_lt_succ h.pending⟩
  · intro k hk
    rcases List.mem_append.mp hk with hold | hnew
    · exact h.ready.within.nestings k hold
    · obtain ⟨since, hsince, rfl⟩ := Option.map_eq_some_iff.mp (Option.mem_toList.mp hnew)
      have hlt := h.begun since hsince
      omega
  · intro k hk
    cases hk
    exact Nat.le_refl _

end State

/-! ### A descent beside a parser -/

variable {α β : Type} {items : List Scan.Item} {s : State}

theorem bind_of_ok {p : Descent α} {f : α → Descent β} {a : α} {s₁ : State}
    (h : p s = some (.ok a, s₁)) : (p >>= f) s = f a s₁ := by
  change Option.bind (p s) _ = _
  rw [h]
  rfl

theorem bind_of_error {p : Descent α} {f : α → Descent β} {e : CompileError} {s₁ : State}
    (h : p s = some (.error e, s₁)) : (p >>= f) s = some (.error e, s₁) := by
  change Option.bind (p s) _ = _
  rw [h]
  rfl

theorem accept_bind {f : Bool → Descent α} {expected : Token.Kind} :
    (accept expected >>= f) s =
      if s.current.kind = expected then (advance >>= fun _ => f true) s else f false s := by
  unfold accept
  rw [bind_assoc]
  change ((if s.current.kind = expected then do advance; return true else return false) >>= f) s = _
  split
  · rw [bind_assoc]
    simp only [pure_bind]
  · rw [pure_bind]

/-- From a place a descent ends as a parser does. If it comes to a result it has made `k` calls by
then: with one more than there were at first, something has been read. -/
inductive Returns (items : List Scan.Item) (k : Nat) (p : Descent α) (q : Parser α) (s : State) :
    Prop where
  | result {a : α} {s₁ : State} (descent : p s = some (.ok a, s₁))
      (parser : q s.cursor = .ok (a, s₁.cursor)) (leads : s.Leads items s₁) (calls : k ≤ s₁.count)
  | error {e : CompileError} {s₁ : State} (descent : p s = some (.error e, s₁))
      (parser : q s.cursor = .error e) (within : s₁.journal.Within items)

namespace Returns

variable {k : Nat}

theorem weaken {p : Descent α} {q : Parser α} (h : Returns items (s.count + 1) p q s) :
    Returns items s.count p q s := by
  cases h with
  | result descent parser leads calls => exact .result descent parser leads (Nat.le_of_lt calls)
  | error descent parser within => exact .error descent parser within

theorem pure {a : α} (hs : s.Ready items) :
    Returns items s.count (Pure.pure a) (Pure.pure a) s :=
  .result rfl rfl hs.leads (Nat.le_refl _)

theorem bind {p : Descent α} {q : Parser α} {f : α → Descent β} {g : α → Parser β}
    (hp : Returns items k p q s)
    (hf : ∀ a s₁, s.Leads items s₁ → k ≤ s₁.count → Returns items s₁.count (f a) (g a) s₁) :
    Returns items k (p >>= f) (q >>= g) s := by
  have hbind : (q >>= g) s.cursor = (q s.cursor).bind fun r => g r.1 r.2 := rfl
  cases hp with
  | error descent parser within =>
    refine .error (bind_of_error descent) ?_ within
    rw [hbind, parser]
    rfl
  | @result a s₁ descent parser leads calls =>
    rw [parser] at hbind
    cases hf a s₁ leads calls with
    | error descent' parser' within =>
      exact .error ((bind_of_ok descent).trans descent') (hbind.trans parser') within
    | result descent' parser' leads' calls' =>
      exact .result ((bind_of_ok descent).trans descent') (hbind.trans parser')
        (leads.trans leads') (calls.trans calls')

/-- What is left of a descent when it has ended: the result of the parser and a journal. -/
theorem exists_journal {p : Descent α} {q : Parser α} (h : Returns items k p q s) :
    ∃ journal, (p s).map (fun r => (r.1, r.2.journal)) =
      some ((q s.cursor).map (·.1), journal) ∧ journal.Within items := by
  cases h with
  | @result a s₁ descent parser leads calls =>
    exact ⟨s₁.journal, by rw [descent, parser]; rfl, leads.ready.within⟩
  | @error e s₁ descent parser within =>
    exact ⟨s₁.journal, by rw [descent, parser]; rfl, within⟩

/-- The same steps may be written in two ways. -/
theorem congr {p p' : Descent α} {q q' : Parser α} (h : Returns items k p q s)
    (hp : p' s = p s) (hq : q' s.cursor = q s.cursor) : Returns items k p' q' s := by
  cases h with
  | result descent parser leads calls =>
    exact .result (hp.trans descent) (hq.trans parser) leads calls
  | error descent parser within => exact .error (hp.trans descent) (hq.trans parser) within

theorem get {f : State → Descent α} {g : Cursor → Parser α}
    (h : Returns items k (f s) (g s.cursor) s) :
    Returns items k (MonadState.get >>= f) (MonadState.get >>= g) s :=
  h.congr rfl rfl

theorem kind {f : Token.Kind → Descent α} {g : Token.Kind → Parser α}
    (h : Returns items k (f s.current.kind) (g s.current.kind) s) :
    Returns items k (Descent.kind >>= f) (Parser.kind >>= g) s :=
  h.congr rfl rfl

/-- Where its bound is used up, the parser does not look. -/
theorem look {f : Token.Kind → Descent α} {q : Parser α}
    (h : Returns items k (f s.current.kind) q s) :
    Returns items k (Descent.kind >>= f) q s :=
  h.congr rfl rfl

theorem here {f : Span → Descent α} {g : Span → Parser α}
    (h : Returns items k (f s.current.span) (g s.current.span) s) :
    Returns items k (Descent.here >>= f) (Parser.here >>= g) s :=
  h.congr rfl rfl

theorem last {f : Span → Descent α} {g : Span → Parser α}
    (h : Returns items k (f s.last) (g s.last) s) :
    Returns items k (Descent.last >>= f) (Parser.last >>= g) s :=
  h.congr rfl rfl

/-- Only the parser looks how many items are ahead. -/
theorem remaining {p : Descent α} {g : Nat → Parser α}
    (h : Returns items k p (g s.pending.length) s) :
    Returns items k p (Parser.remaining >>= g) s :=
  h.congr rfl rfl

/-- Only the descent looks how many calls it has made. -/
theorem count {f : Nat → Descent α} {q : Parser α} (h : Returns items k (f s.count) q s) :
    Returns items k (Descent.count >>= f) q s :=
  h.congr rfl rfl

/-- Only the descent notes its passes. From where a pass began it has led to the next one. -/
theorem pass {f : Unit → Descent α} {q : Parser α} {s₁ : State} (h : s.Leads items s₁)
    (hlt : s.count < s₁.count)
    (hf : ∀ s₂, s.Leads items s₂ → s.count < s₂.count → Returns items s₂.count (f ()) q s₂) :
    Returns items s₁.count (Descent.pass s.count >>= f) q s₁ := by
  have hpass : s.Leads items (s₁.pass s.count) :=
    ⟨h.ready.pass hlt, h.begun, h.le, h.total⟩
  cases hf (s₁.pass s.count) hpass hlt with
  | result descent parser leads calls =>
    exact .result descent parser ⟨leads.ready, leads.begun, leads.le, leads.total⟩ calls
  | error descent parser within => exact .error descent parser within

theorem fail {cause : ParseError.Cause} (hs : s.Ready items) :
    Returns items k (Descent.fail cause : Descent α) (Parser.fail cause) s :=
  .error rfl rfl hs.within

theorem ite {φ : Prop} [Decidable φ] {p p' : Descent α} {q q' : Parser α}
    (hyes : φ → Returns items k p q s) (hno : ¬ φ → Returns items k p' q' s) :
    Returns items k (if φ then p else p') (if φ then q else q') s := by
  split
  · exact hyes ‹_›
  · exact hno ‹_›

/-- Before the end of the input both go on by one item. -/
theorem step (hs : s.Ready items) (hend : s.current.kind ≠ .endOfInput) :
    Returns items (s.count + 1) Descent.advance Parser.advance s := by
  have hmoved : Descent.advance s = some s.next := rfl
  have hcursor : s.cursor = ⟨s.current, s.last, s.scanner.next.1 ::
      if s.scanner.next.1.isEnd then [] else s.scanner.next.2.ahead⟩ := by
    rw [State.cursor, State.pending_of_kind hend]
  rw [State.next] at hmoved
  cases hnext : s.scanner.next.1 with
  | token t =>
    rw [hnext] at hmoved hcursor
    refine .result hmoved ?_ (hs.read hend hnext) (Nat.le_of_eq s.count_ask.symm)
    rw [hcursor, Parser.advance_eq, Cursor.advance]
    rfl
  | fault e =>
    rw [hnext] at hmoved hcursor
    refine .error hmoved ?_ (hs.ask hend)
    rw [hcursor, Parser.advance_eq, Cursor.advance]
    rfl

theorem advance {f : Unit → Descent α} {g : Unit → Parser α} (hs : s.Ready items)
    (hend : s.current.kind ≠ .endOfInput)
    (hf : ∀ s₁, s.Leads items s₁ → s.count < s₁.count →
      Returns items s₁.count (f ()) (g ()) s₁) :
    Returns items (s.count + 1) (Descent.advance >>= f) (Parser.advance >>= g) s :=
  (step hs hend).bind fun _ s₁ => hf s₁

/-- Reading a token of a kind, if it is there. -/
theorem accept {expected : Token.Kind} {p p' : Descent α} {q q' : Parser α} (hs : s.Ready items)
    (hend : expected ≠ .endOfInput)
    (hyes : ∀ s₁, s.Leads items s₁ → s.count < s₁.count → Returns items s₁.count p q s₁)
    (hno : Returns items s.count p' q' s) :
    Returns items s.count (do if ← Descent.accept expected then p else p')
      (do if ← Parser.accept expected then q else q') s := by
  by_cases hkind : s.current.kind = expected
  · exact (advance hs (hkind ▸ hend) hyes).weaken.congr (accept_bind.trans (if_pos hkind))
      (Parser.accept_bind.trans (if_pos hkind))
  · exact hno.congr (accept_bind.trans (if_neg hkind)) (Parser.accept_bind.trans (if_neg hkind))

/-- Where another token stands the descent leaves its loop. -/
theorem accept_of_ne {expected : Token.Kind} {p p' : Descent α} {q : Parser α}
    (hne : s.current.kind ≠ expected) (h : Returns items k p' q s) :
    Returns items k (do if ← Descent.accept expected then p else p') q s :=
  h.congr (accept_bind.trans (if_neg hne)) rfl

theorem expect {delimiter : Delimiter} {f : Unit → Descent α} {g : Unit → Parser α}
    (hs : s.Ready items)
    (hf : ∀ s₁, s.Leads items s₁ → Returns items s₁.count (f ()) (g ()) s₁) :
    Returns items s.count (Descent.expect delimiter >>= f) (Parser.expect delimiter >>= g) s := by
  have hend : delimiter.kind ≠ .endOfInput := by cases delimiter <;> simp [Delimiter.kind]
  have hexpect : Returns items (s.count + 1) (Descent.expect delimiter)
      (Parser.expect delimiter) s :=
    kind (ite (fun hkind => step hs (hkind ▸ hend)) fun _ => fail hs)
  exact hexpect.weaken.bind fun _ s₁ h₁ _ => hf s₁ h₁

/-- Around an expression only the descent notes where it begins. -/
theorem nested {p : Descent Expr} {q : Parser Expr} (h : Returns items k p q s.enter) :
    Returns items k (do Descent.enter; let e ← p; Descent.leave; return e) q s := by
  have hmoved : (do Descent.enter; let e ← p; Descent.leave; return e) s =
      (do let e ← p; Descent.leave; return e) s.enter := rfl
  cases h with
  | @result e s₁ descent parser leads calls =>
    have hleave : s.Leads items s₁.leave :=
      ⟨⟨leads.ready.within, leads.ready.total⟩, congrArg List.tail leads.begun, leads.le,
        leads.total⟩
    exact .result (hmoved.trans (bind_of_ok descent)) parser hleave calls
  | error descent parser within =>
    exact .error (hmoved.trans (bind_of_error descent)) parser within

end Returns

end Descent

end LoopNest
