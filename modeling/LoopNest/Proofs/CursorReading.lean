import LoopNest.Proofs.Grammar

/-!
# Cursors and the words they read

A cursor reads words by moving over the tokens that have them. In the items of a text the end of the
input is the last one and no other, so a cursor that is not at the end has an item before it, and
only there can reading go on. The second part says what the small steps of the parser do to a cursor.
-/

namespace LoopNest

namespace Cursor

/-- The cursor at the next token, if there is one. -/
def next? (c : Cursor) : Option Cursor :=
  match c.rest with
  | .token t :: rest => some ⟨t, c.current.span, rest⟩
  | _ => none

/-- `c.Reads ws c'` holds if moving from `c` over tokens with the words `ws` leads to `c'`. -/
def Reads (c : Cursor) : List Word → Cursor → Prop
  | [], c' => c = c'
  | w :: ws, c' => c.current.word = w ∧ ∃ c₁, c.next? = some c₁ ∧ c₁.Reads ws c'

@[simp] theorem reads_nil {c c' : Cursor} : c.Reads [] c' ↔ c = c' := Iff.rfl

theorem reads_cons {c c' : Cursor} {w : Word} {ws : List Word} :
    c.Reads (w :: ws) c' ↔ c.current.word = w ∧ ∃ c₁, c.next? = some c₁ ∧ c₁.Reads ws c' :=
  Iff.rfl

theorem reads_append {c c' : Cursor} {ws vs : List Word} :
    c.Reads (ws ++ vs) c' ↔ ∃ c₁, c.Reads ws c₁ ∧ c₁.Reads vs c' := by
  induction ws generalizing c with
  | nil => simp
  | cons w ws ih =>
    simp only [List.cons_append, reads_cons, ih]
    constructor
    · rintro ⟨hw, c₁, hc₁, c₂, h, h'⟩
      exact ⟨c₂, ⟨hw, c₁, hc₁, h⟩, h'⟩
    · rintro ⟨c₂, ⟨hw, c₁, hc₁, h⟩, h'⟩
      exact ⟨hw, c₁, hc₁, c₂, h, h'⟩

theorem Reads.append {c c₁ c' : Cursor} {ws vs : List Word} (h : c.Reads ws c₁)
    (h' : c₁.Reads vs c') : c.Reads (ws ++ vs) c' :=
  reads_append.mpr ⟨c₁, h, h'⟩

/-- The end of the input is the last item and no other. -/
def Ended : List Scan.Item → Prop
  | [] => False
  | [i] => i.isEnd = true
  | i :: is => i.isEnd = false ∧ Ended is

/-- A cursor over the items of a text, of which the last is the end of the input. -/
def Closed (c : Cursor) : Prop :=
  Ended (.token c.current :: c.rest)

theorem length_of_next? {c c₁ : Cursor} (h : c.next? = some c₁) :
    c.rest.length = c₁.rest.length + 1 := by
  unfold next? at h
  split at h
  · next t rest hrest =>
    cases h
    rw [hrest, List.length_cons]
  · cases h

theorem Reads.length {c c' : Cursor} {ws : List Word} (h : c.Reads ws c') :
    c.rest.length = ws.length + c'.rest.length := by
  induction ws generalizing c with
  | nil =>
    cases h
    simp
  | cons w ws ih =>
    obtain ⟨-, c₁, hc₁, h⟩ := h
    rw [length_of_next? hc₁, ih h, List.length_cons]
    omega

/-- What is before a cursor that reads a word of a kind. -/
theorem Reads.uncons {c c' : Cursor} {k : Token.Kind} {s : String} {ws : List Word}
    (h : c.Reads ((k, s) :: ws) c') :
    c.current.kind = k ∧ c.current.lexeme = s ∧ ∃ c₁, c.next? = some c₁ ∧ c₁.Reads ws c' ∧
      c.rest.length = c₁.rest.length + 1 := by
  obtain ⟨hw, c₁, hn, hr⟩ := h
  cases hw
  exact ⟨rfl, rfl, c₁, hn, hr, length_of_next? hn⟩

theorem Closed.next {c c₁ : Cursor} (hc : c.Closed) (h : c.next? = some c₁) : c₁.Closed := by
  unfold next? at h
  split at h
  · next t rest hrest =>
    cases h
    rw [Closed, hrest] at hc
    exact hc.2
  · cases h

theorem Closed.reads {c c' : Cursor} {ws : List Word} (hc : c.Closed) (h : c.Reads ws c') :
    c'.Closed := by
  induction ws generalizing c with
  | nil =>
    cases h
    exact hc
  | cons w ws ih =>
    obtain ⟨-, c₁, hc₁, h⟩ := h
    exact ih (hc.next hc₁) h

/-- Only at the end of the input nothing follows. -/
theorem Closed.rest_ne_nil {c : Cursor} (hc : c.Closed) (h : c.current.kind ≠ .endOfInput) :
    c.rest ≠ [] := by
  intro hrest
  rw [Closed, hrest] at hc
  exact h (by simpa [Ended, Scan.Item.isEnd, Token.isEnd] using hc)

theorem Closed.rest_eq_nil {c : Cursor} (hc : c.Closed) (h : c.current.kind = .endOfInput) :
    c.rest = [] := by
  cases hrest : c.rest with
  | nil => rfl
  | cons i is =>
    rw [Closed, hrest] at hc
    exact absurd hc.1 (by simp [Scan.Item.isEnd, Token.isEnd, h])

theorem advance_of_next? {c c₁ : Cursor} (h : c.next? = some c₁) : c.advance = .ok c₁ := by
  unfold next? at h
  split at h
  · next t rest hrest =>
    cases h
    rw [advance, hrest]
  · cases h

theorem Closed.next?_of_advance {c c₁ : Cursor} (hc : c.Closed)
    (hk : c.current.kind ≠ .endOfInput) (h : c.advance = .ok c₁) : c.next? = some c₁ := by
  unfold advance at h
  split at h
  · next t rest hrest =>
    cases h
    rw [next?, hrest]
  · cases h
  · next hrest => exact absurd hrest (hc.rest_ne_nil hk)

end Cursor

namespace Parser

variable {α β : Type} {c c' : Cursor}

theorem bind_eq_ok {p : Parser α} {f : α → Parser β} {b : β} :
    (p >>= f) c = .ok (b, c') ↔ ∃ a c₁, p c = .ok (a, c₁) ∧ f a c₁ = .ok (b, c') := by
  change Except.bind (p c) (fun r => f r.1 r.2) = _ ↔ _
  cases p c with
  | error e => simp [Except.bind]
  | ok r =>
    constructor
    · exact fun h => ⟨r.1, r.2, rfl, h⟩
    · rintro ⟨a, c₁, h, hf⟩
      cases h
      exact hf

theorem bind_of_ok {p : Parser α} {f : α → Parser β} {a : α} {c₁ : Cursor}
    (h : p c = .ok (a, c₁)) : (p >>= f) c = f a c₁ := by
  change Except.bind (p c) (fun r => f r.1 r.2) = _
  rw [h]
  rfl

theorem pure_eq_ok {a b : α} : (pure a : Parser α) c = .ok (b, c') ↔ a = b ∧ c = c' := by
  change Except.ok (a, c) = _ ↔ _
  simp

theorem fail_ne_ok {cause : ParseError.Cause} {a : α} :
    (fail cause : Parser α) c ≠ .ok (a, c') := by
  intro h
  cases h

theorem get_bind {f : Cursor → Parser α} : ((get : Parser Cursor) >>= f) c = f c c := rfl

theorem kind_bind {f : Token.Kind → Parser α} : (kind >>= f) c = f c.current.kind c := rfl

theorem here_bind {f : Span → Parser α} : (here >>= f) c = f c.current.span c := rfl

theorem last_bind {f : Span → Parser α} : (last >>= f) c = f c.last c := rfl

theorem remaining_bind {f : Nat → Parser α} : (remaining >>= f) c = f c.rest.length c := rfl

theorem advance_eq : advance c = c.advance.map fun c₁ => ((), c₁) := by
  unfold advance
  change Except.bind (Except.bind c.advance fun c₁ => .ok (c₁, c)) (fun r => .ok ((), r.1)) = _
  cases c.advance <;> rfl

theorem advance_bind_of_next? {f : Unit → Parser α} {c₁ : Cursor} (h : c.next? = some c₁) :
    (advance >>= f) c = f () c₁ := by
  apply bind_of_ok
  rw [advance_eq, Cursor.advance_of_next? h]
  rfl

/-- In a closed cursor that is not at the end, going on is moving to the next token. -/
theorem advance_bind_eq_ok {f : Unit → Parser α} {a : α} (hc : c.Closed)
    (hk : c.current.kind ≠ .endOfInput) :
    (advance >>= f) c = .ok (a, c') ↔ ∃ c₁, c.next? = some c₁ ∧ f () c₁ = .ok (a, c') := by
  constructor
  · intro h
    obtain ⟨_, c₁, hadv, hf⟩ := bind_eq_ok.mp h
    rw [advance_eq] at hadv
    cases hn : c.advance with
    | error e => simp [hn, Except.map] at hadv
    | ok c₂ =>
      simp only [hn, Except.map, Except.ok.injEq, Prod.mk.injEq, true_and] at hadv
      exact ⟨c₁, hadv ▸ hc.next?_of_advance hk hn, hf⟩
  · rintro ⟨c₁, hn, hf⟩
    rw [advance_bind_of_next? hn, hf]

theorem accept_bind {f : Bool → Parser α} {k : Token.Kind} :
    (accept k >>= f) c =
      if c.current.kind = k then (advance >>= fun _ => f true) c else f false c := by
  unfold accept
  rw [bind_assoc, kind_bind]
  split
  · rw [bind_assoc]
    simp only [pure_bind]
  · rw [pure_bind]

theorem expect_bind {f : Unit → Parser α} {d : Delimiter} :
    (expect d >>= f) c =
      if c.current.kind = d.kind then (advance >>= f) c else (fail (.missing d) >>= f) c := by
  unfold expect
  rw [bind_assoc, kind_bind]
  split <;> rfl

end Parser

end LoopNest
