/-!
# Reading texts that are put together from pieces

A writer puts a text together from pieces with operators, commas and brackets between them. A lexer
reads such a text piece by piece, as long as what follows a piece cannot be taken for a part of it.
The pieces are followed only by the characters in `boundaries`, or by nothing, and a text spells its
tokens if it is read as them whenever such a character follows.
-/

namespace LoopNest

/-- A lexer takes the token at the head of a text off it, in a state that it carries along. Blanks
stand between tokens and are none. -/
structure Lexer (σ τ : Type) where
  step : σ → List Char → Option (τ × σ × List Char)
  step_nil : ∀ s, step s [] = none
  step_blank : ∀ s cs, step s (' ' :: cs) = none

namespace Lexer

variable {σ τ : Type} {l : Lexer σ τ}

/-- `l.Reads s cs ts s' cs'` holds if the tokens `ts` lead from the state `s` before the text `cs`
to the state `s'` before `cs'`. -/
inductive Reads (l : Lexer σ τ) : σ → List Char → List τ → σ → List Char → Prop where
  | done (s : σ) (cs : List Char) : Reads l s cs [] s cs
  | blank {s s' : σ} {cs cs' : List Char} {ts : List τ} (rest : Reads l s cs ts s' cs') :
      Reads l s (' ' :: cs) ts s' cs'
  | token {s s₁ s' : σ} {cs cs₁ cs' : List Char} {t : τ} {ts : List τ}
      (head : l.step s cs = some (t, s₁, cs₁)) (rest : Reads l s₁ cs₁ ts s' cs') :
      Reads l s cs (t :: ts) s' cs'

theorem Reads.append {s s₁ s' : σ} {cs cs₁ cs' : List Char} {ts us : List τ}
    (h : l.Reads s cs ts s₁ cs₁) (h' : l.Reads s₁ cs₁ us s' cs') :
    l.Reads s cs (ts ++ us) s' cs' := by
  induction h with
  | done => exact h'
  | blank _ ih => exact .blank (ih h')
  | token head _ ih => exact .token head (ih h')

/-- A text that is read to its end has no other tokens. -/
theorem Reads.unique {s s₁ s₂ : σ} {cs : List Char} {ts us : List τ}
    (h : l.Reads s cs ts s₁ []) (h' : l.Reads s cs us s₂ []) : ts = us := by
  generalize hend : ([] : List Char) = rest at h
  induction h generalizing us with
  | done s =>
    subst hend
    cases h' with
    | done => rfl
    | token head => simp [l.step_nil] at head
  | blank _ ih =>
    cases h' with
    | blank rest' => exact ih rest' hend
    | token head => simp [l.step_blank] at head
  | token head _ ih =>
    cases h' with
    | done => simp [l.step_nil] at head
    | blank => simp [l.step_blank] at head
    | token head' rest' =>
      rw [head] at head'
      cases head'
      rw [ih rest' hend]

theorem Reads.iff_eq {s s' : σ} {cs : List Char} {ts : List τ} (h : l.Reads s cs ts s' [])
    (us : List τ) : l.Reads s cs us s' [] ↔ us = ts := by
  constructor
  · intro h'
    exact h'.unique h
  · rintro rfl
    exact h

/-- The characters that no name and no number goes on with. -/
def boundaries : List Char :=
  [' ', '(', ')', '[', ']', '{', '}', ',']

/-- A text that begins with a boundary, if it is not empty. -/
def Bounded (tail : List Char) : Prop :=
  ∀ c ∈ tail.head?, c ∈ boundaries

theorem bounded_nil : Bounded [] := by
  simp [Bounded]

theorem bounded_cons {c : Char} (h : c ∈ boundaries) (tail : List Char) : Bounded (c :: tail) := by
  simpa [Bounded] using h

/-- A text that is read as the given tokens wherever a boundary follows it. -/
def Spells (l : Lexer σ τ) (text : String) (ts : List τ) : Prop :=
  ∀ s tail, Bounded tail → l.Reads s (text.toList ++ tail) ts s tail

/-- A text that is read as one token between pieces. -/
structure Separates (l : Lexer σ τ) (text : String) (t : τ) : Prop where
  bounded : ∀ tail, Bounded (text.toList ++ tail)
  reads : ∀ s tail, l.Reads s (text.toList ++ tail) [t] s tail

/-- Two texts that are read as one token each and may enclose a piece. -/
structure Encloses (l : Lexer σ τ) (left right : String) (t u : τ) : Prop where
  bounded : ∀ tail, Bounded (left.toList ++ tail) ∧ Bounded (right.toList ++ tail)
  reads : ∀ s, ∃ s₁, (∀ tail, l.Reads s (left.toList ++ tail) [t] s₁ tail) ∧
    ∀ tail, l.Reads s₁ (right.toList ++ tail) [u] s tail

theorem Spells.empty : l.Spells "" [] :=
  fun s tail _ => .done s tail

theorem Spells.separated {a b sep : String} {ts us : List τ} {t : τ} (ha : l.Spells a ts)
    (hsep : l.Separates sep t) (hb : l.Spells b us) :
    l.Spells (a ++ sep ++ b) (ts ++ t :: us) := by
  intro s tail htail
  rw [String.toList_append, String.toList_append, List.append_assoc, List.append_assoc]
  have hrest : l.Reads s (sep.toList ++ (b.toList ++ tail)) ([t] ++ us) s tail :=
    (hsep.reads s _).append (hb s tail htail)
  exact (ha s _ (hsep.bounded _)).append hrest

theorem Spells.enclosed {a left right : String} {ts : List τ} {t u : τ}
    (h : l.Encloses left right t u) (ha : l.Spells a ts) :
    l.Spells (left ++ a ++ right) (t :: (ts ++ [u])) := by
  intro s tail _
  obtain ⟨s₁, hleft, hright⟩ := h.reads s
  rw [String.toList_append, String.toList_append, List.append_assoc, List.append_assoc]
  have hrest : l.Reads s₁ (a.toList ++ (right.toList ++ tail)) (ts ++ [u]) s tail :=
    (ha s₁ _ (h.bounded tail).2).append (hright tail)
  exact (hleft _).append hrest

/-- Two pieces with a token between them. The first one is enclosed, so the token need not begin with
a boundary. -/
theorem Spells.enclosed_before {a b left right sep : String} {ts us : List τ} {t u v : τ}
    (h : l.Encloses left right t u) (ha : l.Spells a ts)
    (hsep : ∀ s tail, l.Reads s (sep.toList ++ tail) [v] s tail) (hb : l.Spells b us) :
    l.Spells (left ++ a ++ right ++ sep ++ b) (t :: (ts ++ [u]) ++ v :: us) := by
  intro s tail htail
  obtain ⟨s₁, hleft, hright⟩ := h.reads s
  simp only [String.toList_append, List.append_assoc, List.cons_append, List.nil_append]
  have hbehind : l.Reads s (sep.toList ++ (b.toList ++ tail)) ([v] ++ us) s tail :=
    (hsep s _).append (hb s tail htail)
  have hrest : l.Reads s₁ (right.toList ++ (sep.toList ++ (b.toList ++ tail)))
      ([u] ++ ([v] ++ us)) s tail := (hright _).append hbehind
  exact (hleft _).append ((ha s₁ _ (h.bounded _).2).append hrest)

/-- A piece with another one enclosed behind it, as in a call. -/
theorem Spells.applied {a b left right : String} {ts us : List τ} {t u : τ} (ha : l.Spells a ts)
    (h : l.Encloses left right t u) (hb : l.Spells b us) :
    l.Spells (a ++ left ++ b ++ right) (ts ++ t :: (us ++ [u])) := by
  intro s tail htail
  have hrest := hb.enclosed h s tail htail
  simp only [String.toList_append, List.append_assoc] at hrest ⊢
  exact (ha s _ (h.bounded _).1).append hrest

/-- Two pieces with a symbol between them that has blanks around it. -/
theorem Spells.operation {a b symbol : String} {ts us : List τ} {t : τ} (ha : l.Spells a ts)
    (h : l.Separates (" " ++ symbol ++ " ") t) (hb : l.Spells b us) :
    l.Spells (a ++ " " ++ symbol ++ " " ++ b) (ts ++ t :: us) := by
  have hrest := ha.separated h hb
  simpa only [String.append_assoc] using hrest

end Lexer

end LoopNest
