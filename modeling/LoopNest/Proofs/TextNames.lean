import LoopNest.Proofs.Lexing

/-!
# The names in a text

A name in a text is an operand, unless a call opens behind it. Texts that are put together from
pieces have no operands but those of their pieces, since a token between them is no name.
-/

namespace LoopNest

/-- What tokens show: which ones are names, which ones open a call, and which ones are as they should
be. -/
structure Naming (τ : Type) where
  name? : τ → Option String
  opensCall : τ → Bool
  isPlain : τ → Prop

namespace Naming

variable {τ : Type} (v : Naming τ)

/-- The names behind which no call opens. -/
def operands : List τ → List String
  | [] => []
  | t :: ts => (if ts.head?.any v.opensCall then [] else (v.name? t).toList) ++ operands ts

variable {v}

theorem mem_operands_append {ts us : List τ} {n : String} (h : n ∈ v.operands (ts ++ us)) :
    n ∈ v.operands ts ∨ n ∈ v.operands us := by
  induction ts with
  | nil => exact .inr h
  | cons t ts ih =>
    rw [List.cons_append, operands, List.mem_append] at h
    rw [operands, List.mem_append]
    rcases h with h | h
    · left
      left
      cases ts with
      | nil =>
        split at h
        · cases h
        · simpa using h
      | cons u ts => exact h
    · exact (ih h).imp_left .inr

theorem mem_operands_cons {t : τ} {ts : List τ} {n : String} (h : n ∈ v.operands (t :: ts)) :
    v.name? t = some n ∨ n ∈ v.operands ts := by
  rw [operands, List.mem_append] at h
  refine h.imp_left fun h => ?_
  split at h
  · cases h
  · simpa using h

theorem exists_of_mem_operands {ts : List τ} {n : String} (h : n ∈ v.operands ts) :
    ∃ t ∈ ts, v.name? t = some n := by
  induction ts with
  | nil => cases h
  | cons t ts ih =>
    rcases mem_operands_cons h with h | h
    · exact ⟨t, List.mem_cons_self, h⟩
    · obtain ⟨u, hu, hn⟩ := ih h
      exact ⟨u, List.mem_cons_of_mem _ hu, hn⟩

/-- A token that is no name. -/
structure Inert (v : Naming τ) (t : τ) : Prop where
  name : v.name? t = none
  plain : v.isPlain t

/-- Tokens as they should be, with operands of which a property holds. -/
structure Clean (v : Naming τ) (P : String → Prop) (ts : List τ) : Prop where
  plain : ∀ t ∈ ts, v.isPlain t
  operands : ∀ n ∈ v.operands ts, P n

variable {P : String → Prop} {ts us : List τ} {t u : τ}

theorem clean_nil : v.Clean P [] :=
  ⟨by simp, by simp [Naming.operands]⟩

theorem Clean.append (h : v.Clean P ts) (h' : v.Clean P us) : v.Clean P (ts ++ us) where
  plain := List.forall_mem_append.mpr ⟨h.plain, h'.plain⟩
  operands n hn := (mem_operands_append hn).elim (h.operands n) (h'.operands n)

theorem Clean.cons (ht : v.Inert t) (h : v.Clean P ts) : v.Clean P (t :: ts) where
  plain := List.forall_mem_cons.mpr ⟨ht.plain, h.plain⟩
  operands n hn := by
    rcases mem_operands_cons hn with hn | hn
    · simp [ht.name] at hn
    · exact h.operands n hn

/-- Nothing is asked of a name that is called. -/
theorem Clean.called (ht : v.isPlain t) (hu : v.Inert u) (hopens : v.opensCall u)
    (h : v.Clean P ts) : v.Clean P (t :: u :: ts) where
  plain := List.forall_mem_cons.mpr ⟨ht, (h.cons hu).plain⟩
  operands n hn := (h.cons hu).operands n (by simpa [Naming.operands, hopens] using hn)

end Naming

namespace Lexer

variable {σ τ : Type} {l : Lexer σ τ} {v : Naming τ} {P : String → Prop} {a b : String} {t u w : τ}

/-- A text that is read as clean tokens. -/
def Shows (l : Lexer σ τ) (v : Naming τ) (P : String → Prop) (text : String) : Prop :=
  ∃ ts, l.Spells text ts ∧ v.Clean P ts

namespace Shows

theorem empty : l.Shows v P "" :=
  ⟨[], .empty, Naming.clean_nil⟩

theorem separated {sep : String} (ha : l.Shows v P a) (hsep : l.Separates sep t) (ht : v.Inert t)
    (hb : l.Shows v P b) : l.Shows v P (a ++ sep ++ b) := by
  obtain ⟨ts, hspells, hclean⟩ := ha
  obtain ⟨us, hspells', hclean'⟩ := hb
  exact ⟨_, hspells.separated hsep hspells', hclean.append (hclean'.cons ht)⟩

theorem operation {symbol : String} (ha : l.Shows v P a)
    (hsep : l.Separates (" " ++ symbol ++ " ") t) (ht : v.Inert t) (hb : l.Shows v P b) :
    l.Shows v P (a ++ " " ++ symbol ++ " " ++ b) := by
  have h := ha.separated hsep ht hb
  simpa only [String.append_assoc] using h

theorem enclosed {left right : String} (h : l.Encloses left right t u) (ht : v.Inert t)
    (hu : v.Inert u) (ha : l.Shows v P a) : l.Shows v P (left ++ a ++ right) := by
  obtain ⟨ts, hspells, hclean⟩ := ha
  exact ⟨_, hspells.enclosed h, (hclean.append (Naming.clean_nil.cons hu)).cons ht⟩

theorem applied {left right : String} (ha : l.Shows v P a) (h : l.Encloses left right t u)
    (ht : v.Inert t) (hu : v.Inert u) (hb : l.Shows v P b) :
    l.Shows v P (a ++ left ++ b ++ right) := by
  obtain ⟨ts, hspells, hclean⟩ := ha
  obtain ⟨us, hspells', hclean'⟩ := hb
  exact ⟨_, hspells.applied h hspells',
    hclean.append ((hclean'.append (Naming.clean_nil.cons hu)).cons ht)⟩

/-- A call of a name, of which nothing is asked. -/
theorem called {left right : String} (ha : l.Spells a [w]) (hw : v.isPlain w)
    (h : l.Encloses left right t u) (ht : v.Inert t) (hopens : v.opensCall t) (hu : v.Inert u)
    (hb : l.Shows v P b) : l.Shows v P (a ++ left ++ b ++ right) := by
  obtain ⟨us, hspells, hclean⟩ := hb
  exact ⟨_, ha.applied h hspells, .called hw ht hopens (hclean.append (Naming.clean_nil.cons hu))⟩

theorem intercalate {sep : String} (hsep : l.Separates sep t) (ht : v.Inert t) {texts : List String}
    (h : ∀ text ∈ texts, l.Shows v P text) : l.Shows v P (sep.intercalate texts) := by
  induction texts with
  | nil => exact empty
  | cons text texts ih =>
    obtain ⟨htext, htexts⟩ := List.forall_mem_cons.mp h
    cases texts with
    | nil => rwa [String.intercalate_singleton]
    | cons text' texts =>
      rw [String.intercalate_cons_cons]
      exact htext.separated hsep ht (ih htexts)

end Shows

end Lexer

end LoopNest
