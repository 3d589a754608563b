import LoopNest.Proofs.CGrammar

/-!
# C expressions have one tree

The grammar of C expressions recurses to the left. Reading from left to right with one token of
lookahead is deterministic, and it finds every derivation, so words have no more than one tree.
-/

namespace LoopNest.C

/-- What is read next: a symbol, what may stand behind an operand, or more operands of a level. -/
inductive Goal where
  | symbol (s : Symbol)
  | trailers (t : Tree)
  | operations (l : CLevel) (t : Tree)

/-- The symbols that go on with an operand. -/
def trailing : List String :=
  "(" :: "[" :: steps

/-- Tokens that do not begin with one of some symbols. -/
def Avoids (symbols : List String) (ts : List Token) : Prop :=
  ∀ op ∈ symbols, ts.head? ≠ some (.symbol op)

/-- `Descends goal ts phrase rest` holds if reading the goal at the head of `ts` gives the phrase
and leaves the rest. -/
inductive Descends : Goal → List Token → Phrase → List Token → Prop where
  | name (text : String) (rest : List Token) :
      Descends (.symbol .primary) (.name text :: rest) (.tree (.name text)) rest
  | number (text : String) (rest : List Token) :
      Descends (.symbol .primary) (.number text :: rest) (.tree (.number text)) rest
  | group {ts rest : List Token} {t : Tree}
      (inner : Descends (.symbol (.level .or)) ts (.tree t) (.symbol ")" :: rest)) :
      Descends (.symbol .primary) (.symbol "(" :: ts) (.tree t) rest
  | postfixed {ts us rest : List Token} {t : Tree} {p : Phrase}
      (head : Descends (.symbol .primary) ts (.tree t) us)
      (tail : Descends (.trailers t) us p rest) :
      Descends (.symbol (.level .postfixed)) ts p rest
  | call {ts us rest : List Token} {t : Tree} {args : List Tree} {p : Phrase}
      (inner : Descends (.symbol .args) ts (.trees args) (.symbol ")" :: us))
      (tail : Descends (.trailers (.call t args)) us p rest) :
      Descends (.trailers t) (.symbol "(" :: ts) p rest
  | subscript {ts us rest : List Token} {t : Tree} {index : List Tree} {p : Phrase}
      (inner : Descends (.symbol .list) ts (.trees index) (.symbol "]" :: us))
      (tail : Descends (.trailers (.subscript t index)) us p rest) :
      Descends (.trailers t) (.symbol "[" :: ts) p rest
  | stepped {ts rest : List Token} {t : Tree} {op : String} {p : Phrase} (h : op ∈ steps)
      (tail : Descends (.trailers (.stepped t op)) ts p rest) :
      Descends (.trailers t) (.symbol op :: ts) p rest
  | noTrailer {ts : List Token} (t : Tree) (h : Avoids trailing ts) :
      Descends (.trailers t) ts (.tree t) ts
  | sign {ts rest : List Token} {t : Tree} {op : String} (h : op ∈ signs)
      (operand : Descends (.symbol (.level .unary)) ts (.tree t) rest) :
      Descends (.symbol (.level .unary)) (.symbol op :: ts) (.tree (.unary op t)) rest
  | unsigned {ts rest : List Token} {p : Phrase} (h : Avoids signs ts)
      (operand : Descends (.symbol (.level .postfixed)) ts p rest) :
      Descends (.symbol (.level .unary)) ts p rest
  | level {l m : CLevel} {ts us rest : List Token} {t : Tree} {p : Phrase}
      (hl : l ≠ .unary) (h : tighter? l = some m)
      (head : Descends (.symbol (.level m)) ts (.tree t) us)
      (tail : Descends (.operations l t) us p rest) : Descends (.symbol (.level l)) ts p rest
  | operation {l m : CLevel} {ts us rest : List Token} {t u : Tree} {op : String} {p : Phrase}
      (hop : op ∈ operators l) (h : tighter? l = some m)
      (operand : Descends (.symbol (.level m)) ts (.tree u) us)
      (tail : Descends (.operations l (.binary t op u)) us p rest) :
      Descends (.operations l t) (.symbol op :: ts) p rest
  | noOperation {l : CLevel} {ts : List Token} (t : Tree) (h : Avoids (operators l) ts) :
      Descends (.operations l t) ts (.tree t) ts
  | noArg (rest : List Token) :
      Descends (.symbol .args) (.symbol ")" :: rest) (.trees []) (.symbol ")" :: rest)
  | args {ts rest : List Token} {p : Phrase} (h : Avoids [")"] ts)
      (inner : Descends (.symbol .list) ts p rest) : Descends (.symbol .args) ts p rest
  | last {ts rest : List Token} {t : Tree}
      (head : Descends (.symbol (.level .or)) ts (.tree t) rest) (h : Avoids [","] rest) :
      Descends (.symbol .list) ts (.trees [t]) rest
  | more {ts us rest : List Token} {t : Tree} {more : List Tree}
      (head : Descends (.symbol (.level .or)) ts (.tree t) (.symbol "," :: us))
      (tail : Descends (.symbol .list) us (.trees more) rest) :
      Descends (.symbol .list) ts (.trees (t :: more)) rest

theorem not_avoids {symbols : List String} {op : String} {ts : List Token} (h : op ∈ symbols)
    (ha : Avoids symbols (.symbol op :: ts)) : False :=
  ha op h rfl

/-- Reading from left to right is deterministic. -/
theorem Descends.unique {g : Goal} {ts rest rest' : List Token} {p p' : Phrase}
    (h : Descends g ts p rest) (h' : Descends g ts p' rest') : p' = p ∧ rest' = rest := by
  induction h generalizing p' rest' with
  | name => cases h'; exact ⟨rfl, rfl⟩
  | number => cases h'; exact ⟨rfl, rfl⟩
  | group _ ih =>
    cases h' with
    | group inner' =>
      obtain ⟨hp, hrest⟩ := ih inner'
      cases hp
      cases hrest
      exact ⟨rfl, rfl⟩
  | postfixed _ _ ihead itail =>
    cases h' with
    | postfixed head' tail' =>
      obtain ⟨hp, hrest⟩ := ihead head'
      cases hp
      cases hrest
      exact itail tail'
    | level hl h => cases h
  | @call ts _ _ _ _ _ _ _ iinner itail =>
    generalize hts : Token.symbol "(" :: ts = us at h'
    cases h' with
    | call inner' tail' =>
      cases hts
      obtain ⟨hp, hrest⟩ := iinner inner'
      cases hp
      cases hrest
      exact itail tail'
    | subscript => simp at hts
    | stepped hop =>
      cases hts
      exact absurd hop (by decide)
    | noTrailer _ ha =>
      subst hts
      exact (not_avoids (by decide) ha).elim
  | @subscript ts _ _ _ _ _ _ _ iinner itail =>
    generalize hts : Token.symbol "[" :: ts = us at h'
    cases h' with
    | subscript inner' tail' =>
      cases hts
      obtain ⟨hp, hrest⟩ := iinner inner'
      cases hp
      cases hrest
      exact itail tail'
    | call => simp at hts
    | stepped hop =>
      cases hts
      exact absurd hop (by decide)
    | noTrailer _ ha =>
      subst hts
      exact (not_avoids (by decide) ha).elim
  | stepped hop _ ih =>
    cases h' with
    | call => exact absurd hop (by decide)
    | subscript => exact absurd hop (by decide)
    | stepped _ tail' => exact ih tail'
    | noTrailer _ ha => exact (not_avoids (by simp [trailing, hop]) ha).elim
  | noTrailer t ha =>
    cases h' with
    | call => exact (not_avoids (by decide) ha).elim
    | subscript => exact (not_avoids (by decide) ha).elim
    | stepped hop => exact (not_avoids (by simp [trailing, hop]) ha).elim
    | noTrailer => exact ⟨rfl, rfl⟩
  | sign hop _ ih =>
    cases h' with
    | sign _ operand' =>
      obtain ⟨hp, hrest⟩ := ih operand'
      cases hp
      exact ⟨rfl, hrest⟩
    | unsigned ha => exact (not_avoids hop ha).elim
    | level hl => exact absurd rfl hl
  | unsigned ha _ ih =>
    cases h' with
    | sign hop => exact (not_avoids hop ha).elim
    | unsigned _ operand' => exact ih operand'
    | level hl => exact absurd rfl hl
  | level hl h _ _ ihead itail =>
    cases h' with
    | postfixed => cases h
    | sign => exact absurd rfl hl
    | unsigned => exact absurd rfl hl
    | level _ h'' head' tail' =>
      cases h.symm.trans h''
      obtain ⟨hp, hrest⟩ := ihead head'
      cases hp
      cases hrest
      exact itail tail'
  | operation hop h _ _ ioperand itail =>
    cases h' with
    | operation _ h'' operand' tail' =>
      cases h.symm.trans h''
      obtain ⟨hp, hrest⟩ := ioperand operand'
      cases hp
      cases hrest
      exact itail tail'
    | noOperation _ ha => exact (not_avoids hop ha).elim
  | noOperation t ha =>
    cases h' with
    | operation hop => exact (not_avoids hop ha).elim
    | noOperation => exact ⟨rfl, rfl⟩
  | noArg =>
    cases h' with
    | noArg => exact ⟨rfl, rfl⟩
    | args ha => exact (not_avoids (by decide) ha).elim
  | args ha _ ih =>
    cases h' with
    | noArg => exact (not_avoids (by decide) ha).elim
    | args _ inner' => exact ih inner'
  | last _ ha ih =>
    cases h' with
    | last head' =>
      obtain ⟨hp, hrest⟩ := ih head'
      cases hp
      exact ⟨rfl, hrest⟩
    | more head' =>
      obtain ⟨-, hrest⟩ := ih head'
      rw [← hrest] at ha
      exact (not_avoids (by decide) ha).elim
  | more _ _ ihead itail =>
    cases h' with
    | last head' ha =>
      obtain ⟨-, hrest⟩ := ihead head'
      rw [hrest] at ha
      exact (not_avoids (by decide) ha).elim
    | more head' tail' =>
      obtain ⟨hp, hrest⟩ := ihead head'
      cases hp
      cases hrest
      obtain ⟨hmore, hrest⟩ := itail tail'
      cases hmore
      exact ⟨rfl, hrest⟩

/-! ### How derived words begin and go on -/

/-- The tokens that a symbol begins with. -/
def Symbol.starts : Symbol → Token → Bool
  | .primary, .symbol s | .level .postfixed, .symbol s => s = "("
  | _, .symbol s => s = "(" || s ∈ signs
  | _, _ => true

theorem Symbol.starts_operand {l m : CLevel} (h : tighter? l = some m) {w : Token}
    (hw : (Symbol.level m).starts w) : (Symbol.level l).starts w := by
  cases w with
  | symbol s => cases l <;> cases h <;> simp_all [starts]
  | _ => cases l <;> rfl

theorem Derives.begins {s : Symbol} {ws : List Token} {p : Phrase} (h : Derives s ws p)
    (hs : s ≠ .args) : ∃ w vs, ws = w :: vs ∧ s.starts w := by
  induction h with
  | name | number | group => exact ⟨_, _, rfl, rfl⟩
  | primary _ ih =>
    obtain ⟨w, vs, rfl, hw⟩ := ih (by simp)
    exact ⟨w, vs, rfl, by cases w <;> exact hw⟩
  | call _ _ ih | subscript _ _ ih | stepped _ _ ih =>
    obtain ⟨w, vs, rfl, hw⟩ := ih (by simp)
    exact ⟨w, _, rfl, hw⟩
  | sign hop => exact ⟨_, _, rfl, by simp [Symbol.starts, hop]⟩
  | operand h _ ih =>
    obtain ⟨w, vs, rfl, hw⟩ := ih (by simp)
    exact ⟨w, vs, rfl, Symbol.starts_operand h hw⟩
  | binary _ _ _ _ ih =>
    obtain ⟨w, vs, rfl, hw⟩ := ih (by simp)
    exact ⟨w, _, rfl, hw⟩
  | noArg | args => exact absurd rfl hs
  | last _ ih =>
    obtain ⟨w, vs, rfl, hw⟩ := ih (by simp)
    exact ⟨w, vs, rfl, by cases w <;> exact hw⟩
  | more _ _ ih =>
    obtain ⟨w, vs, rfl, hw⟩ := ih (by simp)
    exact ⟨w, _, rfl, by cases w <;> exact hw⟩

theorem Derives.avoids_signs {ws : List Token} {t : Tree}
    (h : Derives (.level .postfixed) ws (.tree t)) (us : List Token) : Avoids signs (ws ++ us) := by
  obtain ⟨w, vs, rfl, hw⟩ := h.begins (by simp)
  intro op hop heq
  cases heq
  have hs : op = "(" := by simpa [Symbol.starts] using hw
  rw [hs] at hop
  exact absurd hop (by decide)

theorem Derives.avoids_right {ws : List Token} {ts : List Tree}
    (h : Derives .list ws (.trees ts)) (us : List Token) : Avoids [")"] (ws ++ us) := by
  obtain ⟨w, vs, rfl, hw⟩ := h.begins (by simp)
  intro op hop heq
  cases heq
  rw [List.mem_singleton.mp hop] at hw
  exact absurd hw (by decide)

/-- The symbols that go on with a phrase of a level. -/
def glue (l : CLevel) : List String :=
  trailing ++ ([.or, .and, .bitOr, .bitXor, .bitAnd, .equality, .relational, .shift, .additive,
    .multiplicative].filter fun m : CLevel => l.rank ≤ m.rank).flatMap operators

theorem operators_subset_glue (l : CLevel) : ∀ op ∈ operators l, op ∈ glue l := by
  cases l <;> decide

theorem trailing_subset_glue (l : CLevel) : ∀ op ∈ trailing, op ∈ glue l :=
  fun _ h => List.mem_append_left _ h

theorem glue_subset_of_tighter? {l m : CLevel} (h : tighter? l = some m) :
    ∀ op ∈ glue m, op ∈ glue l := by
  cases l <;> cases h <;> decide

theorem operators_not_glue {l m : CLevel} (h : tighter? l = some m) :
    ∀ op ∈ operators l, op ∉ glue m := by
  cases l <;> cases h <;> decide

theorem Avoids.mono {symbols more : List String} {ts : List Token} (h : Avoids more ts)
    (hs : ∀ op ∈ symbols, op ∈ more) : Avoids symbols ts :=
  fun op hop => h op (hs op hop)

theorem avoids_cons {symbols : List String} {s : String} (h : s ∉ symbols) (ts : List Token) :
    Avoids symbols (.symbol s :: ts) := by
  intro op hop heq
  cases heq
  exact h hop

theorem avoids_nil (symbols : List String) : Avoids symbols [] := by
  simp [Avoids]

/-! ### Derivations are found -/

/-- How reading goes on behind a phrase of a level. -/
inductive Follows : CLevel → Tree → List Token → Phrase → List Token → Prop where
  | postfixed {t : Tree} {us rest : List Token} {p : Phrase}
      (h : Descends (.trailers t) us p rest) : Follows .postfixed t us p rest
  | unary {t : Tree} {us : List Token} (h : Avoids (glue .unary) us) :
      Follows .unary t us (.tree t) us
  | binary {l m : CLevel} {t : Tree} {us rest : List Token} {p : Phrase} (hl : l ≠ .unary)
      (h : tighter? l = some m) (ha : Avoids (glue m) us)
      (ho : Descends (.operations l t) us p rest) : Follows l t us p rest

/-- Nothing follows where no symbol goes on with the level. -/
theorem Follows.nothing {l : CLevel} (t : Tree) {us : List Token} (h : Avoids (glue l) us) :
    Follows l t us (.tree t) us := by
  have hbinary : ∀ m, l ≠ .unary → tighter? l = some m → Follows l t us (.tree t) us :=
    fun m hl hm => .binary hl hm (h.mono (glue_subset_of_tighter? hm))
      (.noOperation t (h.mono (operators_subset_glue l)))
  cases l with
  | postfixed => exact .postfixed (.noTrailer t (h.mono (trailing_subset_glue _)))
  | unary => exact .unary h
  | _ => exact hbinary _ (by decide) rfl

/-- Words that are found at the head of a text. A phrase of a level is found before whatever follows
it, so that the operators behind it are joined to it. -/
def Found : Symbol → List Token → Phrase → Prop
  | .level l, ws, .tree t => ∀ us p rest, Follows l t us p rest →
      Descends (.symbol (.level l)) (ws ++ us) p rest
  | .args, ws, p => ∀ us, Descends (.symbol .args) (ws ++ .symbol ")" :: us) p (.symbol ")" :: us)
  | .list, ws, p => ∀ close ∈ [")", "]"], ∀ us,
      Descends (.symbol .list) (ws ++ .symbol close :: us) p (.symbol close :: us)
  | s, ws, p => ∀ us, Descends (.symbol s) (ws ++ us) p us

theorem Found.alone {l : CLevel} {ws : List Token} {t : Tree} (h : Found (.level l) ws (.tree t))
    {us : List Token} (ha : Avoids (glue l) us) :
    Descends (.symbol (.level l)) (ws ++ us) (.tree t) us :=
  h us _ _ (.nothing t ha)

theorem Found.operand {l m : CLevel} {ws : List Token} {t : Tree} (h : tighter? l = some m)
    (hd : Derives (.level m) ws (.tree t)) (ih : Found (.level m) ws (.tree t)) :
    Found (.level l) ws (.tree t) := by
  intro us p rest hf
  cases hf with
  | postfixed => cases h
  | unary ha =>
    cases h
    exact .unsigned (hd.avoids_signs us) (ih.alone (ha.mono (trailing_subset_glue _)))
  | binary hl hm ha ho =>
    cases h.symm.trans hm
    exact .level hl h (ih.alone ha) ho

theorem Found.binary {l m : CLevel} {ws vs : List Token} {left right : Tree} {op : String}
    (hop : op ∈ operators l) (h : tighter? l = some m) (ihead : Found (.level l) ws (.tree left))
    (ilast : Found (.level m) vs (.tree right)) :
    Found (.level l) (ws ++ .symbol op :: vs) (.tree (.binary left op right)) := by
  intro us p rest hf
  rw [List.append_assoc]
  cases hf with
  | postfixed => cases h
  | unary => cases hop
  | binary hl hm ha ho =>
    cases h.symm.trans hm
    exact ihead _ _ _ (.binary hl h (avoids_cons (operators_not_glue h op hop) _)
      (.operation hop h (ilast.alone ha) ho))

/-- Every derivation is found by reading from left to right. -/
theorem found_of_derives {s : Symbol} {ws : List Token} {p : Phrase} (h : Derives s ws p) :
    Found s ws p := by
  induction h with
  | name text => exact fun us => .name text us
  | number text => exact fun us => .number text us
  | group _ ih =>
    intro us
    rw [List.cons_append, List.append_assoc]
    exact .group (ih.alone (avoids_cons (by decide) us))
  | primary _ ih =>
    intro us p rest hf
    cases hf with
    | postfixed h => exact .postfixed (ih us) h
    | binary _ hm => cases hm
  | call _ _ ihead iinner =>
    intro us p rest hf
    cases hf with
    | postfixed h =>
      rw [List.append_assoc, List.cons_append, List.append_assoc]
      exact ihead _ _ _ (.postfixed (.call (iinner us) h))
    | binary _ hm => cases hm
  | subscript _ _ ihead iinner =>
    intro us p rest hf
    cases hf with
    | postfixed h =>
      rw [List.append_assoc, List.cons_append, List.append_assoc]
      exact ihead _ _ _ (.postfixed (.subscript (iinner "]" (by decide) us) h))
    | binary _ hm => cases hm
  | stepped hop _ ihead =>
    intro us p rest hf
    cases hf with
    | postfixed h =>
      rw [List.append_assoc]
      exact ihead _ _ _ (.postfixed (.stepped hop h))
    | binary _ hm => cases hm
  | sign hop _ ih =>
    intro us p rest hf
    cases hf with
    | unary ha => exact .sign hop (ih.alone ha)
    | binary hl => exact absurd rfl hl
  | operand h hd ih => exact ih.operand h hd
  | binary hop h _ _ ihead ilast => exact ihead.binary hop h ilast
  | noArg => exact fun us => .noArg us
  | args hd ih => exact fun us => .args (hd.avoids_right _) (ih ")" (by decide) us)
  | last _ ih =>
    intro close hclose us
    have hc : close ∉ glue .or ∧ close ∉ [","] := by
      rcases List.mem_cons.mp hclose with rfl | hclose
      · decide
      · rw [List.mem_singleton.mp hclose]
        decide
    exact .last (ih.alone (avoids_cons hc.1 us)) (avoids_cons hc.2 us)
  | more _ _ ihead irest =>
    intro close hclose us
    rw [List.append_assoc]
    exact .more (ihead.alone (avoids_cons (by decide) _)) (irest close hclose us)

/-- Words have one tree at most. -/
theorem Derives.unique {l : CLevel} {ws : List Token} {t t' : Tree}
    (h : Derives (.level l) ws (.tree t)) (h' : Derives (.level l) ws (.tree t')) : t' = t := by
  have hd := (found_of_derives h).alone (avoids_nil _)
  have hd' := (found_of_derives h').alone (avoids_nil _)
  cases (hd.unique hd').1
  rfl

end LoopNest.C
