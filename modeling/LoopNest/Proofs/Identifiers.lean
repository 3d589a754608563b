import LoopNest.Proofs.FieldMentions
import LoopNest.Proofs.LoweredSpaces

/-!
# The identifiers of programs

Every name in the tree of a program, callees included, is an identifier of its text. So are the
iterators of a space and the names of fields, since they are read off the tree.
-/

namespace LoopNest

mutual

/-- The names of an expression and the callees of its calls. -/
def Expr.identifiers : Expr → List String
  | .name _ text => [text]
  | .number .. => []
  | .binary _ left _ right => left.identifiers ++ right.identifiers
  | .unary _ _ operand => operand.identifiers
  | .connect _ _ values => identifiersOf values
  | .compare _ left links => left.identifiers ++ identifiersOfLinks links
  | .call _ callee args => callee :: identifiersOf args
  | .subscript _ base index => base.identifiers ++ index.identifiers
  | .tuple _ items => identifiersOf items
  | .list _ items => identifiersOf items
  | .dict _ entries => identifiersOfEntries entries

def identifiersOf : List Expr → List String
  | [] => []
  | e :: es => e.identifiers ++ identifiersOf es

def identifiersOfLinks : List (CompareOp × Expr) → List String
  | [] => []
  | (_, e) :: links => e.identifiers ++ identifiersOfLinks links

def identifiersOfEntries : List (Expr × Expr) → List String
  | [] => []
  | (key, value) :: entries => key.identifiers ++ (value.identifiers ++ identifiersOfEntries entries)

end

def Stmt.identifiers : Stmt → List String
  | .assign _ targets value => identifiersOf targets ++ value.identifiers
  | .augment _ target _ value => target.identifiers ++ value.identifiers
  | .eval _ value => value.identifiers

/-! ### From the words of a text -/

namespace Grammar

def Phrase.identifiers : Phrase → List String
  | .expr e => e.identifiers
  | .exprs es => identifiersOf es
  | .links ls => identifiersOfLinks ls
  | .entries es => identifiersOfEntries es

theorem Derives.identifier_mem {symbol : Symbol} {ws : List Word} {phrase : Phrase}
    (h : Derives symbol ws phrase) : ∀ n ∈ phrase.identifiers, (.identifier, n) ∈ ws := by
  induction h with
  | atom _ ih | primary _ ih | power _ ih | operand _ ih | uncompared _ ih | comparison _ ih
  | unconnected _ ih | single _ ih => exact ih
  | name | number | unit | noLink | noPart | noItem | noEntry =>
    simp [Phrase.identifiers, Expr.identifiers, identifiersOf, identifiersOfLinks,
      identifiersOfEntries]
  | _ =>
    simp only [Phrase.identifiers, Expr.identifiers, identifiersOf, identifiersOfLinks,
      identifiersOfEntries, List.append_nil] at *
    grind

theorem Targets.identifier_mem {ws : List Word} {targets : List Expr} (h : Targets ws targets) :
    ∀ n ∈ identifiersOf targets, (.identifier, n) ∈ ws := by
  induction h with
  | nil => simp [identifiersOf]
  | cons s head _ _ ih =>
    have hhead := head.identifier_mem
    simp only [Phrase.identifiers] at hhead
    simp only [identifiersOf, List.mem_append, List.mem_cons]
    grind

theorem Statement.identifier_mem {ws : List Word} {stmt : Stmt} (h : Statement ws stmt) :
    ∀ n ∈ stmt.identifiers, (.identifier, n) ∈ ws := by
  cases h with
  | eval h => exact h.identifier_mem
  | assign left right =>
    have hleft := left.identifier_mem
    have hright := right.identifier_mem
    simp only [Phrase.identifiers] at hright
    simp only [Stmt.identifiers, List.mem_append]
    grind
  | augment s left _ right =>
    have hleft := left.identifier_mem
    have hright := right.identifier_mem
    simp only [Phrase.identifiers] at hleft hright
    simp only [Stmt.identifiers, List.mem_append, List.mem_cons]
    grind

theorem Body.identifier_mem {ws : List Word} {ss : List Stmt} (h : Body ws ss) :
    ∀ s ∈ ss, ∀ n ∈ s.identifiers, (.identifier, n) ∈ ws := by
  induction h with
  | nil => simp
  | skip s _ _ ih => exact fun s hs n hn => List.mem_cons_of_mem _ (ih s hs n hn)
  | last h => exact List.forall_mem_singleton.mpr h.identifier_mem
  | cons s head _ _ ih =>
    refine List.forall_mem_cons.mpr ⟨fun n hn => ?_, fun s hs n hn => ?_⟩
    · exact List.mem_append_left _ (head.identifier_mem n hn)
    · exact List.mem_append_right _ (List.mem_cons_of_mem _ (ih s hs n hn))

end Grammar

mutual

theorem Expr.identifiers_bare : ∀ e : Expr, e.bare.identifiers = e.identifiers
  | .name .. | .number .. => by simp [Expr.bare, Expr.identifiers]
  | .binary _ left _ right => by
    simp [Expr.bare, Expr.identifiers, left.identifiers_bare, right.identifiers_bare]
  | .unary _ _ operand => by simp [Expr.bare, Expr.identifiers, operand.identifiers_bare]
  | .connect _ _ values => by simp [Expr.bare, Expr.identifiers, identifiersOf_bareAll values]
  | .compare _ left links => by
    simp [Expr.bare, Expr.identifiers, left.identifiers_bare, identifiersOfLinks_bareLinks links]
  | .call _ _ args => by simp [Expr.bare, Expr.identifiers, identifiersOf_bareAll args]
  | .subscript _ base index => by
    simp [Expr.bare, Expr.identifiers, base.identifiers_bare, index.identifiers_bare]
  | .tuple _ items | .list _ items => by
    simp [Expr.bare, Expr.identifiers, identifiersOf_bareAll items]
  | .dict _ entries => by
    simp [Expr.bare, Expr.identifiers, identifiersOfEntries_bareEntries entries]

theorem identifiersOf_bareAll : ∀ es : List Expr, identifiersOf (bareAll es) = identifiersOf es
  | [] => by simp [bareAll]
  | e :: es => by simp [bareAll, identifiersOf, e.identifiers_bare, identifiersOf_bareAll es]

theorem identifiersOfLinks_bareLinks : ∀ links : List (CompareOp × Expr),
    identifiersOfLinks (bareLinks links) = identifiersOfLinks links
  | [] => by simp [bareLinks]
  | (_, e) :: links => by
    simp [bareLinks, identifiersOfLinks, e.identifiers_bare, identifiersOfLinks_bareLinks links]

theorem identifiersOfEntries_bareEntries : ∀ entries : List (Expr × Expr),
    identifiersOfEntries (bareEntries entries) = identifiersOfEntries entries
  | [] => by simp [bareEntries]
  | (key, value) :: entries => by
    simp [bareEntries, identifiersOfEntries, key.identifiers_bare, value.identifiers_bare,
      identifiersOfEntries_bareEntries entries]

end

theorem Stmt.identifiers_bare (s : Stmt) : s.bare.identifiers = s.identifiers := by
  cases s <;> simp [bare, identifiers, identifiersOf_bareAll, Expr.identifiers_bare]

/-- Every name in a program is an identifier of its text. -/
theorem Program.exists_identifier {source : String} {p : Program} (h : parse source = .ok p) :
    ∃ ts, Scan.tokens source = .ok ts ∧
      ∀ s ∈ p.body, ∀ n ∈ s.identifiers, ∃ t ∈ ts, t.kind = .identifier ∧ t.lexeme = n := by
  obtain ⟨ts, stop, htokens, -, hbody⟩ := exists_body_of_parse h
  refine ⟨ts ++ [stop], htokens, fun s hs n hn => ?_⟩
  rw [← s.identifiers_bare] at hn
  have hword := hbody.identifier_mem _ (List.mem_map_of_mem hs) n hn
  obtain ⟨t, ht, hword⟩ := List.mem_map.mp hword
  exact ⟨t, List.mem_append_left _ ht, congrArg Prod.fst hword, congrArg Prod.snd hword⟩

/-! ### Iterators and fields -/

theorem Expr.identifiers_of_name? {e : Expr} {name : String} (h : e.name? = some name) :
    e.identifiers = [name] := by
  cases e with
  | name =>
    cases h
    simp [identifiers]
  | _ => cases h

theorem mentionsOf_components (scope : Scope) (e : Expr) :
    mentionsOf scope e.components = e.mentions scope false := by
  cases e <;> simp [Expr.components, mentionsOf, Expr.mentions]

mutual

theorem Expr.mention_mem {scope : Scope} :
    ∀ (e : Expr) {isWrite : Bool} {m : Mention}, m ∈ e.mentions scope isWrite →
      m.name ∈ e.identifiers
  | .name _ text, isWrite, m, h => by
    rw [Expr.mentions] at h
    split at h
    · cases h
    · rw [List.mem_singleton.mp h]
      exact List.mem_singleton.mpr rfl
  | .number .., _, _, h => by simp [Expr.mentions] at h
  | .binary _ left _ right, _, _, h => by
    rw [Expr.mentions, List.mem_append] at h
    rw [Expr.identifiers, List.mem_append]
    exact h.imp left.mention_mem right.mention_mem
  | .unary _ _ operand, _, _, h => by
    rw [Expr.mentions] at h
    exact operand.mention_mem h
  | .connect _ _ values, _, _, h => by
    rw [Expr.mentions] at h
    exact mention_mem_of values h
  | .compare _ left links, _, _, h => by
    rw [Expr.mentions, List.mem_append] at h
    rw [Expr.identifiers, List.mem_append]
    exact h.imp left.mention_mem (mention_mem_ofLinks links)
  | .call _ _ args, _, _, h => by
    rw [Expr.mentions] at h
    exact List.mem_cons_of_mem _ (mention_mem_of args h)
  | .subscript span base index, isWrite, m, h => by
    cases hname : base.name? with
    | none => cases index <;> simp [Expr.mentions, hname] at h
    | some name =>
      rw [Expr.mentions_subscript hname, mentionsOf_components, List.mem_append, List.mem_cons,
        List.mem_singleton] at h
      rw [Expr.identifiers, base.identifiers_of_name? hname, List.singleton_append, List.mem_cons]
      rcases h with (rfl | h) | rfl
      · exact .inl rfl
      · exact .inr (index.mention_mem h)
      · exact .inl rfl
  | .tuple _ items, _, _, h => by
    rw [Expr.mentions] at h
    exact mention_mem_of items h
  | .list _ items, _, _, h => by
    rw [Expr.mentions] at h
    exact mention_mem_of items h
  | .dict _ entries, _, _, h => by
    rw [Expr.mentions, List.mem_append] at h
    exact h.elim (mention_mem_ofKeys entries) (mention_mem_ofValues entries)

theorem mention_mem_of {scope : Scope} :
    ∀ (es : List Expr) {m : Mention}, m ∈ mentionsOf scope es → m.name ∈ identifiersOf es
  | [], _, h => by simp [mentionsOf] at h
  | e :: es, _, h => by
    rw [mentionsOf, List.mem_append] at h
    rw [identifiersOf, List.mem_append]
    exact h.imp e.mention_mem (mention_mem_of es)

theorem mention_mem_ofLinks {scope : Scope} :
    ∀ (links : List (CompareOp × Expr)) {m : Mention}, m ∈ mentionsOfLinks scope links →
      m.name ∈ identifiersOfLinks links
  | [], _, h => by simp [mentionsOfLinks] at h
  | (_, e) :: links, _, h => by
    rw [mentionsOfLinks, List.mem_append] at h
    rw [identifiersOfLinks, List.mem_append]
    exact h.imp e.mention_mem (mention_mem_ofLinks links)

theorem mention_mem_ofKeys {scope : Scope} :
    ∀ (entries : List (Expr × Expr)) {m : Mention}, m ∈ mentionsOfKeys scope entries →
      m.name ∈ identifiersOfEntries entries
  | [], _, h => by simp [mentionsOfKeys] at h
  | (key, _) :: entries, _, h => by
    rw [mentionsOfKeys, List.mem_append] at h
    simp only [identifiersOfEntries, List.mem_append]
    exact h.imp key.mention_mem fun h => .inr (mention_mem_ofKeys entries h)

theorem mention_mem_ofValues {scope : Scope} :
    ∀ (entries : List (Expr × Expr)) {m : Mention}, m ∈ mentionsOfValues scope entries →
      m.name ∈ identifiersOfEntries entries
  | [], _, h => by simp [mentionsOfValues] at h
  | (_, value) :: entries, _, h => by
    rw [mentionsOfValues, List.mem_append] at h
    simp only [identifiersOfEntries, List.mem_append]
    exact .inr (h.imp value.mention_mem (mention_mem_ofValues entries))

end

theorem Stmt.mention_mem {scope : Scope} {s : Stmt} {m : Mention} (h : m ∈ s.mentions scope) :
    m.name ∈ s.identifiers := by
  fun_cases Stmt.mentions scope s with
  | case1 span e value =>
    rw [mentions, List.mem_append] at h
    rw [identifiers, identifiersOf, identifiersOf, List.append_nil, List.mem_append]
    exact h.imp e.mention_mem value.mention_mem
  | case2 => simp_all [mentions]
  | case3 span e op value =>
    rw [mentions, List.mem_append] at h
    rw [identifiers, List.mem_append]
    exact h.imp e.mention_mem value.mention_mem
  | case4 span value => exact value.mention_mem h

theorem identifiersOf_of_mapM_name? {es : List Expr} {names : List String}
    (h : es.mapM Expr.name? = some names) : identifiersOf es = names := by
  induction es generalizing names with
  | nil =>
    cases h
    simp [identifiersOf]
  | cons e es ih =>
    simp only [List.mapM_cons, Option.bind_eq_bind, Option.bind_eq_some_iff, Option.pure_def,
      Option.some.injEq] at h
    obtain ⟨name, hname, more, hmore, rfl⟩ := h
    rw [identifiersOf, e.identifiers_of_name? hname, ih hmore, List.singleton_append]

theorem mem_identifiers_of_keyNames? {entries : List (Expr × Expr)} {names : List String}
    (h : keyNames? entries = some names) : ∀ n ∈ names, n ∈ identifiersOfEntries entries := by
  induction entries generalizing names with
  | nil =>
    cases h
    simp
  | cons entry entries ih =>
    obtain ⟨key, value⟩ := entry
    cases key with
    | list _ items | tuple _ items =>
      simp only [keyNames?, Option.bind_eq_bind, Option.bind_eq_some_iff, Option.pure_def,
        Option.some.injEq] at h
      obtain ⟨first, hfirst, more, hmore, rfl⟩ := h
      intro n hn
      simp only [identifiersOfEntries, Expr.identifiers, identifiersOf_of_mapM_name? hfirst,
        List.mem_append] at hn ⊢
      exact hn.imp_right fun hn => .inr (ih hmore n hn)
    | _ => simp [keyNames?] at h

/-- The iterators of a space are names in its header. -/
theorem Stmt.mem_identifiers_of_spaceFrom? {s : Stmt} {space : Space} {id free : Nat}
    (h : s.spaceFrom? id = some (space, free)) : ∀ i ∈ space.iterators, i ∈ s.identifiers := by
  unfold spaceFrom? at h
  split at h
  · simp only [Option.bind_eq_bind, Option.bind_eq_some_iff, Option.pure_def, Option.some.injEq,
      Prod.mk.injEq] at h
    obtain ⟨_, -, names, hnames, chains, -, ⟨rs, free⟩, -, rfl, rfl⟩ := h
    intro i hi
    have hkey := mem_identifiers_of_keyNames? hnames i (Names.mem_distinct.mp hi)
    rw [identifiers, Expr.identifiers, List.mem_append]
    exact .inr hkey
  · cases h

end LoopNest
