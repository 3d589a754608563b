import LoopNest.Dump
import LoopNest.Proofs.ConstantCollectors
import LoopNest.Proofs.HeaderGrammar
import LoopNest.Proofs.LoweredSpaces
import LoopNest.Table

/-!
# Spaces that are read are well formed

While a header is read its relations are added unfinished and replaced later, so that a space on the
way need not have any shape. The one at the end has: relations are whole and counted one by one, names
are resolved against the iterators, and the iterators are those of the keys in the order in which they
first appear. Every chain has left a relation at least.
-/

namespace LoopNest

/-- The entries of the dict display that a statement assigns. -/
def Stmt.entries : Stmt → List (Expr × Expr)
  | .assign _ _ (.dict _ entries) => entries
  | _ => []

/-- The names that the keys of a header list, with repetitions. -/
def Stmt.listed (s : Stmt) : List String :=
  s.entries.flatMap fun entry => entry.1.listed

/-- A space whose relations are whole, with identities of their own, and whose leaves call the
iterators, which are distinct, and no other names iterators. -/
structure Space.WellFormed (s : Space) : Prop where
  whole : ∀ r ∈ s.relations, r.mid.isSome = r.rightOp.isSome
  ids : (s.relations.map Relation.id).Nodup
  iterators : s.iterators.Nodup
  known : ∀ name, Term.iterator name ∈ s.leaves → name ∈ s.iterators
  constant : ∀ name, Term.constant name ∈ s.leaves → name ∉ s.iterators

/-! ### Iterators -/

/-- The iterators of a space are the listed names, each at its first appearance. -/
theorem Stmt.iterators_of_space? {s : Stmt} {space : Space} (h : s.space? = some space) :
    space.iterators = s.listed.eraseDups := by
  unfold Stmt.space? at h
  split at h
  · simp only [Option.bind_eq_bind, Option.bind_eq_some_iff, Option.pure_def,
      Option.some.injEq] at h
    obtain ⟨_, -, names, hnames, chains, -, r, -, rfl⟩ := h
    rw [listed, entries, (keyNames?_eq_some_iff.mp hnames).2, Names.distinct_eq_eraseDups]
  · cases h

/-! ### Relations -/

/-- The relations of chains are counted one by one, and each chain has one at least. -/
theorem settleAll_ids {chains : List Links} {id free : Nat} {rs : List Relation}
    (h : settleAll id chains = some (rs, free)) :
    rs.map Relation.id = List.range' id rs.length ∧ free = id + rs.length ∧
      chains.length ≤ rs.length := by
  induction chains generalizing id rs with
  | nil =>
    cases h
    simp
  | cons chain chains ih =>
    obtain ⟨t, links⟩ := chain
    obtain ⟨added, next, more, hsplit, hmore, rfl⟩ := settleAll_cons_eq_some_iff.mp h
    obtain ⟨n, hids, rfl⟩ := Chain.settle_ids hsplit
    obtain ⟨hmoreIds, rfl, hle⟩ := ih hmore
    have hn : (Chain.settle (.begin id t) links).length = n + 1 := by
      simpa using congrArg List.length hids
    rw [List.map_append, hids, hmoreIds, List.length_append, hn, List.length_cons]
    refine ⟨List.range'_append_1, Nat.add_assoc .., ?_⟩
    omega

/-- The relations of a space that is read are whole, and its iterators resolve their terms. -/
theorem Stmt.over_of_space? {s : Stmt} {space : Space} (h : s.space? = some space) :
    ∀ r ∈ space.relations, r.Over (Term.Resolved space.iterators) := by
  obtain ⟨chains, free, hchains, hsettle⟩ := Stmt.chains_of_space? h
  refine settleAll_over (forall_mem_of_mapM ?_ hchains) hsettle
  intro written _ chain hlinks
  obtain ⟨hleft, hcs⟩ := links?_eq_some_iff.mp hlinks
  refine ⟨written.1.resolved_of_term? hleft, ?_⟩
  -- whatever is read as a term is resolved, so nothing is asked of the expressions
  exact forall_terms_of_comparands? (Q := fun _ => True) (fun e _ _ => e.resolved_of_term?)
    (fun _ _ _ _ => ⟨trivial, trivial⟩) (fun _ _ => trivial) hcs

/-! ### Leaves -/

namespace Term

mutual

theorem resolved_of_mem_leaves {iterators : List String} {x : Term} :
    ∀ t : Term, t.Resolved iterators → x ∈ t.leaves → x.Resolved iterators
  | iterator _, h, hx | constant _, h, hx | literal _, h, hx => by
    rw [leaves, List.mem_singleton] at hx
    exact hx ▸ h
  | apply _ args, h, hx => resolved_of_mem_leavesAll args h hx
  | arith left _ right, h, hx => by
    rcases List.mem_append.mp hx with hx | hx
    · exact resolved_of_mem_leaves left h.1 hx
    · exact resolved_of_mem_leaves right h.2 hx

theorem resolved_of_mem_leavesAll {iterators : List String} {x : Term} :
    ∀ ts : List Term, AllResolved iterators ts → x ∈ leavesAll ts → x.Resolved iterators
  | [], _, hx => by simp [leavesAll] at hx
  | t :: ts, h, hx => by
    rcases List.mem_append.mp hx with hx | hx
    · exact resolved_of_mem_leaves t h.1 hx
    · exact resolved_of_mem_leavesAll ts h.2 hx

end

theorem allResolved_of_forall {iterators : List String} {ts : List Term}
    (h : ∀ t ∈ ts, t.Resolved iterators) : AllResolved iterators ts := by
  induction ts with
  | nil => trivial
  | cons t ts ih =>
    obtain ⟨ht, hts⟩ := List.forall_mem_cons.mp h
    exact ⟨ht, ih hts⟩

end Term

theorem Space.resolved_of_mem_leaves {s : Space}
    (h : ∀ r ∈ s.relations, r.Over (Term.Resolved s.iterators)) :
    ∀ x ∈ s.leaves, x.Resolved s.iterators := by
  intro x hx
  obtain ⟨r, hr, hx⟩ := List.mem_flatMap.mp hx
  exact Term.resolved_of_mem_leavesAll r.terms (Term.allResolved_of_forall (h r hr).1) hx

/-! ### Values -/

/-- A constraint of a program has a chain: no connective joins nothing. -/
theorem Expr.IsConstraint.chains_ne_nil {e : Expr} (h : e.IsConstraint) (hp : e.Proper) :
    e.chains ≠ [] := by
  induction h with
  | all span _ ih =>
    cases hp with
    | connect _ _ hne hvalues =>
      obtain ⟨e, es, rfl⟩ := List.exists_cons_of_ne_nil hne
      have hfirst := ih e List.mem_cons_self (hvalues e List.mem_cons_self)
      rw [Expr.chains, chainsOf]
      exact List.append_ne_nil_of_left_ne_nil hfirst _
  | chain => simp [Expr.chains]

theorem length_le_chainsOf {es : List Expr} (h : ∀ e ∈ es, e.chains ≠ []) :
    es.length ≤ (chainsOf es).length := by
  induction es with
  | nil => exact Nat.zero_le _
  | cons e es ih =>
    obtain ⟨he, hes⟩ := List.forall_mem_cons.mp h
    have hpos := List.length_pos_iff.mpr he
    have hmore := ih hes
    rw [chainsOf, List.length_append, List.length_cons]
    omega

theorem Stmt.DescribesSpace.length_le_chains {s : Stmt} (h : s.DescribesSpace) (hp : s.Proper) :
    s.entries.length ≤ s.chains.length := by
  cases h with
  | assign _ _ _ _ _ hvalues =>
    cases hp with
    | assign _ _ hdict =>
      cases hdict with
      | dict _ _ hproper =>
        rw [entries, chains, ← List.length_map Prod.snd]
        apply length_le_chainsOf
        intro e he
        obtain ⟨entry, hentry, rfl⟩ := List.mem_map.mp he
        exact (hvalues entry hentry).chains_ne_nil (hproper entry hentry)

/-! ### Storage -/

/-- A name that is entered with its own value, among others that were, adds itself. -/
theorem Table.insert_map {α : Type} (f : String → α) (names : List String) (name : String) :
    Table.insert (names.map fun n => (n, f n)) name (f name) =
      (Names.insert names name).map fun n => (n, f n) := by
  have hany : (names.map fun n => (n, f n)).any (·.1 = name) = decide (name ∈ names) := by
    simp [List.any_eq, eq_comm]
  by_cases h : name ∈ names
  · have hsame (n : String) : (if n = name then (name, f name) else (n, f n)) = (n, f n) := by
      split
      · next hn => rw [hn]
      · rfl
    simp [Table.insert, Names.insert, hany, h, hsame]
  · simp [Table.insert, Names.insert, hany, h]

theorem Table.foldl_insert_map {α : Type} (f : String → α) (known names : List String) :
    (names.map fun n => (n, f n)).foldl (fun t e => Table.insert t e.1 e.2)
      (known.map fun n => (n, f n)) = (Names.union known names).map fun n => (n, f n) := by
  induction names generalizing known with
  | nil => rfl
  | cons name names ih =>
    rw [List.map_cons, List.foldl_cons, Table.insert_map, ih]
    rfl

/-- A table of names that are entered one by one, each with its own value, has the distinct names. -/
theorem Table.ofList_map {α : Type} (f : String → α) (names : List String) :
    Table.ofList (names.map fun n => (n, f n)) =
      (Names.distinct names).map fun n => (n, f n) :=
  Table.foldl_insert_map f [] names

/-- The value of a member of an object. -/
def Json.member? (key : String) : Json → Option Json
  | .object members => (members.find? fun m => m.1 = key).map Prod.snd
  | _ => none

theorem Space.wellFormed_of_space? {s : Stmt} {space : Space} (h : s.space? = some space) :
    space.WellFormed := by
  have hover := Stmt.over_of_space? h
  have hleaves := Space.resolved_of_mem_leaves hover
  obtain ⟨chains, free, -, hsettle⟩ := Stmt.chains_of_space? h
  refine ⟨fun r hr => (hover r hr).2, ?_, ?_, fun _ => hleaves _, fun _ => hleaves _⟩
  · rw [(settleAll_ids hsettle).1]
    exact List.nodup_range'
  · rw [Stmt.iterators_of_space? h, ← Names.distinct_eq_eraseDups]
    exact Names.nodup_distinct _

/-- A space that is read from a statement is well formed. Its iterators are the names that the keys
list, each at its first appearance, and what is stored is the table in which each listed name has been
entered under itself. Every chain has left a relation, and in a program every value has. -/
theorem Space.wellFormed_of_ofStmt {s : Stmt} {space : Space} (h : Space.ofStmt s = .ok space) :
    space.WellFormed ∧ space.iterators = s.listed.eraseDups ∧
      (∃ members, space.toJson.member? "iterators" = some (.object members) ∧
        members = Table.ofList (s.listed.map fun name => (name, .object [("name", .string name)])) ∧
        members.map Prod.fst = space.iterators ∧
        ∀ m ∈ members, m.2.member? "name" = some (.string m.1)) ∧
      s.chains.length ≤ space.relations.length ∧
      ∀ source p, Program.parse source = .ok p → s ∈ p.body →
        s.entries.length ≤ space.relations.length := by
  have hspace := (Space.ofStmt_eq_ok_iff s space).mp h
  obtain ⟨chains, free, hchains, hsettle⟩ := Stmt.chains_of_space? hspace
  have hlength : s.chains.length ≤ space.relations.length := by
    have hlayout := congrArg List.length (Stmt.layout_eq hchains)
    rw [Stmt.layout, List.length_map, List.length_map] at hlayout
    exact hlayout ▸ (settleAll_ids hsettle).2.2
  refine ⟨Space.wellFormed_of_space? hspace, Stmt.iterators_of_space? hspace, ?_, hlength, ?_⟩
  · refine ⟨_, rfl, ?_, by simp [Function.comp_def], ?_⟩
    · rw [Table.ofList_map, Names.distinct_eq_eraseDups, ← Stmt.iterators_of_space? hspace]
    · rw [List.forall_mem_map]
      exact fun _ _ => rfl
  · intro source p hp hs
    have hdescribes := s.exists_space?_iff.mp ⟨space, hspace⟩
    exact (hdescribes.length_le_chains (Program.proper_of_parse hp s hs)).trans hlength

/-- A header in which two keys share an iterator, one value is split and the other one connected. -/
def sharedHeader : String :=
  "s = \x7b[i, j]: 0 <= i < N ^ i <= j, (j, k): k == 1 and j < k <= f(N)\x7d"

theorem Space.wellFormed_of_ofStmt_shared :
    ∃ p s space, Program.parse sharedHeader = .ok p ∧ s ∈ p.body ∧ Space.ofStmt s = .ok space ∧
      s.listed = ["i", "j", "j", "k"] ∧ s.entries.length = 2 ∧ s.chains.length = 3 ∧
      space.relations.length = 4 ∧
      space.WellFormed ∧ space.iterators = s.listed.eraseDups ∧
      (∃ members, space.toJson.member? "iterators" = some (.object members) ∧
        members = Table.ofList (s.listed.map fun name => (name, .object [("name", .string name)])) ∧
        members.map Prod.fst = space.iterators ∧
        ∀ m ∈ members, m.2.member? "name" = some (.string m.1)) ∧
      s.chains.length ≤ space.relations.length ∧ s.entries.length ≤ space.relations.length := by
  have hread : (Program.parse sharedHeader).toOption.any fun p => p.body.any fun s =>
      (Space.ofStmt s).toOption.any fun space => s.listed = ["i", "j", "j", "k"] &&
        s.entries.length = 2 && s.chains.length = 3 && space.relations.length = 4 := by
    decide +kernel
  obtain ⟨p, s, hp, hs, hspace⟩ := Program.exists_of_any hread
  obtain ⟨space, h, hcheck⟩ := exists_ok_of_any hspace
  simp only [Bool.and_eq_true, decide_eq_true_eq] at hcheck
  obtain ⟨⟨⟨hlisted, hentries⟩, hchains⟩, hrelations⟩ := hcheck
  obtain ⟨hformed, hiterators, hstored, hle, hvalues⟩ := wellFormed_of_ofStmt h
  exact ⟨p, s, space, hp, hs, h, hlisted, hentries, hchains, hrelations, hformed, hiterators,
    hstored, hle, hvalues sharedHeader p hp hs⟩

end LoopNest
