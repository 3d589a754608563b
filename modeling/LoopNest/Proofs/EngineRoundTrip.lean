import LoopNest.Proofs.LoweredSpaces

/-!
# Engine texts are read back without loss

The engine text of a space that was read from a program, and that has a relation at least, is a
program of one header. The space of that header has the same name, the same iterators and the same
relations, only that the relations are counted anew.
-/

namespace LoopNest

open Scan

/-- What a relation says, its identity aside. -/
def Relation.nodes (r : Relation) :
    Term × CompareOp × Option Term × Option CompareOp × Term :=
  (r.left, r.leftOp, r.mid, r.rightOp, r.right)

/-- A relation that has a middle term exactly if it has a right operator shows all its terms. -/
theorem Relation.Over.writtenTerms_eq {P : Term → Prop} {r : Relation} (h : r.Over P) :
    r.writtenTerms = r.terms :=
  r.writtenTerms_eq_terms h.2

theorem Relation.Over.written {P : Term → Prop} {r : Relation} (h : r.Over P) :
    ∀ t ∈ r.writtenTerms, P t := by
  rw [h.writtenTerms_eq]
  exact h.1

/-- The chain that a relation is written as has the written terms. -/
theorem Relation.Over.chain {P : Term → Prop} {r : Relation} (h : r.Over P) :
    P r.chain.1 ∧ ∀ l ∈ r.chain.2, ∀ t ∈ l.2.terms, P t := by
  have hterms := h.written
  cases hmid : r.middle? <;>
    simp_all [writtenTerms, Relation.chain, Chain.Comparand.terms]

/-- The chain that a relation is written as settles in that relation. -/
theorem Relation.settle_chain {r : Relation} (h : r.mid.isSome = r.rightOp.isSome) (id : Nat) :
    (∃ rs, Chain.split (.begin id r.chain.1) r.chain.2 = some (rs, id + 1)) ∧
      Chain.settle (.begin id r.chain.1) r.chain.2 = [{ r with id := id }] := by
  obtain ⟨_, left, leftOp, mid, rightOp, right⟩ := r
  cases mid with
  | none =>
    cases rightOp with
    | none => exact ⟨⟨_, rfl⟩, rfl⟩
    | some op => cases h
  | some mid =>
    cases rightOp with
    | none => cases h
    | some op => exact ⟨⟨_, rfl⟩, rfl⟩

theorem exists_settleAll_chains {rs : List Relation}
    (h : ∀ r ∈ rs, r.mid.isSome = r.rightOp.isSome) (id : Nat) :
    ∃ rs' free, settleAll id (rs.map Relation.chain) = some (rs', free) ∧
      rs'.map Relation.nodes = rs.map Relation.nodes := by
  induction rs generalizing id with
  | nil => exact ⟨[], id, rfl, rfl⟩
  | cons r rs ih =>
    obtain ⟨hr, hrs⟩ := List.forall_mem_cons.mp h
    obtain ⟨⟨added, hsplit⟩, hsettle⟩ := r.settle_chain hr id
    obtain ⟨rs', free, hmore, hnodes⟩ := ih hrs (id + 1)
    refine ⟨{ r with id := id } :: rs', free, ?_, by rw [List.map_cons, hnodes]; rfl⟩
    exact settleAll_cons_eq_some_iff.mpr
      ⟨added, id + 1, rs', hsplit, hmore, (congrArg (· ++ rs') hsettle).symm⟩

namespace Space

theorem mapM_name?_names (names : List String) :
    (names.map (Expr.name .nowhere)).mapM Expr.name? = some names := by
  induction names with
  | nil => rfl
  | cons name names ih => simp [Expr.name?, ih]

theorem chainsOf?_constraint {s : Space} (h : s.Legible) :
    chainsOf? s.iterators [s.constraint] = some (s.relations.map Relation.chain) := by
  have hresolved : ∀ chain ∈ s.relations.map Relation.chain, chain.1.Resolved s.iterators ∧
      ∀ l ∈ chain.2, ∀ t ∈ l.2.terms, t.Resolved s.iterators := by
    refine List.forall_mem_map.mpr fun r hr => ?_
    obtain ⟨hleft, hlinks⟩ := (h.relations r hr).chain
    exact ⟨hleft.2, fun l hl t ht => (hlinks l hl t ht).2⟩
  have hread := Chain.chainsOf?_comparison hresolved
  rw [List.map_map] at hread
  unfold constraint
  split
  · next e he =>
    rw [← hread]
    exact congrArg _ he.symm
  · have hflat : ∀ es, chainsOf? s.iterators [.connect .nowhere .and es] =
        chainsOf? s.iterators es := by
      intro es
      cases hes : chainsOf? s.iterators es <;> simp [chainsOf?, Expr.chains?, hes]
    rw [hflat]
    exact hread

/-- The header that a space is written as describes that space. -/
theorem exists_space?_stmt {s : Space} (h : s.Legible) :
    ∃ rs, s.stmt.space? = some ⟨s.name, s.iterators, rs⟩ ∧
      rs.map Relation.nodes = s.relations.map Relation.nodes := by
  obtain ⟨rs, free, hsettle, hnodes⟩ :=
    exists_settleAll_chains (fun r hr => (h.relations r hr).2) 0
  have hkeys : keyNames? [(.list .nowhere (s.iterators.map (.name .nowhere)), s.constraint)] =
      some s.iterators := by
    rw [keyNames?, mapM_name?_names, keyNames?]
    simp
  have hdistinct : Names.distinct s.iterators = s.iterators :=
    Names.union_of_nodup (by simpa using h.nodup)
  refine ⟨rs, ?_, hnodes⟩
  simp [stmt, Stmt.space?, guard, h.name.ne_empty, hkeys, hdistinct, chainsOf?_constraint h, hsettle]

/-- The engine text of a space with relations is a program of one header, and its space is the same
up to the identities of the relations. -/
theorem parse_engineText {source : String} {p : Program} {s : Stmt} {space : Space}
    (hp : Program.parse source = .ok p) (hs : s ∈ p.body) (h : Space.ofStmt s = .ok space)
    (hne : space.relations ≠ []) :
    ∃ p' s' space', Program.parse space.engineText = .ok p' ∧ p'.body = [s'] ∧
      Space.ofStmt s' = .ok space' ∧ space'.name = space.name ∧
      space'.iterators = space.iterators ∧
      space'.relations.map Relation.nodes = space.relations.map Relation.nodes := by
  have hlegible : space.Legible :=
    legible_of_space? (Program.proper_of_parse hp s hs) ((Space.ofStmt_eq_ok_iff s space).mp h)
  obtain ⟨ws, hspells, hstatement⟩ := exists_statement hlegible.name hlegible.iterators hne
    fun r hr t ht => ((hlegible.relations r hr).written t ht).1
  have hreads := hspells 0 [] Lexer.bounded_nil
  rw [List.append_nil] at hreads
  obtain ⟨ts, stop, htokens, hstop, rfl⟩ := Scan.tokens_of_reads hreads
  obtain ⟨p', hp', hbody⟩ := Program.exists_parse_of_body htokens hstop (.last hstatement)
  obtain ⟨s', hs', hbare⟩ := List.map_eq_singleton_iff.mp hbody
  obtain ⟨rs, hspace, hnodes⟩ := exists_space?_stmt hlegible
  refine ⟨p', s', ⟨space.name, space.iterators, rs⟩, hp', hs', ?_, rfl, rfl, hnodes⟩
  rw [Space.ofStmt_eq_ok_iff, ← Stmt.space?_bare, hbare, hspace]

/-- A header with signs, powers and a call. -/
def signedHeader : String :=
  "d = \x7b[i, j]: -1 < -i ** 2 <= n ^ f(i, -j) == (-2) ** (i - 1)\x7d"

theorem parse_engineText_signed :
    ∃ p s space, Program.parse signedHeader = .ok p ∧ s ∈ p.body ∧ Space.ofStmt s = .ok space ∧
      space.relations ≠ [] ∧
      space.engineText =
        "d = \x7b[i, j] : -1 < -1 * i ** 2 <= n && f(i, -1 * j) == (-2) ** (i - 1)\x7d" ∧
      ∃ p' s' space', Program.parse space.engineText = .ok p' ∧ p'.body = [s'] ∧
        Space.ofStmt s' = .ok space' ∧ space'.name = space.name ∧
        space'.iterators = space.iterators ∧
        space'.relations.map Relation.nodes = space.relations.map Relation.nodes := by
  have hread : (Program.parse signedHeader).toOption.any fun p => p.body.any fun s =>
      (Space.ofStmt s).toOption.any fun space => !space.relations.isEmpty && space.engineText =
        "d = \x7b[i, j] : -1 < -1 * i ** 2 <= n && f(i, -1 * j) == (-2) ** (i - 1)\x7d" := by
    decide +kernel
  obtain ⟨p, s, hp, hs, hspace⟩ := Program.exists_of_any hread
  obtain ⟨space, h, hcheck⟩ := exists_ok_of_any hspace
  obtain ⟨hne, htext⟩ := Bool.and_eq_true_iff.mp hcheck
  have hne : space.relations ≠ [] := by simpa using hne
  exact ⟨p, s, space, hp, hs, h, hne, of_decide_eq_true htext, parse_engineText hp hs h hne⟩

end Space

end LoopNest
