import LoopNest.Proofs.EngineRoundTrip

/-!
# When source texts are read back without loss

The source text of a space glues its relations into one chain, with `^` between them. Reading it back
splits that chain again, in pairs of links, and finds the relations that were glued exactly if every
relation with a middle term, the last one apart, has an even number of comparisons before it.
-/

namespace LoopNest

open Grammar Scan

/-! ### Gluing relations -/

/-- The links of a relation when the given comparand takes the place of its right term. -/
def Relation.linksTo (r : Relation) (last : Chain.Comparand) :
    List (CompareOp × Chain.Comparand) :=
  match r.middle? with
  | some (mid, op) => [(r.leftOp, .single mid), (op, last)]
  | none => [(r.leftOp, last)]

/-- A relation has a middle term and a right operator, or neither. -/
theorem Relation.whole_cases {r : Relation} (h : r.mid.isSome = r.rightOp.isSome) :
    (∃ id left op right, r = ⟨id, left, op, none, none, right⟩) ∨
      ∃ id left op mid op' right, r = ⟨id, left, op, some mid, some op', right⟩ := by
  obtain ⟨id, left, op, mid, rightOp, right⟩ := r
  cases mid <;> cases rightOp <;> simp_all

namespace Chain

/-- The links of a chain that is glued from relations: the right term of each is joined to the left
term of the next. -/
def glued (r : Relation) : List Relation → List (CompareOp × Comparand)
  | [] => r.linksTo (.single r.right)
  | next :: rs => r.linksTo (.joint r.right next.left) ++ glued next rs

/-- A relation begins with its left operator. -/
theorem glued_ne_nil (r : Relation) (rs : List Relation) : glued r rs ≠ [] := by
  cases rs <;> cases h : r.middle? <;> simp [glued, Relation.linksTo, h]

/-- Every comparand of a glued chain has terms of the relations. -/
theorem terms_glued {P : Term → Prop} {r : Relation} {rs : List Relation}
    (h : ∀ s ∈ r :: rs, s.Over P) : ∀ l ∈ glued r rs, ∀ t ∈ l.2.terms, P t := by
  induction rs generalizing r with
  | nil =>
    have hr := (h r List.mem_cons_self).written
    cases hmid : r.middle? <;>
      simp_all [glued, Relation.linksTo, Relation.writtenTerms, Comparand.terms]
  | cons next rs ih =>
    obtain ⟨hr, hrs⟩ := List.forall_mem_cons.mp h
    have hterms := hr.written
    have hnext : P next.left := (hrs next List.mem_cons_self).1 _ (by simp [Relation.terms])
    refine List.forall_mem_append.mpr ⟨?_, ih hrs⟩
    cases hmid : r.middle? <;>
      simp_all [Relation.linksTo, Relation.writtenTerms, Comparand.terms]

/-- No conjunction ends a glued chain, so it can be split. -/
theorem getLastD_pattern_glued (r : Relation) (rs : List Relation) :
    (pattern (glued r rs)).getLastD true = false := by
  induction rs generalizing r with
  | nil => cases h : r.middle? <;> simp [glued, Relation.linksTo, h]
  | cons next rs ih =>
    cases h : r.middle? with
    | none =>
      simp only [glued, Relation.linksTo, h, List.cons_append, List.nil_append, pattern_joint,
        List.getLastD_cons]
      exact ih next
    | some middle =>
      simp only [glued, Relation.linksTo, h, List.cons_append, List.nil_append, pattern_single,
        pattern_joint, List.getLastD_cons]
      exact ih next

/-! ### Splitting what was glued -/

/-- A conjunction closes the pending relation as it is. -/
theorem settle_joint_cons (p : Pending) (op : CompareOp) (close reopen : Term)
    (link : CompareOp × Comparand) (rest : List (CompareOp × Comparand)) :
    ∃ more, settle p ((op, .joint close reopen) :: link :: rest) = p.close op close :: more := by
  obtain ⟨next, t | ⟨close', reopen'⟩⟩ := link
  · exact ⟨_, by rw [settle]⟩
  · exact ⟨_, by rw [settle]⟩

/-- The number of comparisons of a relation. -/
def sizes (rs : List Relation) : List Nat :=
  rs.map fun r => r.comparisons.length

theorem aligned_sizes_two (r next : Relation) (rs : List Relation)
    (h : r.comparisons.length = 2) :
    aligned 0 (sizes (r :: next :: rs)) = aligned 0 (sizes (next :: rs)) := by
  have hstep : aligned 0 (sizes (r :: next :: rs)) = aligned 2 (sizes (next :: rs)) := by
    simp [sizes, aligned_cons_cons, h]
  rw [hstep]
  exact aligned_add_two 0 _

theorem aligned_sizes_one_one (r next last : Relation) (rs : List Relation)
    (h : r.comparisons.length = 1) (hnext : next.comparisons.length = 1) :
    aligned 0 (sizes (r :: next :: last :: rs)) = aligned 0 (sizes (last :: rs)) := by
  have hstep : aligned 0 (sizes (r :: next :: last :: rs)) = aligned 2 (sizes (last :: rs)) := by
    simp [sizes, aligned_cons_cons, h, hnext]
  rw [hstep]
  exact aligned_add_two 0 _

/-- Splitting a glued chain gives its relations back exactly if these are aligned. -/
theorem map_nodes_settle_glued (r : Relation) (rs : List Relation)
    (h : ∀ s ∈ r :: rs, s.mid.isSome = s.rightOp.isSome) (id : Nat) :
    (settle (.begin id r.left) (glued r rs)).map Relation.nodes = (r :: rs).map Relation.nodes ↔
      aligned 0 (sizes (r :: rs)) := by
  obtain ⟨hr, hrs⟩ := List.forall_mem_cons.mp h
  rcases Relation.whole_cases hr with ⟨i, left, op, right, rfl⟩ | ⟨i, left, op, mid, op', right, rfl⟩
  · rcases rs with _ | ⟨next, rs⟩
    · exact ⟨fun _ => rfl, fun _ => rfl⟩
    · obtain ⟨hnext, hlast⟩ := List.forall_mem_cons.mp hrs
      rcases Relation.whole_cases hnext with ⟨j, left', op₁, right', rfl⟩ |
          ⟨j, left', op₁, mid, op₂, right', rfl⟩
      · rcases rs with _ | ⟨last, rs⟩
        · exact ⟨fun _ => rfl, fun _ => rfl⟩
        · rw [aligned_sizes_one_one _ _ _ _ rfl rfl,
            ← map_nodes_settle_glued last rs hlast (id + 2)]
          exact ⟨fun heq => (List.cons.inj (List.cons.inj heq).2).2,
            fun heq => congrArg (fun more => _ :: _ :: more) heq⟩
      · rcases rs with _ | ⟨last, rs⟩
        · exact ⟨fun _ => rfl, fun _ => rfl⟩
        · -- The relation begun at an odd place is closed before its middle term has been kept.
          obtain ⟨link, links, hlinks⟩ := List.exists_cons_of_ne_nil (glued_ne_nil last rs)
          obtain ⟨more, hmore⟩ := settle_joint_cons
            ((Pending.begin (id + 1) left').withRight op₁ mid) op₂ right' last.left link links
          constructor
          · intro heq
            have hsecond : (settle ((Pending.begin (id + 1) left').withRight op₁ mid)
                ((op₂, .joint right' last.left) :: glued last rs)).map Relation.nodes = _ :=
              (List.cons.inj heq).2
            rw [hlinks, hmore] at hsecond
            simp [Relation.nodes, Pending.close, Pending.begin, Pending.withRight] at hsecond
          · intro ha
            simp [sizes, aligned_cons_cons, Relation.comparisons, Relation.middle?] at ha
  · rcases rs with _ | ⟨next, rs⟩
    · exact ⟨fun _ => rfl, fun _ => rfl⟩
    · rw [aligned_sizes_two _ _ _ rfl, ← map_nodes_settle_glued next rs hrs (id + 1)]
      exact ⟨fun heq => (List.cons.inj heq).2, fun heq => congrArg (List.cons _) heq⟩

end Chain

/-! ### Writing what was glued -/

/-- A relation is written as its left term, its operators, and its right term. Whatever may stand in
place of the right term, the links of the relation can be derived. -/
theorem Relation.writes_linksTo {r : Relation} (h : ∀ t ∈ r.writtenTerms, t.Spelled) :
    ∃ ws vs us, lexer.Spells r.text (ws ++ (vs ++ us)) ∧
      Derives (.level .sum) ws (.expr r.left.expr) ∧
      Derives (.level .sum) us (.expr r.right.expr) ∧
      ∀ (last : Chain.Comparand) (links : List (CompareOp × Chain.Comparand)) {xs ys : List Word},
        Derives (.level .bitOr) xs (.expr last.expr) →
        Derives .chain ys (.links (Chain.exprs links)) →
        Derives .chain (vs ++ (xs ++ ys)) (.links (Chain.exprs (r.linksTo last ++ links))) := by
  obtain ⟨ws, hws, hleft⟩ :=
    (r.left.writes (h _ (by simp [writtenTerms]))).loosen (Nat.zero_le _)
  obtain ⟨us, hus, hright⟩ :=
    (r.right.writes (h _ (by simp [writtenTerms]))).loosen (Nat.zero_le _)
  cases hmid : r.middle? with
  | none =>
    refine ⟨ws, [(.compare r.leftOp, r.leftOp.symbol)], us, ?_, hleft, hright, ?_⟩
    · simpa [text, hmid] using hws.operation (separates_compare r.leftOp) hus
    · intro last links xs ys hlast hlinks
      rw [linksTo, hmid, List.singleton_append]
      exact .link _ hlast hlinks
  | some middle =>
    obtain ⟨mid, op⟩ := middle
    obtain ⟨vs, hvs, hcenter⟩ := (mid.writes (h _ (by simp [writtenTerms, hmid]))).comparand
    refine ⟨ws, (.compare r.leftOp, r.leftOp.symbol) :: (vs ++ [(.compare op, op.symbol)]), us,
      ?_, hleft, hright, ?_⟩
    · simpa [text, hmid, String.append_assoc] using hws.operation (separates_compare r.leftOp)
        (hvs.operation (separates_compare op) hus)
    · intro last links xs ys hlast hlinks
      rw [linksTo, hmid, List.cons_append, List.append_assoc, List.singleton_append]
      exact .link _ hcenter (.link _ hlast hlinks)

theorem Scan.separates_joint : lexer.Separates (" " ++ "^" ++ " ") (.binary .bitXor, "^") :=
  separates_of_step fun _ _ => rfl

theorem Scan.reads_opening (depth : Nat) (tail : List Char) :
    lexer.Reads depth (": ".toList ++ tail) [(.colon, ":")] depth tail :=
  .token (show lexer.step depth (':' :: ' ' :: tail) = some (_, depth, ' ' :: tail) from rfl)
    (.blank (.done depth tail))

/-- What does not depend on the identity of a relation is the same for relations with the same
nodes. -/
theorem Relation.map_eq_of_nodes {α : Type} {g : Relation → α}
    (hg : ∀ (r : Relation) (id : Nat), g { r with id := id } = g r) {rs rs' : List Relation}
    (h : rs.map Relation.nodes = rs'.map Relation.nodes) : rs.map g = rs'.map g := by
  have hnodes : ∀ rs : List Relation, rs.map g = (rs.map Relation.nodes).map fun n =>
      g ⟨0, n.1, n.2.1, n.2.2.1, n.2.2.2.1, n.2.2.2.2⟩ := by
    intro rs
    rw [List.map_map]
    exact congrArg (rs.map ·) (funext fun r => (hg r 0).symm)
  rw [hnodes, hnodes, h]

namespace Space

/-- Relations with `^` between them are written as the chain that is glued from them. -/
theorem writes_glued {r : Relation} {rs : List Relation}
    (h : ∀ s ∈ r :: rs, ∀ t ∈ s.writtenTerms, t.Spelled) :
    ∃ ws vs, lexer.Spells (" ^ ".intercalate ((r :: rs).map Relation.text)) (ws ++ vs) ∧
      Derives (.level .sum) ws (.expr r.left.expr) ∧
      Derives .chain vs (.links (Chain.exprs (Chain.glued r rs))) := by
  induction rs generalizing r with
  | nil =>
    obtain ⟨ws, vs, us, hspells, hleft, hright, hlinks⟩ := r.writes_linksTo (h r List.mem_cons_self)
    have hchain := hlinks (.single r.right) [] hright.comparand .noLink
    rw [List.append_nil, List.append_nil] at hchain
    exact ⟨ws, vs ++ us, by simpa using hspells, hleft, hchain⟩
  | cons next rs ih =>
    obtain ⟨hr, hrs⟩ := List.forall_mem_cons.mp h
    obtain ⟨ws, vs, us, hspells, hleft, hright, hlinks⟩ := r.writes_linksTo hr
    obtain ⟨xs, ys, hrest, hnext, hchain⟩ := ih hrs
    have hjoint : Derives (.level .bitOr) (us ++ (.binary .bitXor, "^") :: xs)
        (.expr (Chain.Comparand.joint r.right next.left).expr) :=
      .operand (.binary _ (by decide) (.operand (.operand (.operand hright)))
        (.operand (.operand hnext)))
    refine ⟨ws, vs ++ (us ++ (.binary .bitXor, "^") :: xs ++ ys), ?_, hleft,
      hlinks _ _ hjoint hchain⟩
    simpa using hspells.separated separates_joint hrest

/-- The header of a space when the given relations are glued into one chain. -/
def gluedStmt (s : Space) (r : Relation) (rs : List Relation) : Stmt :=
  .assign .nowhere [.name .nowhere s.name]
    (.dict .nowhere [(.list .nowhere (s.iterators.map (.name .nowhere)),
      Chain.comparison (r.left, Chain.glued r rs))])

/-- The source text in the pieces that it is read in. -/
theorem sourceText_eq {s : Space} {r : Relation} {rs : List Relation}
    (hrs : s.relations = r :: rs) :
    s.sourceText = s.name ++ (" " ++ "=" ++ " ") ++ (Bracket.curly.leftSymbol ++
      (Bracket.square.leftSymbol ++ ", ".intercalate s.iterators ++ Bracket.square.rightSymbol ++
        ": " ++ " ^ ".intercalate ((r :: rs).map Relation.text)) ++
      Bracket.curly.rightSymbol) := by
  rw [← String.toList_inj]
  simp [sourceText_eq_text, text, hrs, Bracket.leftSymbol, Bracket.rightSymbol, Form.opening,
    Form.conjunction]

/-- The source text of a space with relations is a header. -/
theorem exists_statement_glued {s : Space} (h : s.Legible) {r : Relation} {rs : List Relation}
    (hrs : s.relations = r :: rs) :
    ∃ ws, lexer.Spells s.sourceText ws ∧ Statement ws (s.gluedStmt r rs) := by
  have hspelled : ∀ q ∈ r :: rs, ∀ t ∈ q.writtenTerms, t.Spelled := by
    rw [← hrs]
    exact fun q hq t ht => ((h.relations q hq).written t ht).1
  obtain ⟨ws, hws, hkeys⟩ := writes_iterators h.iterators
  obtain ⟨vs, us, hvs, hleft, hchain⟩ := writes_glued hspelled
  obtain ⟨⟨op, last⟩, links, hlinks⟩ := List.exists_cons_of_ne_nil (Chain.glued_ne_nil r rs)
  have hvalue : Derives .expr (vs ++ us)
      (.expr (Chain.comparison (r.left, Chain.glued r rs))) := by
    rw [hlinks] at hchain ⊢
    exact .expression (.compared hleft.comparand hchain)
  have hentry := Lexer.Spells.enclosed_before (encloses .square) hws reads_opening hvs
  have hspells := (spells_name h.name).separated separates_equal
    (Lexer.Spells.enclosed (encloses .curly) hentry)
  have hdict := Derives.dict Bracket.curly.leftSymbol Bracket.curly.rightSymbol
    (.lastEntry ":" (.of_atom (.list Bracket.square.leftSymbol Bracket.square.rightSymbol hkeys))
      hvalue)
  have htarget : Targets ([(.identifier, s.name)] ++ [(.equal, "=")]) [.name .nowhere s.name] :=
    .cons "=" (.single (.of_atom (.name s.name))) (.name _ _) .nil
  have hstatement : Statement _ (s.gluedStmt r rs) := .assign htarget (.single hdict.of_atom)
  refine ⟨_, ?_, hstatement⟩
  rw [sourceText_eq hrs]
  exact hspells

/-- The header that the relations are glued in has the same name and iterators, and its relations are
those that the glued chain settles in. -/
theorem space?_gluedStmt {s : Space} (h : s.Legible) {r : Relation} {rs : List Relation}
    (hrs : s.relations = r :: rs) :
    (s.gluedStmt r rs).space? = some ⟨s.name, s.iterators,
      Chain.settle (.begin 0 r.left) (Chain.glued r rs)⟩ := by
  have hover : ∀ q ∈ r :: rs, q.Over (Term.Legible s.iterators) := hrs ▸ h.relations
  have hsome : (Chain.split (.begin 0 r.left) (Chain.glued r rs)).isSome := by
    rw [Chain.split_isSome]
    simpa [Chain.Pending.begin] using Chain.getLastD_pattern_glued r rs
  obtain ⟨⟨added, free⟩, hsplit⟩ := Option.isSome_iff_exists.mp hsome
  have hsettle : settleAll 0 [(r.left, Chain.glued r rs)] =
      some (Chain.settle (.begin 0 r.left) (Chain.glued r rs) ++ [], free) :=
    settleAll_cons_eq_some_iff.mpr ⟨added, free, [], hsplit, rfl, rfl⟩
  have hresolved : ∀ chain ∈ [(r.left, Chain.glued r rs)], chain.1.Resolved s.iterators ∧
      ∀ l ∈ chain.2, ∀ t ∈ l.2.terms, t.Resolved s.iterators := by
    intro chain hchain
    rw [List.mem_singleton.mp hchain]
    have hleft := (hover r List.mem_cons_self).1 r.left (by simp [Relation.terms])
    exact ⟨hleft.2, fun l hl t ht => (Chain.terms_glued hover l hl t ht).2⟩
  have hchains := Chain.chainsOf?_comparison hresolved
  have hkeys : keyNames? [(.list .nowhere (s.iterators.map (.name .nowhere)),
      Chain.comparison (r.left, Chain.glued r rs))] = some s.iterators := by
    rw [keyNames?, mapM_name?_names, keyNames?]
    simp
  have hdistinct : Names.distinct s.iterators = s.iterators :=
    Names.union_of_nodup (by simpa using h.nodup)
  rw [List.append_nil] at hsettle
  rw [List.map_singleton] at hchains
  simp [gluedStmt, Stmt.space?, guard, h.name.ne_empty, hkeys, hdistinct, hchains, hsettle]

/-- The texts of a space do not depend on the identities of its relations. -/
theorem text_congr {s s' : Space} (hname : s.name = s'.name)
    (hiterators : s.iterators = s'.iterators)
    (h : s.relations.map Relation.nodes = s'.relations.map Relation.nodes) (form : Form) :
    s.text form = s'.text form := by
  have htexts : s.relations.map Relation.text = s'.relations.map Relation.text :=
    Relation.map_eq_of_nodes (fun _ _ => rfl) h
  cases hs : s.relations with
  | nil =>
    have hnil : s'.relations = [] := by simpa [hs, eq_comm] using h
    simp [text, hname, hiterators, hs, hnil]
  | cons r rs =>
    have hne : s'.relations ≠ [] := by
      intro hnil
      simp [hs, hnil] at h
    simp_all [text]

/-- The source text of a space with relations is a program of one header. The space of that header has
the same name and the same iterators. It has the same relations exactly if each relation with a middle
term, the last one apart, has an even number of comparisons before it. -/
theorem parse_sourceText_iff_aligned {source : String} {p : Program} {s : Stmt} {space : Space}
    (hp : Program.parse source = .ok p) (hs : s ∈ p.body) (h : Space.ofStmt s = .ok space)
    (hne : space.relations ≠ []) :
    ∃ p' s' space', Program.parse space.sourceText = .ok p' ∧ p'.body = [s'] ∧
      Space.ofStmt s' = .ok space' ∧ space'.name = space.name ∧
      space'.iterators = space.iterators ∧
      (space'.relations.map Relation.nodes = space.relations.map Relation.nodes ↔
        Chain.aligned 0 (Chain.sizes space.relations)) ∧
      (Chain.aligned 0 (Chain.sizes space.relations) → space'.sourceText = space.sourceText) := by
  have hlegible : space.Legible :=
    legible_of_space? (Program.proper_of_parse hp s hs) ((Space.ofStmt_eq_ok_iff s space).mp h)
  obtain ⟨r, rs, hrs⟩ := List.exists_cons_of_ne_nil hne
  obtain ⟨ws, hspells, hstatement⟩ := exists_statement_glued hlegible hrs
  have hreads := hspells 0 [] Lexer.bounded_nil
  rw [List.append_nil] at hreads
  obtain ⟨ts, stop, htokens, hstop, rfl⟩ := Scan.tokens_of_reads hreads
  obtain ⟨p', hp', hbody⟩ := Program.exists_parse_of_body htokens hstop (.last hstatement)
  obtain ⟨s', hs', hbare⟩ := List.map_eq_singleton_iff.mp hbody
  have hspace : Space.ofStmt s' = .ok ⟨space.name, space.iterators,
      Chain.settle (.begin 0 r.left) (Chain.glued r rs)⟩ := by
    rw [Space.ofStmt_eq_ok_iff, ← Stmt.space?_bare, hbare, space?_gluedStmt hlegible hrs]
  have hnodes := Chain.map_nodes_settle_glued r rs
    (fun q hq => (hlegible.relations q (hrs ▸ hq)).2) 0
  rw [← hrs] at hnodes
  refine ⟨p', s', _, hp', hs', hspace, rfl, rfl, hnodes, ?_⟩
  intro ha
  rw [sourceText_eq_text, sourceText_eq_text]
  apply text_congr
  · rfl
  · rfl
  · exact hnodes.mpr ha

/-- A header of two chains, whose relations have two, one, one and two comparisons. -/
def alignedHeader : String :=
  "d = \x7b[i, j]: 0 <= i < n ^ i % 2 == -1 and f(j) > n ^ -j <= i ** 2 < m\x7d"

theorem parse_sourceText_alignedHeader :
    ∃ p s space, Program.parse alignedHeader = .ok p ∧ s ∈ p.body ∧ Space.ofStmt s = .ok space ∧
      space.relations ≠ [] ∧ Chain.aligned 0 (Chain.sizes space.relations) ∧
      space.sourceText =
        "d = \x7b[i, j]: 0 <= i < n ^ i % 2 == -1 ^ f(j) > n ^ -1 * j <= i ** 2 < m\x7d" ∧
      ∃ p' s' space', Program.parse space.sourceText = .ok p' ∧ p'.body = [s'] ∧
        Space.ofStmt s' = .ok space' ∧ space'.name = space.name ∧
        space'.iterators = space.iterators ∧
        (space'.relations.map Relation.nodes = space.relations.map Relation.nodes ↔
          Chain.aligned 0 (Chain.sizes space.relations)) ∧
        (Chain.aligned 0 (Chain.sizes space.relations) →
          space'.sourceText = space.sourceText) := by
  have hread : (Program.parse alignedHeader).toOption.any fun p => p.body.any fun s =>
      (Space.ofStmt s).toOption.any fun space => !space.relations.isEmpty &&
        (Chain.aligned 0 (Chain.sizes space.relations) && space.sourceText =
          "d = \x7b[i, j]: 0 <= i < n ^ i % 2 == -1 ^ f(j) > n ^ -1 * j <= i ** 2 < m\x7d") := by
    decide +kernel
  obtain ⟨p, s, hp, hs, hspace⟩ := Program.exists_of_any hread
  obtain ⟨space, h, hcheck⟩ := exists_ok_of_any hspace
  obtain ⟨hne, hcheck⟩ := Bool.and_eq_true_iff.mp hcheck
  obtain ⟨ha, htext⟩ := Bool.and_eq_true_iff.mp hcheck
  have hne : space.relations ≠ [] := by simpa using hne
  exact ⟨p, s, space, hp, hs, h, hne, ha, of_decide_eq_true htext,
    parse_sourceText_iff_aligned hp hs h hne⟩

/-- A header whose second relation has a middle term and one comparison before it. -/
def unalignedHeader : String :=
  "s = \x7b[i, j]: i == n and 0 <= j < m and i < m\x7d"

/-- The source text of such a header is read as another space, without the bounds of `j`. -/
theorem parse_sourceText_unalignedHeader :
    ∃ p s space p' s' space', Program.parse unalignedHeader = .ok p ∧ s ∈ p.body ∧
      Space.ofStmt s = .ok space ∧
      space.sourceText = "s = \x7b[i, j]: i == n ^ 0 <= j < m ^ i < m\x7d" ∧
      Program.parse space.sourceText = .ok p' ∧ s' ∈ p'.body ∧ Space.ofStmt s' = .ok space' ∧
      space'.sourceText = "s = \x7b[i, j]: i == n ^ 0 < m ^ i < m\x7d" := by
  have hread : (Program.parse unalignedHeader).toOption.any fun p => p.body.any fun s =>
      (Space.ofStmt s).toOption.any fun space =>
        space.sourceText = "s = \x7b[i, j]: i == n ^ 0 <= j < m ^ i < m\x7d" := by
    decide +kernel
  have hreread : (Program.parse "s = \x7b[i, j]: i == n ^ 0 <= j < m ^ i < m\x7d").toOption.any
      fun p => p.body.any fun s => (Space.ofStmt s).toOption.any fun space =>
        space.sourceText = "s = \x7b[i, j]: i == n ^ 0 < m ^ i < m\x7d" := by
    decide +kernel
  obtain ⟨p, s, hp, hs, hspace⟩ := Program.exists_of_any hread
  obtain ⟨space, h, htext⟩ := exists_ok_of_any hspace
  obtain ⟨p', s', hp', hs', hspace'⟩ := Program.exists_of_any hreread
  obtain ⟨space', h', htext'⟩ := exists_ok_of_any hspace'
  have htext := of_decide_eq_true htext
  exact ⟨p, s, space, p', s', space', hp, hs, h, htext, by rw [htext]; exact hp', hs', h',
    of_decide_eq_true htext'⟩

end Space

end LoopNest
