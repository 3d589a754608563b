import LoopNest.Proofs.ParserComplete

/-!
# Every statement in the grammar is read

An assignment, an augmented assignment and an expression alone are told apart by the word behind the
first list of expressions. Terminators between statements are skipped, so a body of the grammar is
read statement by statement up to the end of the input.
-/

namespace LoopNest.Parser

open Grammar

mutual

theorem unassignable?_of_bare : ∀ {e : Expr}, Assignable e.bare → unassignable? e = none
  | .name .., _ => by simp [unassignable?]
  | .subscript .., _ => by simp [unassignable?]
  | .tuple _ items, h => by
    rw [unassignable?]
    rw [Expr.bare] at h
    cases h with
    | tuple _ _ hall => exact firstUnassignable?_of_bare hall
  | .number .., h | .binary .., h | .unary .., h | .connect .., h | .compare .., h | .call .., h
  | .list .., h | .dict .., h => by
    rw [Expr.bare] at h
    cases h

theorem firstUnassignable?_of_bare :
    ∀ {es : List Expr}, (∀ e ∈ bareAll es, Assignable e) → firstUnassignable? es = none
  | [], _ => by simp [firstUnassignable?]
  | e :: es, h => by
    simp only [bareAll, List.mem_cons, forall_eq_or_imp] at h
    rw [firstUnassignable?, unassignable?_of_bare h.1]
    exact firstUnassignable?_of_bare h.2

end

theorem exprList_of_derives {ws : List Word} {e : Expr} (h : Derives .exprList ws (.expr e))
    {n : Nat} {c c' : Cursor} (hn : c.rest.length < n) (hr : c.Reads ws c')
    (hend : endsList c'.current.kind) : Yields Expr.bare (exprList (expression n)) c e c' :=
  complete_of_derives h n c c' hn hr hend

theorem endsList_of_isTerminator {k : Token.Kind} (h : k.isTerminator) : endsList k := by
  cases k <;> simp_all [endsList, Token.Kind.isTerminator]

theorem values_stop {expr : Parser Expr} {m : Nat} {c : Cursor} (h : c.current.kind.isTerminator) :
    values expr m c = .ok ([], c) := by
  cases m with
  | zero => rfl
  | succ m =>
    rw [values, accept_bind, if_neg (by rintro hk; simp [hk, Token.Kind.isTerminator] at h)]
    rfl

/-- Behind the first target the other targets and the value are read. -/
theorem values_of_targets {ws vs : List Word} {targets : List Expr} {value : Expr}
    (ht : Targets ws targets) (hv : Derives .exprList vs (.expr value)) {n m : Nat} {s : String}
    {c c' : Cursor} (hn : c.rest.length < n) (hm : c.rest.length ≤ m)
    (hr : c.Reads ((.equal, s) :: (ws ++ vs)) c') (hend : c'.current.kind.isTerminator) :
    Yields bareAll (values (expression n) m) c (targets ++ [value]) c' := by
  induction ht generalizing m s c with
  | nil =>
    obtain ⟨hk, -, c₁, hnext, hr, hlen⟩ := hr.uncons
    cases m with
    | zero => omega
    | succ m =>
      obtain ⟨e', he, hbare⟩ := exprList_of_derives (n := n) hv (by omega) hr
        (endsList_of_isTerminator hend)
      refine ⟨[e'], ?_, by simp [bareAll, hbare]⟩
      rw [values, accept_bind, if_pos hk, advance_bind_of_next? hnext, if_pos rfl, bind_of_ok he,
        bind_of_ok (values_stop hend)]
      rfl
  | cons t head ha rest ih =>
    obtain ⟨hk, -, c₁, hnext, hr, hlen⟩ := hr.uncons
    rw [List.append_assoc] at hr
    obtain ⟨c₂, hr₁, hr₂⟩ := Cursor.reads_append.mp hr
    have hlen₁ := hr₁.length
    cases m with
    | zero => omega
    | succ m =>
      obtain ⟨e', he, hbare⟩ := exprList_of_derives (n := n) head (by omega) hr₁
        (by rw [hr₂.uncons.1]; rfl)
      obtain ⟨es', hes, hbares⟩ := ih (m := m) (by omega) (by omega) hr₂
      refine ⟨e' :: es', ?_, by simp [bareAll, hbare, hbares]⟩
      rw [values, accept_bind, if_pos hk, advance_bind_of_next? hnext, if_pos rfl, bind_of_ok he,
        bind_of_ok hes]
      rfl

theorem checkTargets_bind {α : Type} {targets : List Expr} {f : Unit → Parser α} {c : Cursor}
    (h : ∀ e ∈ bareAll targets, Assignable e) : (checkTargets targets >>= f) c = f () c := by
  rw [checkTargets, firstUnassignable?_of_bare h]
  rfl

/-- The statement behind its first expression list, where no augmented operator stands. -/
theorem statement_of_exprList {expr : Parser Expr} {c c₁ : Cursor} {first : Expr}
    (h : exprList expr c = .ok (first, c₁)) (hk : ∀ op, c₁.current.kind ≠ .augmented op) :
    statement expr c = (do
      match ← values expr c₁.rest.length with
      | [] => return .eval (c.current.span.merge (← last)) first
      | v :: vs =>
        checkTargets (first :: v :: vs).dropLast
        return .assign (c.current.span.merge (← last)) (first :: v :: vs).dropLast
          (vs.getLastD v) : Parser Stmt) c₁ := by
  rw [statement, here_bind, bind_of_ok h, kind_bind]
  cases hk' : c₁.current.kind with
  | augmented op => exact absurd hk' (hk op)
  | _ => rfl

theorem complete_eval {ws : List Word} {e : Expr} (h : Derives .exprList ws (.expr e)) {n : Nat}
    {c c' : Cursor} (hn : c.rest.length < n) (hr : c.Reads ws c')
    (hend : c'.current.kind.isTerminator) :
    Yields Stmt.bare (statement (expression n)) c (.eval .nowhere e) c' := by
  obtain ⟨e', he, hbare⟩ := exprList_of_derives h hn hr (endsList_of_isTerminator hend)
  refine ⟨.eval (c.current.span.merge c'.last) e', ?_, by rw [Stmt.bare, hbare]⟩
  rw [statement_of_exprList he (by rintro op hk; simp [hk, Token.Kind.isTerminator] at hend),
    bind_of_ok (values_stop hend)]
  rfl

theorem assignable_of_targets {ws : List Word} {targets : List Expr} (h : Targets ws targets) :
    ∀ e ∈ targets, Assignable e := by
  induction h with
  | nil => simp
  | cons s head ha rest ih => simpa using ⟨ha, ih⟩

/-- The targets and the value of an assignment from the expression lists that were read. -/
theorem exists_of_bareAll {vs targets : List Expr} {value : Expr}
    (h : bareAll vs = targets ++ [value]) (first : Expr) :
    ∃ v us, vs = v :: us ∧ bareAll (first :: v :: us).dropLast = first.bare :: targets ∧
      (us.getLastD v).bare = value := by
  rw [bareAll_eq_map, List.map_eq_append_iff] at h
  obtain ⟨init, last, rfl, rfl, hlast⟩ := h
  obtain ⟨l, rfl, rfl⟩ := List.map_eq_singleton_iff.mp hlast
  cases init with
  | nil => exact ⟨l, [], rfl, by simp [bareAll], rfl⟩
  | cons v us =>
    refine ⟨v, us ++ [l], rfl, ?_, by simp⟩
    rw [← List.cons_append, ← List.cons_append, List.dropLast_concat, bareAll_eq_map]
    rfl

theorem complete_assign {ws vs : List Word} {target value : Expr} {targets : List Expr}
    (ht : Targets ws (target :: targets)) (hv : Derives .exprList vs (.expr value)) {n : Nat}
    {c c' : Cursor} (hn : c.rest.length < n) (hr : c.Reads (ws ++ vs) c')
    (hend : c'.current.kind.isTerminator) :
    Yields Stmt.bare (statement (expression n)) c
      (.assign .nowhere (target :: targets) value) c' := by
  have hassign := assignable_of_targets ht
  cases ht with
  | cons s head ha rest =>
    rw [List.append_assoc] at hr
    obtain ⟨c₁, hr₁, hr₂⟩ := Cursor.reads_append.mp hr
    have hlen := hr₁.length
    have hk := hr₂.uncons.1
    obtain ⟨first, hfirst, rfl⟩ := exprList_of_derives head hn hr₁ (by rw [hk]; rfl)
    obtain ⟨es, hes, hbares⟩ :=
      values_of_targets (n := n) rest hv (by omega) (Nat.le_refl _) hr₂ hend
    obtain ⟨v, us, rfl, htargets, rfl⟩ := exists_of_bareAll hbares first
    refine ⟨.assign (c.current.span.merge c'.last) (first :: v :: us).dropLast (us.getLastD v),
      ?_, by rw [Stmt.bare, htargets]⟩
    rw [statement_of_exprList hfirst (by simp [hk]), bind_of_ok hes]
    simp only
    rw [checkTargets_bind (by rwa [htargets]), last_bind]
    rfl

theorem complete_augment {ws vs : List Word} {target value : Expr} {op : BinaryOp} (s : String)
    (ht : Derives .exprList ws (.expr target)) (ha : Assignable target)
    (hv : Derives .expr vs (.expr value)) {n : Nat} {c c' : Cursor} (hn : c.rest.length < n)
    (hr : c.Reads (ws ++ (.augmented op, s) :: vs) c') (hend : c'.current.kind.isTerminator) :
    Yields Stmt.bare (statement (expression n)) c (.augment .nowhere target op value) c' := by
  obtain ⟨c₁, hr₁, hr₂⟩ := Cursor.reads_append.mp hr
  obtain ⟨hk, -, c₂, hnext, hr₂, hlen⟩ := hr₂.uncons
  have hlen₁ := hr₁.length
  obtain ⟨first, hfirst, rfl⟩ := exprList_of_derives ht hn hr₁ (by rw [hk]; rfl)
  obtain ⟨value', hvalue, rfl⟩ := Yields.of_expr (n := n) (complete_of_derives hv) (by omega) hr₂
    (grip_of_endsList (endsList_of_isTerminator hend)).1
  refine ⟨.augment (c.current.span.merge c'.last) first op value', ?_, by rw [Stmt.bare]⟩
  rw [statement, here_bind, bind_of_ok hfirst, kind_bind, hk]
  simp only
  rw [checkTargets_bind (by simpa [bareAll] using ha), advance_bind_of_next? hnext,
    bind_of_ok hvalue, last_bind]
  rfl

/-- A statement is read up to a terminator. -/
theorem statement_complete {ws : List Word} {s : Stmt} (h : Statement ws s) {n : Nat}
    {c c' : Cursor} (hn : c.rest.length < n) (hr : c.Reads ws c')
    (hend : c'.current.kind.isTerminator) :
    Yields Stmt.bare (statement (expression n)) c s c' := by
  cases h with
  | eval h => exact complete_eval h hn hr hend
  | assign left right => exact complete_assign left right hn hr hend
  | augment s left ha right => exact complete_augment s left ha right hn hr hend

theorem skipTerminators_stop {m : Nat} {c : Cursor} (h : ¬ IsSeparator c.current.kind) :
    skipTerminators m c = .ok ((), c) := by
  cases m with
  | zero => rfl
  | succ m =>
    rw [skipTerminators, kind_bind, if_neg (by simpa [IsSeparator] using h)]
    rfl

theorem statements_end {expr : Parser Expr} {m : Nat} {c : Cursor}
    (h : c.current.kind = .endOfInput) : statements expr m c = .ok ([], c) := by
  cases m with
  | zero => rfl
  | succ m =>
    rw [statements, remaining_bind, bind_of_ok (skipTerminators_stop (by simp [h, IsSeparator])),
      kind_bind, if_pos h]
    rfl

theorem statements_separator {expr : Parser Expr} {m : Nat} {c c₁ : Cursor}
    (h : IsSeparator c.current.kind) (hnext : c.next? = some c₁) :
    statements expr (m + 1) c = statements expr (m + 1) c₁ := by
  have hskip : skipTerminators c.rest.length c = skipTerminators c₁.rest.length c₁ := by
    rw [Cursor.length_of_next? hnext, skipTerminators, kind_bind,
      if_pos (by simpa [IsSeparator] using h), advance_bind_of_next? hnext]
  rw [statements, remaining_bind, remaining_bind]
  change Except.bind (skipTerminators c.rest.length c) _ =
    Except.bind (skipTerminators c₁.rest.length c₁) _
  rw [hskip]

/-- A statement is the first of those read where it begins. -/
theorem statements_statement {ws : List Word} {s : Stmt} (h : Statement ws s) {n m : Nat}
    {c c' : Cursor} (hn : c.rest.length < n) (hr : c.Reads ws c')
    (hend : c'.current.kind.isTerminator) :
    ∃ s', s'.bare = s ∧ statements (expression n) (m + 1) c = (do
      return s' :: (← statements (expression n) m) : Parser (List Stmt)) c' := by
  obtain ⟨k, l, vs, rfl, hk⟩ := h.begins
  have hkind := hr.uncons.1
  have hsep : ¬ IsSeparator c.current.kind := by
    rw [hkind]
    exact h.begins.not_separator
  have hne : c.current.kind ≠ .endOfInput := by
    rw [hkind]
    rintro rfl
    simp [Symbol.starts, startsAtom, isSign, signs] at hk
  obtain ⟨s', hs, hbare⟩ := statement_complete h hn hr hend
  refine ⟨s', hbare, ?_⟩
  rw [statements, remaining_bind, bind_of_ok (skipTerminators_stop hsep), kind_bind, if_neg hne,
    bind_of_ok hs, kind_bind, if_pos hend]

/-- The statements of a program are read up to the end of the input. -/
theorem statements_complete {ws : List Word} {ss : List Stmt} (h : Body ws ss) {n m : Nat}
    {c c' : Cursor} (hn : c.rest.length < n) (hm : c.rest.length < m) (hr : c.Reads ws c')
    (hend : c'.current.kind = .endOfInput) :
    Yields (List.map Stmt.bare) (statements (expression n) m) c ss c' := by
  induction h generalizing c m with
  | nil =>
    cases hr
    exact ⟨[], statements_end hend, rfl⟩
  | skip s hsep _ ih =>
    obtain ⟨hk, -, c₁, hnext, hr, hlen⟩ := hr.uncons
    cases m with
    | zero => omega
    | succ m =>
      rw [Yields, statements_separator (by rwa [hk]) hnext]
      exact ih (by omega) (by omega) hr
  | last hs =>
    cases m with
    | zero => omega
    | succ m =>
      obtain ⟨s', hbare, hrun⟩ := statements_statement (m := m) hs hn hr (by rw [hend]; rfl)
      refine ⟨[s'], ?_, by simp [hbare]⟩
      rw [hrun, bind_of_ok (statements_end hend)]
      rfl
  | cons s hs hsep _ ih =>
    obtain ⟨c₁, hr₁, hr₂⟩ := Cursor.reads_append.mp hr
    obtain ⟨hk, -, c₂, hnext, hr₂, hlen⟩ := hr₂.uncons
    have hlen₁ := hr₁.length
    have hpos := List.length_pos_iff.mpr hs.begins.ne_nil
    cases m with
    | zero => omega
    | succ m =>
      cases m with
      | zero => omega
      | succ m =>
        obtain ⟨s', hbare, hrun⟩ := statements_statement (m := m + 1) hs hn hr₁
          (by rw [hk]; rcases hsep with rfl | rfl <;> rfl)
        obtain ⟨ss', hss, hbares⟩ := ih (m := m + 1) (by omega) (by omega) hr₂
        refine ⟨s' :: ss', ?_, by simp [hbare, hbares]⟩
        rw [hrun, bind_of_ok ((statements_separator (by rwa [hk]) hnext).trans hss)]
        rfl

/-- Words of a program are read as it. -/
theorem program_complete {ws : List Word} {ss : List Stmt} (h : Body ws ss) {c c' : Cursor}
    (hr : c.Reads ws c') (hend : c'.current.kind = .endOfInput) :
    ∃ p, program c = .ok (p, c') ∧ p.body.map Stmt.bare = ss := by
  obtain ⟨ss', hss, hbare⟩ := statements_complete h
    (Nat.lt_succ_self c.rest.length) (Nat.lt_succ_self c.rest.length) hr hend
  refine ⟨⟨ss', c.current.span.merge c'.last⟩, ?_, hbare⟩
  rw [program, here_bind, remaining_bind, bind_of_ok hss]
  rfl

end LoopNest.Parser
