import LoopNest.Proofs.SpaceConditions

/-!
# The set of a space is read back

The text of a space for the engine is taken apart at its braces, brackets and commas. No name has one
of these or a blank, and no term begins or ends with a blank, so that the set in the text has the
iterators of the space and its relations, whatever their number.
-/

namespace LoopNest

open Script

namespace Space

/-- A space whose text has no divider but those between its parts. -/
structure Delimited (s : Space) : Prop where
  name : Text.Undivided s.name.toList
  iterators : ∀ i ∈ s.iterators, Text.Undivided i.toList
  terms : ∀ t ∈ s.writtenTerms, t.Tight

theorem Plain.delimited {s : Space} (h : s.Plain) : s.Delimited :=
  ⟨h.name.undivided, fun i hi => (h.iterators i hi).undivided, fun t ht => (h.terms t ht).tight⟩

theorem Legible.delimited {s : Space} (h : s.Legible) : s.Delimited := by
  refine ⟨undivided_of_isName h.name, fun i hi => undivided_of_isName (h.iterators i hi), ?_⟩
  rw [h.writtenTerms_eq]
  exact fun t ht => (h.terms t ht).1.tight

/-! ### Behind the tuple -/

theorem tight_row {t : Term} {links : List (List Char × Term)} (h : ∀ u ∈ rowTerms t links, u.Tight) :
    rowText (·.text.toList) t links ≠ [] ∧ Text.Tight (rowText (·.text.toList) t links) := by
  induction links generalizing t with
  | nil =>
    have ht := h t List.mem_cons_self
    exact ⟨ht.ne_nil, ht.ends⟩
  | cons link links ih =>
    obtain ⟨symbol, u⟩ := link
    obtain ⟨ht, hrest⟩ := List.forall_mem_cons.mp h
    obtain ⟨hne, hends⟩ := ih hrest
    exact ⟨List.append_ne_nil_of_right_ne_nil _ hne, ht.ends.append ht.ne_nil _ hends hne⟩

theorem tight_conditions {s : Space} (h : s.Delimited) (hne : s.relations ≠ []) :
    s.conditions ≠ [] ∧ Text.Tight s.conditions := by
  rcases s.conditions_cases with ⟨-, hterms⟩ | ⟨t, links, htext, hterms, -⟩
  · obtain ⟨r, rs, hrs⟩ := List.exists_cons_of_ne_nil hne
    simp [writtenTerms, hrs, Relation.writtenTerms] at hterms
  · rw [htext]
    exact tight_row (hterms ▸ h.terms)

/-- What stands behind the tuple of a space. -/
def behindTuple (s : Space) : List Char :=
  if s.relations.isEmpty then [] else ' ' :: ':' :: ' ' :: s.conditions

theorem toList_engineText (s : Space) :
    s.engineText.toList = (s.name ++ " = ").toList ++ '\x7b' ::
      ('[' :: ([',', ' '].intercalate (s.iterators.map String.toList) ++ ']' :: s.behindTuple) ++
        '\x7d' :: []) := by
  rw [engineText_eq_text]
  unfold text behindTuple conditions
  cases s.relations with
  | nil => simp [String.toList_intercalate]
  | cons r rs => simp [String.toList_intercalate, Form.opening, Form.conjunction]

theorem behindTuple_cases {s : Space} (h : s.Delimited) :
    s.behindTuple = [] ∧ s.conditions = [] ∨
      s.behindTuple = ' ' :: ':' :: ' ' :: s.conditions ∧ s.conditions ≠ [] ∧
        Text.Tight s.conditions := by
  by_cases hne : s.relations = []
  · simp [behindTuple, conditions, hne]
  · exact .inr ⟨by simp [behindTuple, hne], tight_conditions h hne⟩

theorem conditionsOf_behindTuple {s : Space} (h : s.Delimited) :
    conditionsOf s.behindTuple = s.conditions := by
  rcases behindTuple_cases h with ⟨hbehind, hnil⟩ | ⟨hbehind, hne, htight⟩
  · rw [hbehind, hnil]
    rfl
  · have hcolon : Text.trim (':' :: ' ' :: s.conditions) = ':' :: ' ' :: s.conditions := by
      have hfirst : Text.Tight [':'] := Text.tight_of_noBlank (List.forall_mem_singleton.mpr rfl)
      exact (hfirst.append (List.cons_ne_nil _ _) [' '] htight hne).trim_eq
    rw [hbehind, conditionsOf, Text.trim_cons_blank rfl, hcolon]
    exact (Text.trim_cons_blank rfl _).trans htight.trim_eq

/-! ### The whole text -/

theorem ofText?_engineText {s : Space} (h : s.Delimited) :
    SetText.ofText? s.engineText = some ⟨s.iterators, s.conditions⟩ := by
  have hopen : '\x7b' ∉ (s.name ++ " = ").toList := by
    simpa using h.name.not_mem (c := '\x7b') (by decide)
  have hbody := Text.between?_append hopen (List.not_mem_nil : '\x7d' ∉ [])
    ('[' :: ([',', ' '].intercalate (s.iterators.map String.toList) ++ ']' :: s.behindTuple))
  have htrim : Text.trim
      ('[' :: ([',', ' '].intercalate (s.iterators.map String.toList) ++ ']' :: s.behindTuple)) =
      '[' :: ([',', ' '].intercalate (s.iterators.map String.toList) ++ ']' :: s.behindTuple) := by
    have hfirst : Text.Tight ['['] := Text.tight_of_noBlank (List.forall_mem_singleton.mpr rfl)
    have hlast : Text.Tight [']'] := Text.tight_of_noBlank (List.forall_mem_singleton.mpr rfl)
    -- the text ends with the tuple, or with conditions that have no blank at their end
    rcases behindTuple_cases h with ⟨hbehind, -⟩ | ⟨hbehind, hne, htight⟩
    · rw [hbehind]
      exact (hfirst.append (List.cons_ne_nil _ _) _ hlast (List.cons_ne_nil _ _)).trim_eq
    · have hwhole := (hfirst.append (List.cons_ne_nil _ _)
        ([',', ' '].intercalate (s.iterators.map String.toList) ++ [']', ' ', ':', ' ']) htight
        hne).trim_eq
      simpa [hbehind] using hwhole
  have hclose : ']' ∉ [',', ' '].intercalate (s.iterators.map String.toList) :=
    not_mem_tuple (by decide) (by decide) h.iterators
  rw [← toList_engineText] at hbody
  unfold SetText.ofText?
  rw [hbody]
  simp only [Option.bind_eq_bind, Option.bind_some, htrim]
  rw [if_neg (by decide), Text.cutAt?_append hclose]
  simp only [Option.bind_some, names_of_tuple isBlank_space h.iterators, conditionsOf_behindTuple h]
  rfl

theorem map_render_eq_text (rs : List Relation) :
    (rs.map fun r => r.render.fresh.1) = rs.map Relation.text :=
  List.map_congr_left fun r _ => congrArg (fun x => (Id.run x).1) (r.run_render [])

/-- The set in the engine text of a space has its iterators in order, and its rendered relations with
`&&` between them for its conditions. -/
theorem engineText_read_as_set {source : String} {p : Program} {s : Stmt} {space : Space}
    (hp : Program.parse source = .ok p) (hs : s ∈ p.body) (h : Space.ofStmt s = .ok space) :
    SetText.ofText? space.engineText = some
      ⟨space.iterators,
        (" && ".intercalate (space.relations.map fun r => r.render.fresh.1)).toList⟩ := by
  have hlegible : space.Legible :=
    legible_of_space? (Program.proper_of_parse hp s hs) ((Space.ofStmt_eq_ok_iff s space).mp h)
  rw [map_render_eq_text]
  exact ofText?_engineText hlegible.delimited

/-- Headers with and without iterators and relations, and with names beyond ASCII. -/
def greekHeaders : String :=
  "δ = \x7b[μ, j]: 0 <= μ < f(j, -1) ^ ν == -μ ** 2\x7d\nε = \x7b\x7d"

theorem engineText_read_as_set_greek :
    ∃ p s s' space space', Program.parse greekHeaders = .ok p ∧ s ∈ p.body ∧ s' ∈ p.body ∧
      Space.ofStmt s = .ok space ∧ Space.ofStmt s' = .ok space' ∧
      SetText.ofText? space.engineText =
        some ⟨["μ", "j"], "0 <= μ < f(j, -1) && ν == -1 * μ ** 2".toList⟩ ∧
      SetText.ofText? space'.engineText = some ⟨[], []⟩ := by
  have hread : (Program.parse greekHeaders).toOption.any fun p =>
      (p.body.any fun s => (Space.ofStmt s).toOption.any fun space =>
        space.iterators = ["μ", "j"] &&
          " && ".intercalate (space.relations.map fun r => r.render.fresh.1) =
            "0 <= μ < f(j, -1) && ν == -1 * μ ** 2") &&
      p.body.any fun s => (Space.ofStmt s).toOption.any fun space =>
        space.iterators.isEmpty && space.relations.isEmpty := by
    decide +kernel
  obtain ⟨p, hp, hheaders⟩ := exists_ok_of_any hread
  rw [Bool.and_eq_true] at hheaders
  obtain ⟨⟨s, hs, hfirst⟩, s', hs', hsecond⟩ :=
    hheaders.imp List.any_eq_true.mp List.any_eq_true.mp
  obtain ⟨space, h, hcheck⟩ := exists_ok_of_any hfirst
  obtain ⟨space', h', hcheck'⟩ := exists_ok_of_any hsecond
  rw [Bool.and_eq_true, decide_eq_true_eq, decide_eq_true_eq] at hcheck
  rw [Bool.and_eq_true, List.isEmpty_iff, List.isEmpty_iff] at hcheck'
  refine ⟨p, s, s', space, space', hp, hs, hs', h, h', ?_, ?_⟩
  · rw [engineText_read_as_set hp hs h, hcheck.1, hcheck.2]
  · rw [engineText_read_as_set hp hs' h', hcheck'.1, hcheck'.2]
    rfl

end Space

end LoopNest
