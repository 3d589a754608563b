import LoopNest.Proofs.ClosedUnits
import LoopNest.Proofs.SpaceScripts

/-!
# The functions that a script applies

Every application of a space is one in the definition of its script, in the same order. One whose
arguments are written without parentheses is an application of a function of the table. One with
parentheses inside keeps its name and its arguments, and is declared only if the table happens to have
a function with this name and number of arguments.
-/

namespace LoopNest

open Script

namespace Script

/-! ### Applications in a script -/

/-- The applications among words. -/
def applicationsOf (uses : List Use) : List (List Char × List (List Char)) :=
  uses.filterMap fun use => use.2.map fun arguments => (use.1, arguments)

/-- The applications in the definition of a script: functions with their arguments. -/
def applicationsIn (script : String) : List (List Char × List (List Char)) :=
  applicationsOf (usesFrom 0 (definitionIn script))

/-- The symbol that declares a function with a number of arguments. -/
def functionSymbol (name : List Char) (arity : Nat) : List Char :=
  name ++ '(' :: ((toString arity).toList ++ [')'])

theorem applicationsOf_append (us vs : List Use) :
    applicationsOf (us ++ vs) = applicationsOf us ++ applicationsOf vs :=
  List.filterMap_append

theorem applicationsOf_eq_nil {us : List Use} (h : ∀ use ∈ us, use.2 = none) :
    applicationsOf us = [] := by
  rw [applicationsOf, List.filterMap_eq_nil_iff]
  intro use huse
  rw [h use huse, Option.map_none]

theorem applicationsOf_unapplied (words : List String) :
    applicationsOf (Term.unapplied words) = [] :=
  applicationsOf_eq_nil (List.forall_mem_map.mpr fun _ _ => rfl)

/-- A call of a function is one application. -/
theorem applicationsOf_variant {v : Variant} (h : v.Legal) :
    applicationsOf v.uses = [(v.name, v.written)] := by
  have hnone : applicationsOf (v.applied.flatMap (usesFrom 0)) = [] := by
    refine applicationsOf_eq_nil fun use huse => ?_
    obtain ⟨text, htext, huse⟩ := List.mem_flatMap.mp huse
    rcases h.applied with happlied | ⟨-, harguments⟩
    · rw [happlied, List.mem_singleton] at htext
      rw [htext] at huse
      cases huse
    · exact eq_none_of_mem_usesFrom ((harguments text htext).not_mem rfl) huse
  have huses : applicationsOf v.uses =
      (v.name, v.written) :: applicationsOf (v.applied.flatMap (usesFrom 0)) := rfl
  rw [huses, hnone]

theorem toList_declaration (v : Variant) :
    v.declaration.toList = functionSymbol v.name v.applied.length := by
  simp [Variant.declaration, functionSymbol]

theorem functionSymbol_inj {f g : List Char} (hf : IsAsciiWord f) (hg : IsAsciiWord g) {m n : Nat}
    (h : functionSymbol f m = functionSymbol g n) : f = g ∧ m = n := by
  have hcut := congrArg (Text.cutAt? '(') h
  rw [functionSymbol, functionSymbol, Text.cutAt?_append (hf.not_mem rfl),
    Text.cutAt?_append (hg.not_mem rfl), Option.some.injEq, Prod.mk.injEq] at hcut
  obtain ⟨hname, harity⟩ := hcut
  have hnumber := congrArg (Nat.ofDigitChars 10 · 0) (List.append_cancel_right harity)
  exact ⟨hname, by simpa only [ofDigitChars_toString] using hnumber⟩

end Script

namespace Term

/-! ### Applications in a term -/

mutual

/-- The applications in a term, each before those in its arguments. -/
def applications : Term → List (String × List Term)
  | apply function args => (function, args) :: applicationsAll args
  | arith left _ right => left.applications ++ right.applications
  | _ => []

def applicationsAll : List Term → List (String × List Term)
  | [] => []
  | t :: ts => t.applications ++ applicationsAll ts

end

theorem applicationsAll_eq (ts : List Term) : applicationsAll ts = ts.flatMap applications := by
  induction ts with
  | nil => rfl
  | cons t ts ih => rw [applicationsAll, ih, List.flatMap_cons]

theorem Flat.applications_eq {t : Term} (h : t.Flat) : t.applications = [] := by
  induction h with
  | iterator => rfl
  | constant => rfl
  | literal => rfl
  | arith op _ _ _ _ ihl ihr => rw [applications, ihl, ihr, List.append_nil]

/-- Where a term has parentheses, the emitted term has some. -/
theorem Plain.mem_emitted {t : Term} (h : t.Plain) {iterators : List String} {vs : Variants}
    (hserves : Serves iterators t.calls vs) (hparen : '(' ∈ t.text.toList) : '(' ∈ t.emitted vs := by
  have hgroup : ∀ {t : Term} (needed : Bool), ('(' ∈ t.text.toList → '(' ∈ t.emitted vs) →
      '(' ∈ (group needed t.text).toList → '(' ∈ grouped needed (t.emitted vs) := by
    intro t needed ht
    rw [toList_group]
    cases needed with
    | false => exact ht
    | true => exact fun _ => List.mem_cons_self
  induction h with
  | iterator => exact hparen
  | constant => exact hparen
  | literal => exact hparen
  | @apply function args _ hargs =>
    rw [emitted]
    split
    · exact List.mem_append_right _ List.mem_cons_self
    · next hflat =>
      obtain ⟨v, -, hlookup, -⟩ := hserves.exists_stands hargs hflat
      rw [Piece.written, hlookup, Option.map_some, Option.getD_some, Variant.call]
      simp
  | @arith left right op _ _ ihl ihr =>
    rw [toList_text_arith, List.mem_append, List.mem_append] at hparen
    rw [emitted, List.mem_append, List.mem_append]
    rcases hparen with (hleft | hop) | hright
    · exact .inl (.inl (hgroup _ (ihl hserves.left) hleft))
    · exact absurd hop op.separates_spaced.noOpening
    · exact .inr (hgroup _ (ihr hserves.right) hright)

/-- What an application is written as: with parentheses inside as it stands, otherwise as a call of
the function that stands for it. -/
structure WrittenAs (iterators : List String) (vs : Variants) (source : String × List Term)
    (target : List Char × List (List Char)) : Prop where
  name : IsAsciiWord source.1.toList
  kept : '(' ∈ argumentText source.2 →
    target = (source.1.toList, source.2.map (emitted vs)) ∧ ∃ text ∈ target.2, '(' ∈ text
  called : '(' ∉ argumentText source.2 →
    ∃ v ∈ vs, Stands iterators source.2 v ∧ target = (v.name, v.written)

theorem forall₂_flatMap {α β γ : Type} {R : β → γ → Prop} {f : α → List β} {g : α → List γ}
    {xs : List α} (h : ∀ x ∈ xs, List.Forall₂ R (f x) (g x)) :
    List.Forall₂ R (xs.flatMap f) (xs.flatMap g) := by
  induction xs with
  | nil => exact .nil
  | cons x xs ih =>
    obtain ⟨hx, hxs⟩ := List.forall_mem_cons.mp h
    exact List.rel_append hx (ih hxs)

theorem applicationsOf_usesAll (vs : Variants) (ts : List Term) :
    applicationsOf (usesAll vs ts) = ts.flatMap fun t => applicationsOf (t.uses vs) := by
  induction ts with
  | nil => rfl
  | cons t ts ih => rw [usesAll, applicationsOf_append, ih, List.flatMap_cons]

/-- The applications in an emitted term are those of the term, in order. -/
theorem Plain.forall₂_applications {t : Term} (h : t.Plain) {iterators : List String}
    {vs : Variants} (hserves : Serves iterators t.calls vs) :
    List.Forall₂ (WrittenAs iterators vs) t.applications (applicationsOf (t.uses vs)) := by
  induction h with
  | iterator => exact .nil
  | constant => exact .nil
  | literal =>
    rw [uses, applicationsOf_unapplied]
    exact .nil
  | @apply function args hfunction hargs ih =>
    rw [applications, uses]
    by_cases hparen : '(' ∈ argumentText args
    · rw [if_pos hparen, applicationsAll_eq, emittedAll_eq]
      have hinner : ∀ t ∈ args, Serves iterators t.calls vs := fun t ht =>
        hserves.argument hparen ht
      have hinside : List.Forall₂ (WrittenAs iterators vs) (args.flatMap applications)
          (applicationsOf (usesAll vs args)) := by
        rw [applicationsOf_usesAll]
        exact forall₂_flatMap fun t ht => ih t ht (hinner t ht)
      have hopened : ∃ text ∈ args.map (emitted vs), '(' ∈ text := by
        rw [argumentText_eq] at hparen
        obtain ⟨_, htext, hmem⟩ := (of_mem_intercalate hparen).resolve_left (by decide)
        obtain ⟨t, ht, rfl⟩ := List.mem_map.mp htext
        exact ⟨_, List.mem_map_of_mem ht, (hargs t ht).mem_emitted (hinner t ht) hmem⟩
      exact .cons ⟨hfunction, fun _ => ⟨rfl, hopened⟩, fun hnot => absurd hparen hnot⟩ hinside
    · have hflat := flat_of_argumentText hargs hparen
      have hinside : applicationsAll args = [] := by
        rw [applicationsAll_eq, List.flatMap_eq_nil_iff]
        exact fun t ht => (hflat t ht).applications_eq
      obtain ⟨v, hv, hlookup, hstands⟩ := hserves.exists_stands hargs hparen
      rw [if_neg hparen, hlookup, Option.map_some, Option.getD_some, hinside,
        applicationsOf_variant hstands.legal]
      exact .cons ⟨hfunction, fun hmem => absurd hmem hparen, fun _ => ⟨v, hv, hstands, rfl⟩⟩ .nil
  | arith op _ _ ihl ihr =>
    rw [applications, uses, applicationsOf_append]
    exact List.rel_append (ihl hserves.left) (ihr hserves.right)

end Term

/-! ### The applications of a space -/

namespace Space

def applications (s : Space) : List (String × List Term) :=
  Term.applicationsAll s.terms

theorem forall₂_applicationsIn {c : Computation} (config : Config) (hl : c.space.Legible)
    (h : c.space.Plain) :
    List.Forall₂ (Term.WrittenAs c.space.iterators c.space.variants) c.space.applications
      (applicationsIn (ofRequest (c.request config))) := by
  rw [applicationsIn, usesFrom_definitionIn config h, applicationsOf_append,
    applicationsOf_unapplied, List.nil_append, ← Term.usesAll_eq, Term.applicationsOf_usesAll,
    applications, Term.applicationsAll_eq, ← hl.writtenTerms_eq]
  exact Term.forall₂_flatMap fun t ht =>
    (h.terms t ht).forall₂_applications (serves_variants h ht)

/-- The table has a function with this name and number of arguments. -/
def HasFunction (s : Space) (name : List Char) (arity : Nat) : Prop :=
  ∃ v ∈ s.variants, v.name = name ∧ v.applied.length = arity

/-- The functions that are declared are those of the table. -/
theorem functionSymbol_mem_declared_iff {s : Space} (h : s.Plain) {name : List Char}
    (hname : IsAsciiWord name) (arity : Nat) :
    functionSymbol name arity ∈ s.declared.map String.toList ↔ s.HasFunction name arity := by
  constructor
  · intro hmem
    rw [declared, List.map_append, List.mem_append, List.map_map] at hmem
    rcases hmem with hmem | hmem
    · -- a constant has no parenthesis
      obtain ⟨x, hx, hsymbol⟩ := List.mem_map.mp hmem
      have hword := isAsciiWord_of_mem_constantsIn (Names.mem_distinct.mp hx)
      rw [hsymbol] at hword
      exact absurd (by simp [functionSymbol]) (hword.not_mem (c := '(') rfl)
    · obtain ⟨v, hv, hsymbol⟩ := List.mem_map.mp hmem
      rw [Function.comp_apply, toList_declaration] at hsymbol
      exact ⟨v, hv, functionSymbol_inj (legal_of_mem_variants h hv).name hname hsymbol⟩
  · rintro ⟨v, hv, rfl, rfl⟩
    rw [← toList_declaration]
    exact List.mem_map_of_mem (List.mem_append_right _ (List.mem_map_of_mem hv))

/-- No function of the table is without arguments. -/
theorem not_hasFunction_zero {s : Space} (h : s.Plain) (name : List Char) :
    ¬ s.HasFunction name 0 := by
  rintro ⟨v, hv, -, harity⟩
  have hnil := List.eq_nil_of_length_eq_zero harity
  rcases (legal_of_mem_variants h hv).applied with happlied | ⟨hne, -⟩
  · rw [hnil] at happlied
    cases happlied
  · exact hne hnil

end Space

/-- What an application in a script should be: of a function that is declared with as many arguments,
and if the arguments in the source mention an iterator, to the iterators up to the last one that they
mention. -/
structure Script.InPrefixForm (iterators : List String) (symbols : List (List Char))
    (source : String × List Term) (target : List Char × List (List Char)) : Prop where
  declared : functionSymbol target.1 target.2.length ∈ symbols
  leading : Term.mentionsIterator iterators source.2 →
    target.2 = (Term.reached iterators source.2).map String.toList

theorem Term.WrittenAs.inPrefixForm_iff {s : Space} (h : s.Plain) {source : String × List Term}
    {target : List Char × List (List Char)}
    (hwritten : Term.WrittenAs s.iterators s.variants source target) :
    InPrefixForm s.iterators (s.declared.map String.toList) source target ↔
      source.2 ≠ [] ∧ ('(' ∈ Term.argumentText source.2 →
        Term.mentionsIterator s.iterators source.2 = false ∧
        s.HasFunction source.1.toList source.2.length) := by
  obtain ⟨function, args⟩ := source
  by_cases hparen : '(' ∈ Term.argumentText args
  · obtain ⟨rfl, text, htext, hopened⟩ := hwritten.kept hparen
    have hdeclared := Space.functionSymbol_mem_declared_iff h hwritten.name args.length
    constructor
    · intro hform
      refine ⟨fun hempty => ?_, fun _ => ⟨?_, ?_⟩⟩
      · subst hempty
        cases hparen
      · -- iterators are words, and one of the arguments has a parenthesis
        by_contra hmentions
        have hleading := hform.leading (by simpa using hmentions)
        rw [hleading] at htext
        obtain ⟨i, hi, rfl⟩ := List.mem_map.mp htext
        exact (h.iterators i (Term.mem_of_mem_reached hi)).not_mem rfl hopened
      · exact hdeclared.mp (by simpa using hform.declared)
    · rintro ⟨-, hkept⟩
      obtain ⟨hmentions, hfunction⟩ := hkept hparen
      exact ⟨by simpa using hdeclared.mpr hfunction, fun hm => by simp [hmentions] at hm⟩
  · obtain ⟨v, hv, hstands, rfl⟩ := hwritten.called hparen
    have hdeclared := Space.functionSymbol_mem_declared_iff h hstands.legal.name
    constructor
    · intro hform
      refine ⟨fun hempty => ?_, fun hmem => absurd hmem hparen⟩
      have hmissing : v.written = [] := by
        rw [Variant.written, hstands.empty.mpr hempty]
        rfl
      have hzero := hform.declared
      rw [hmissing] at hzero
      exact Space.not_hasFunction_zero h v.name ((hdeclared 0).mp hzero)
    · rintro ⟨hne, -⟩
      have hall := hstands.legal.written_eq fun hmissing => hne (hstands.empty.mp hmissing)
      rw [hall]
      exact ⟨(hdeclared _).mpr ⟨v, hv, rfl, rfl⟩, fun hm => hstands.replaced hm⟩

theorem forall₂_iff_of_rel {α β : Type} {R P : α → β → Prop} {Q : α → Prop} {xs : List α}
    {ys : List β} (h : List.Forall₂ R xs ys) (hiff : ∀ x y, R x y → (P x y ↔ Q x)) :
    List.Forall₂ P xs ys ↔ ∀ x ∈ xs, Q x := by
  induction h with
  | nil => simp
  | cons hxy _ ih => rw [List.forall₂_cons, List.forall_mem_cons, hiff _ _ hxy, ih]

namespace Space

/-- The script of a space with ASCII names has the applications of the space, and all of them are as they
should be exactly if each has an argument, and one with parentheses in its arguments mentions no
iterator and happens to have the name and the number of arguments of a function of the table. -/
theorem applicationsIn_inPrefixForm_iff {source : String} {p : Program} {stmt : Stmt} {c : Computation}
    (hp : Program.parse source = .ok p) (hs : stmt ∈ p.body) (h : Space.ofStmt stmt = .ok c.space)
    (hascii : ∀ name ∈ c.space.names, isAsciiText name) (config : Config) :
    List.Forall₂ (InPrefixForm c.space.iterators (symbolsIn (ofRequest (c.request config))))
        c.space.applications (applicationsIn (ofRequest (c.request config))) ↔
      ∀ a ∈ c.space.applications, a.2 ≠ [] ∧ ('(' ∈ Term.argumentText a.2 →
        Term.mentionsIterator c.space.iterators a.2 = false ∧
        c.space.HasFunction a.1.toList a.2.length) := by
  have hl : c.space.Legible := legible_of_space? (Program.proper_of_parse hp stmt hs)
    ((Space.ofStmt_eq_ok_iff stmt c.space).mp h)
  have hplain := hl.plain hascii
  rw [symbolsIn_ofRequest config hplain]
  exact forall₂_iff_of_rel (forall₂_applicationsIn config hl hplain)
    fun a b hwritten => hwritten.inPrefixForm_iff hplain

/-- A header with applications of all kinds; the one with parentheses inside has the name of a function
that is declared. -/
def appliedHeader : String :=
  "s = \x7b[i, j]: f(N) <= i < f(2 * (N + 1)) ^ g(i + 1) <= j < g(i)\x7d"

theorem inPrefixForm_applied :
    ∃ p stmt s, Program.parse appliedHeader = .ok p ∧ stmt ∈ p.body ∧ Space.ofStmt stmt = .ok s ∧
      (∀ name ∈ s.names, isAsciiText name) ∧
      s.applications.map Prod.fst = ["f", "f", "g", "g"] ∧
      List.Forall₂ (InPrefixForm s.iterators
          (symbolsIn (ofRequest (Computation.request .standard ⟨s, [], []⟩))))
        s.applications (applicationsIn (ofRequest (Computation.request .standard ⟨s, [], []⟩))) := by
  have hread : (Program.parse appliedHeader).toOption.any fun p => p.body.any fun stmt =>
      (Space.ofStmt stmt).toOption.any fun s =>
        s.names.all isAsciiText && s.applications.map Prod.fst = ["f", "f", "g", "g"] &&
        s.applications.all fun a => !a.2.isEmpty && decide ('(' ∈ Term.argumentText a.2 →
          Term.mentionsIterator s.iterators a.2 = false ∧
          ∃ v ∈ s.variants, v.name = a.1.toList ∧ v.applied.length = a.2.length) := by
    decide +kernel
  obtain ⟨p, stmt, hp, hs, hspace⟩ := Program.exists_of_any hread
  obtain ⟨s, h, hcheck⟩ := exists_ok_of_any hspace
  simp only [Bool.and_eq_true, List.all_eq_true, decide_eq_true_eq, Bool.not_eq_true',
    List.isEmpty_eq_false_iff] at hcheck
  obtain ⟨⟨hascii, hfunctions⟩, happlications⟩ := hcheck
  exact ⟨p, stmt, s, hp, hs, h, hascii, hfunctions,
    (applicationsIn_inPrefixForm_iff (c := ⟨s, [], []⟩) hp hs h hascii .standard).mpr happlications⟩

/-- An application inside another one: the outer one is kept, and not declared. -/
def nestedSource : String :=
  "s = \x7b[i]: 0 <= i < f(g(i))\x7d\ny[i] = 1"

def nestedScript : String :=
  "symbolic g(1);\ns := \x7b[i] : 0 <= i < f(g(i))\x7d;\nr0s := \x7b[i] -> [0, i, 0]\x7d;\n" ++
    "codegen r0s:s;\n"

theorem not_inPrefixForm_nested :
    ∃ p stmt s, Program.parse nestedSource = .ok p ∧ stmt ∈ p.body ∧ Space.ofStmt stmt = .ok s ∧
      (∀ name ∈ s.names, isAsciiText name) ∧
      ofRequest (Computation.request .standard ⟨s, p.body.tail, []⟩) = nestedScript ∧
      ¬ List.Forall₂ (InPrefixForm s.iterators (symbolsIn nestedScript)) s.applications
        (applicationsIn nestedScript) := by
  have hread : (Program.parse nestedSource).toOption.any fun p => p.body.any fun stmt =>
      (Space.ofStmt stmt).toOption.any fun s => s.names.all isAsciiText &&
        ofRequest (Computation.request .standard ⟨s, p.body.tail, []⟩) = nestedScript := by
    decide +kernel
  obtain ⟨p, hp, hbody⟩ := exists_ok_of_any hread
  obtain ⟨stmt, hs, hspace⟩ := List.any_eq_true.mp hbody
  obtain ⟨s, h, hcheck⟩ := exists_ok_of_any hspace
  simp only [Bool.and_eq_true, List.all_eq_true, decide_eq_true_eq] at hcheck
  obtain ⟨hascii, hscript⟩ := hcheck
  refine ⟨p, stmt, s, hp, hs, h, hascii, hscript, fun hforall => ?_⟩
  have hsymbols : symbolsIn nestedScript = ["g(1)".toList] := by decide +kernel
  have happlications : applicationsIn nestedScript =
      [("f".toList, ["g(i)".toList]), ("g".toList, ["i".toList])] := by decide +kernel
  rw [happlications, hsymbols] at hforall
  obtain ⟨_, _, hform, -, -⟩ := List.forall₂_cons_right_iff.mp hforall
  exact absurd hform.declared (by decide +kernel)

end Space

end LoopNest
