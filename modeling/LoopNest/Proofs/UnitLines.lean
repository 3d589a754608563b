import LoopNest.Proofs.ClosedUnits
import LoopNest.Proofs.SeparateCompilation
import LoopNest.Proofs.StatementLines

/-!
# Every statement reaches the code

The headers of a program cut it into groups, and each group becomes a unit. The lines of the unit show
its statements once and in order: it begins with a definition for each, the engine is asked with a
schedule for each, and if there are several units, each definition is taken back at the end.
-/

namespace LoopNest

open Scan

/-! ### Lines -/

/-- The lines of a text. -/
def linesOf (text : String) : List String :=
  (text.toList.splitOn '\n').map String.ofList

theorem linesOf_append (a b : String) : linesOf (a ++ "\n" ++ b) = linesOf a ++ linesOf b := by
  have htext : (a ++ "\n" ++ b).toList = a.toList ++ '\n' :: b.toList := by simp
  rw [linesOf, htext, List.splitOn_append_cons_self, List.map_append]
  rfl

theorem OneLine.linesOf_eq {text : String} (h : OneLine text) : linesOf text = [text] := by
  rw [linesOf, List.splitOn_eq_singleton h, List.map_singleton, String.ofList_toList]

theorem linesOf_intercalate {lines : List String} (hne : lines ≠ [])
    (h : ∀ line ∈ lines, OneLine line) : linesOf ("\n".intercalate lines) = lines := by
  induction lines with
  | nil => exact absurd rfl hne
  | cons line lines ih =>
    obtain ⟨hline, hlines⟩ := List.forall_mem_cons.mp h
    cases lines with
    | nil => rw [String.intercalate_singleton, hline.linesOf_eq]
    | cons next lines =>
      rw [String.intercalate_cons_cons, linesOf_append, hline.linesOf_eq, ih (by simp) hlines]
      rfl

theorem intercalate_cons_eq_append (line : String) (lines : List String) :
    "\n".intercalate (line :: lines) = line ++ String.join (lines.map ("\n" ++ ·)) := by
  induction lines generalizing line with
  | nil => simp
  | cons next lines ih =>
    rw [String.intercalate_cons_cons, ih, List.map_cons, String.join_cons, String.append_assoc,
      String.append_assoc]

namespace Computation

/-- The lines that take the definitions of a unit back, if there is more than one unit. -/
def undefLines (several : Bool) (statements : Nat) : List String :=
  if several then (List.range statements).map Define.undefLine else []

theorem oneLine_undefLines (several : Bool) (statements : Nat) :
    ∀ line ∈ undefLines several statements, OneLine line := by
  unfold undefLines
  split
  · rw [List.forall_mem_map]
    intro k _
    exact .undefine k
  · simp

/-- The lines of a unit: its definitions, an empty line, the function to its last brace, and what
takes the definitions back. -/
theorem linesOf_assemble (config : Config) (several : Bool) (c : Computation)
    {defines : List String} (answer : String) (hne : defines ≠ [])
    (h : ∀ line ∈ defines, OneLine line) :
    ∃ middle, linesOf (assemble config several c defines answer) =
      defines ++ "" :: middle ++ "\x7d" :: undefLines several c.body.length := by
  have hundef : "\x7d" ++ (if several then undefs c else "") =
      "\n".intercalate ("\x7d" :: undefLines several c.body.length) := by
    rw [intercalate_cons_eq_append]
    cases several <;> simp [undefs, undefLines, Function.comp_def]
  let body := "void " ++ c.space.name ++ "(" ++
    ", ".intercalate (config.parameters c.space.writtenConstants c.fields) ++ ") \x7b\n" ++
    declaration config c ++ loops config answer
  have htext : assemble config several c defines answer = "\n".intercalate defines ++ "\n" ++
      ("" ++ "\n" ++ (body ++ "\n" ++
        "\n".intercalate ("\x7d" :: undefLines several c.body.length))) := by
    rw [← hundef, ← String.toList_inj]
    simp [assemble, body]
  have hlast : ∀ line ∈ "\x7d" :: undefLines several c.body.length, OneLine line :=
    List.forall_mem_cons.mpr ⟨by decide, oneLine_undefLines several c.body.length⟩
  refine ⟨linesOf body, ?_⟩
  rw [htext, linesOf_append, linesOf_append, linesOf_append, linesOf_intercalate hne h,
    linesOf_intercalate (by simp) hlast, List.append_assoc]
  rfl

/-- A request and a unit that are made of a header and the statements behind it. The `k`-th statement
gives the `k`-th schedule of the request and the `k`-th line of the unit. -/
structure MadeOf (several : Bool) (group : Stmt × List Stmt) (made : Request × String)
    (space : Space) (fields : Fields) (texts middle : List String) : Prop where
  header : Space.ofStmt group.1 = .ok space
  collected : Fields.ofBody space group.2 = .ok fields
  nonempty : group.2 ≠ []
  translated : List.Forall₂ (fun s text => s.cText = .ok text) group.2 texts
  scheduled : made.1.schedules = [(space.name, (List.range group.2.length).map fun k =>
    "r" ++ toString k ++ space.name ++ " := \x7b[" ++ ",".intercalate space.iterators ++ "] -> [" ++
      ", ".intercalate (space.iterators.flatMap (fun i => ["0", i]) ++ [toString k]) ++ "]\x7d")]
  lines : linesOf made.2 = (texts.zipIdx.map fun t => "#define " ++ ("s" ++ toString t.2) ++ "(" ++
      ", ".intercalate space.iterators ++ ") \x7b " ++ Define.protectIterators space.iterators
        (Define.dereference fields.writtenScalars t.1) ++ "; \x7d") ++ "" :: middle ++ "\x7d" ::
      if several then (List.range group.2.length).map fun k => "#undef " ++ ("s" ++ toString k) else []

/-- The definitions of a computation are lines. -/
theorem ReadFrom.oneLine_lines {p : Program} {c : Computation} (h : c.ReadFrom p)
    (hp : ∀ s ∈ p.body, s.Proper) (hn : ∀ s ∈ p.body, ∀ n ∈ s.identifiers, IsName n)
    {texts : List String} (ht : cTextOfBody c.body = .ok texts) :
    ∀ line ∈ lines c.space.iterators c.fields.writtenScalars 0 texts, OneLine line := by
  obtain ⟨header, hheader, id, free, hspace⟩ := h.header
  have hlegible := Space.legible_of_spaceFrom? (hp header hheader) hspace
  have hiterators : ∀ i ∈ c.space.iterators, OneLine i := fun i hi =>
    .of_isName (hlegible.iterators i hi)
  have hpointers : ∀ n ∈ c.fields.writtenScalars, OneLine n := by
    intro n hmem
    obtain ⟨s, hs, hmem⟩ := h.pointer_mem_identifiers hmem
    exact .of_isName (hn s hs n hmem)
  rw [lines, List.forall_mem_map]
  intro t hmem
  obtain ⟨s, hs, htext⟩ := exists_stmt_of_mem ht (List.fst_mem_of_mem_zipIdx hmem)
  exact .define t.2 hiterators hpointers ((hp s (h.body s hs)).oneLine htext)

/-- A body with a field has a statement. -/
theorem ReadFrom.body_ne_nil {p : Program} {c : Computation} (h : c.ReadFrom p) : c.body ≠ [] := by
  intro hnil
  have hfields := h.fields
  rw [hnil] at hfields
  exact h.fields_ne_nil (Except.ok.inj hfields).symm

/-- A unit and its request are made of what the computation was read off. -/
theorem ReadFrom.madeOf {p : Program} {c : Computation} (h : c.ReadFrom p)
    {group : Stmt × List Stmt} (hgroup : c.ReadOff group) (hp : ∀ s ∈ p.body, s.Proper)
    (hn : ∀ s ∈ p.body, ∀ n ∈ s.identifiers, IsName n) {engine : Engine} {config : Config}
    {several : Bool} {unit : String} (hunit : c.unit engine config several = .ok unit) :
    ∃ space fields texts middle,
      MadeOf several group (c.request config, unit) space fields texts middle := by
  obtain ⟨header, body⟩ := group
  obtain ⟨⟨id, free, hspace⟩, hbody, hfields, -⟩ := hgroup
  cases hbody
  obtain ⟨defines, answer, hdefines, -, rfl⟩ := unit_eq_ok_iff.mp hunit
  obtain ⟨texts, htexts, rfl⟩ := definesFrom_eq_ok_iff.mp hdefines
  have hall := cTextOfBody_eq_ok_iff.mp htexts
  have hne := h.body_ne_nil
  have hlines : lines c.space.iterators c.fields.writtenScalars 0 texts ≠ [] := by
    apply List.ne_nil_of_length_pos
    rw [lines, List.length_map, List.length_zipIdx, ← hall.length_eq]
    exact List.length_pos_iff.mpr hne
  obtain ⟨middle, hmiddle⟩ :=
    linesOf_assemble config several c answer hlines (h.oneLine_lines hp hn htexts)
  -- read alone, the header describes a space that differs at most in the identities of relations
  obtain ⟨space, free, hspace, hagrees⟩ := Stmt.exists_spaceFrom? hspace 0
  refine ⟨space, c.fields, texts, middle, ?_, ?_, hne, hall, ?_, ?_⟩
  · rw [Space.ofStmt_eq_ok_iff, Stmt.space?_eq_map, hspace, Option.map_some]
  · rw [Fields.ofBody_eq_ok_iff, hagrees.scope]
    exact Fields.ofBody_eq_ok_iff.mp hfields
  · have hmax : max c.body.length 1 = c.body.length :=
      Nat.max_eq_left (List.length_pos_iff.mpr hne)
    rw [hagrees.name, hagrees.iterators]
    simp only [request, Request.single, Schedule.ofBody, hmax]
    rfl
  · rw [hagrees.iterators]
    exact hmiddle

end Computation

theorem Program.isName_of_parse {source : String} {p : Program} (h : parse source = .ok p) :
    ∀ s ∈ p.body, ∀ n ∈ s.identifiers, IsName n := by
  obtain ⟨ts, hts, hids⟩ := exists_identifier h
  intro s hs n hn
  obtain ⟨t, ht, hkind, rfl⟩ := hids s hs n hn
  exact (spelled_of_mem_tokens hts ht).1 hkind

/-- Two relations between lists, one behind the other. -/
theorem forall₂_zip_map {α β γ δ : Type} {R : α → β → Prop} {S : β → γ → Prop}
    {T : α → δ × γ → Prop} {f : β → δ} {as : List α} {bs : List β} {cs : List γ}
    (hR : List.Forall₂ R as bs) (hS : List.Forall₂ S bs cs)
    (h : ∀ a, ∀ b ∈ bs, ∀ c, R a b → S b c → T a (f b, c)) :
    List.Forall₂ T as ((bs.map f).zip cs) := by
  induction hR generalizing cs with
  | nil => exact .nil
  | cons hab _ ih =>
    obtain ⟨hhead, htail⟩ := List.forall_mem_cons.mp (fun b hb a => h a b hb)
    cases hS with
    | cons hbc hS => exact .cons (hhead _ _ hab hbc) (ih hS fun a b hb => htail b hb a)

/-- No statement is lost, repeated or moved between the source and the code. The program is a list of
headers, each with the statements up to the next one. These give the units in order, and in each unit
the definitions, the schedules and, if there are several units, the lines at its end are those of the
statements in order. -/
theorem compile_units_follow_statements {source : String} {engines : Nat → Engine}
    {config : Config} {text : String} (h : compile source engines config = .ok text) :
    ∃ p groups cs made, Program.parse source = .ok p ∧
      p.body = groups.flatMap (fun g => g.1 :: g.2) ∧
      (∀ g ∈ groups, g.1.isHeader ∧ ∀ s ∈ g.2, s.isHeader = false) ∧
      (lower source).result = .ok cs ∧
      Computation.requestsFrom engines config 0 cs = made.map Prod.fst ∧
      text = "\n\n".intercalate (made.map Prod.snd) ∧
      List.Forall₂ (fun g m => ∃ space fields texts middle,
        Computation.MadeOf (1 < groups.length) g m space fields texts middle) groups made := by
  obtain ⟨cs, units, hcs, hunits, rfl⟩ := compile_eq_ok_iff.mp h
  obtain ⟨p, hp, hread⟩ := Computation.exists_readFrom hcs
  obtain ⟨_, groups, free, hp', hgroup, -, hof⟩ := lower_eq_ok_iff.mp hcs
  cases hp.symm.trans hp'
  have hgroups := Computation.forall₂_readOff hof
  have hengines := Computation.exists_engine_of_unitsFrom hunits
  have hheaders := (Computation.isHeader_group p.body).2
  have hbody := Computation.group_eq p.body
  rw [hgroup] at hheaders hbody
  have hlength : (cs.map (Computation.request config)).length = units.length := by
    rw [List.length_map, hengines.length_eq]
  refine ⟨p, groups, cs, (cs.map (Computation.request config)).zip units, hp, hbody.symm, hheaders,
    hcs, ?_, ?_, ?_⟩
  · rw [List.map_fst_zip hlength.le, Computation.requestsFrom_of_unitsFrom hunits]
  · rw [List.map_snd_zip hlength.ge]
  · apply forall₂_zip_map hgroups hengines
    rintro g c hc unit hoff ⟨engine, hunit⟩
    rw [← hgroups.length_eq] at hunit
    exact (hread c hc).madeOf hoff (Program.proper_of_parse hp) (Program.isName_of_parse hp) hunit

/-- Two headers, with two statements behind the first, one of them on two lines, and one behind the
second. -/
def twoUnitsSource : String :=
  "s = \x7b[i, j]: 0 <= i < n ^ i <= j < n\x7d\nt += a[i, (j +\n 1)]\nb[i] = t\n" ++
    "u = \x7b[k]: 0 <= k < m\x7d\nb[k] **= 2"

/-- The lines of its code. -/
def twoUnitsLines : List String :=
  ["#define s0(i, j) \x7b (*t) += a[(i), (j) + 1]; \x7d", "#define s1(i, j) \x7b b[(i)] = (*t); \x7d", "",
    "void s(const int n, float *t, const float *a, float *b) \x7b", "  int t2, t4;", "loops", "\x7d",
    "#undef s0", "#undef s1", "",
    "#define s0(k) \x7b b[(k)] = pow(b[(k)], 2); \x7d", "", "void u(const int m, float *b) \x7b",
    "  int t2;", "loops", "\x7d", "#undef s0"]

theorem compile_units_follow_statements_two :
    ∃ text, compile twoUnitsSource (fun _ _ => "loops") .standard = .ok text ∧
      text = "\n".intercalate twoUnitsLines ∧
      ∃ p groups cs made, Program.parse twoUnitsSource = .ok p ∧
        p.body = groups.flatMap (fun g => g.1 :: g.2) ∧
        (∀ g ∈ groups, g.1.isHeader ∧ ∀ s ∈ g.2, s.isHeader = false) ∧
        (lower twoUnitsSource).result = .ok cs ∧
        Computation.requestsFrom (fun _ _ => "loops") .standard 0 cs = made.map Prod.fst ∧
        text = "\n\n".intercalate (made.map Prod.snd) ∧
        List.Forall₂ (fun g m => ∃ space fields texts middle,
          Computation.MadeOf (1 < groups.length) g m space fields texts middle) groups made := by
  have htext : (compile twoUnitsSource (fun _ _ => "loops") .standard).toOption.any fun text =>
      text = "\n".intercalate twoUnitsLines := by
    decide +kernel
  obtain ⟨text, h, htext⟩ := exists_ok_of_any htext
  exact ⟨text, h, of_decide_eq_true htext, compile_units_follow_statements h⟩

end LoopNest
