import LoopNest.Proofs.ComputationReading
import LoopNest.Proofs.ConstantCollectors
import LoopNest.Proofs.EngineRoundTrip
import LoopNest.Proofs.StatementTokens
import LoopNest.Proofs.UnitTexts

/-!
# Units declare their names

The names in the definitions of a unit come from the trees of its statements, its parameters from the
relations of its space and from what the statements mention. Nothing falls between the two: a name
that is not called is an iterator, which is a formal of the definition, or it is declared by a
parameter. The same holds of the constants in the text that the engine is asked with.
-/

namespace LoopNest

open Scan

/-! ### The names in the texts for the engine -/

namespace Scan

def identifier? (w : Word) : Option String :=
  if w.1 = .identifier then some w.2 else none

def naming : Naming Word :=
  ⟨identifier?, fun w => w.1 = .left .round, fun _ => True⟩

theorem inert_of_ne {w : Word} (h : w.1 ≠ .identifier) : naming.Inert w :=
  ⟨if_neg h, trivial⟩

theorem shows_name {P : String → Prop} {name : String} (h : IsName name) (hp : P name) :
    lexer.Shows naming P name := by
  refine ⟨[(.identifier, name)], spells_name h, fun _ _ => trivial, ?_⟩
  simpa [Naming.operands, naming, identifier?] using hp

end Scan

namespace Term

variable {P : String → Prop}

theorem shows_literal {text : String} (h : IsLiteral text) : lexer.Shows naming P text := by
  rcases h with h | ⟨digits, rfl, h⟩
  · obtain ⟨kind, hkind, hspells⟩ := spells_numeral h
    refine ⟨_, hspells, .cons (inert_of_ne ?_) Naming.clean_nil⟩
    rcases hkind with rfl | rfl <;> simp
  · obtain ⟨kind, hkind, hspells⟩ := spells_negative h
    refine ⟨_, hspells, .cons (inert_of_ne (by simp)) (.cons (inert_of_ne ?_) Naming.clean_nil)⟩
    rcases hkind with rfl | rfl <;> simp

theorem shows_group {text : String} (needed : Bool) (h : lexer.Shows naming P text) :
    lexer.Shows naming P (Term.group needed text) := by
  cases needed with
  | false => exact h
  | true => exact h.enclosed (encloses .round) (inert_of_ne (by simp)) (inert_of_ne (by simp))

mutual

/-- The names in the text of a term are its symbols. -/
theorem shows_text : ∀ t : Term, t.Spelled → (∀ n ∈ t.symbols, P n) → lexer.Shows naming P t.text
  | iterator name, h, hp => by
    cases h with
    | iterator h => exact shows_name h (hp name (by simp [symbols]))
  | constant name, h, hp => by
    cases h with
    | constant h => exact shows_name h (hp name (by simp [symbols]))
  | literal text, h, _ => by
    cases h with
    | literal h => exact shows_literal h
  | apply function args, h, hp => by
    cases h with
    | apply hf h =>
      have hargs := shows_textAll args h (by simpa [symbols] using hp)
      exact .called (spells_name hf) trivial (encloses .round) (inert_of_ne (by simp))
        (by simp [naming]) (inert_of_ne (by simp))
        (.intercalate separates_comma (inert_of_ne (by simp)) hargs)
  | arith left op right, h, hp => by
    cases h with
    | arith _ hl hr =>
      rw [symbols, List.forall_mem_append] at hp
      exact (shows_group _ (shows_text left hl hp.1)).operation (separates_arith op)
        (inert_of_ne (by simp)) (shows_group _ (shows_text right hr hp.2))

theorem shows_textAll : ∀ ts : List Term, (∀ t ∈ ts, t.Spelled) → (∀ n ∈ symbolsAll ts, P n) →
    ∀ text ∈ textAll ts, lexer.Shows naming P text
  | [], _, _ => by simp [textAll]
  | t :: ts, h, hp => by
    obtain ⟨ht, hts⟩ := List.forall_mem_cons.mp h
    rw [symbolsAll, List.forall_mem_append] at hp
    rw [textAll]
    exact List.forall_mem_cons.mpr ⟨shows_text t ht hp.1, shows_textAll ts hts hp.2⟩

end

mutual

/-- The symbols of a term are iterators or constants. -/
theorem mem_symbols {iterators : List String} {n : String} :
    ∀ t : Term, t.Resolved iterators → n ∈ t.symbols → n ∈ iterators ∨ n ∈ t.constants
  | iterator name, h, hn => by
    rw [symbols, List.mem_singleton] at hn
    exact .inl (hn ▸ h)
  | constant name, _, hn => .inr hn
  | literal text, _, hn => by simp [symbols] at hn
  | apply function args, h, hn => mem_symbolsAll args h hn
  | arith left op right, h, hn => by
    rw [symbols, List.mem_append] at hn
    rw [constants, List.mem_append]
    rcases hn with hn | hn
    · exact (mem_symbols left h.1 hn).imp_right .inl
    · exact (mem_symbols right h.2 hn).imp_right .inr

theorem mem_symbolsAll {iterators : List String} {n : String} :
    ∀ ts : List Term, AllResolved iterators ts → n ∈ symbolsAll ts →
      n ∈ iterators ∨ n ∈ constantsAll ts
  | [], _, hn => by simp [symbolsAll] at hn
  | t :: ts, h, hn => by
    rw [symbolsAll, List.mem_append] at hn
    rw [constantsAll, List.mem_append]
    rcases hn with hn | hn
    · exact (mem_symbols t h.1 hn).imp_right .inl
    · exact (mem_symbolsAll ts h.2 hn).imp_right .inr

end

theorem mem_constantsAll {ts : List Term} {n : String} :
    n ∈ constantsAll ts ↔ ∃ t ∈ ts, n ∈ t.constants := by
  induction ts with
  | nil => simp [constantsAll]
  | cons t ts ih => simp [constantsAll, ih]

end Term

theorem Relation.shows_text {P : String → Prop} {r : Relation}
    (h : ∀ t ∈ r.writtenTerms, lexer.Shows naming P t.text) : lexer.Shows naming P r.text := by
  have hleft := h r.left (by simp [writtenTerms])
  have hright := h r.right (by simp [writtenTerms])
  cases hmid : r.middle? with
  | none =>
    have hshows := hleft.operation (separates_compare r.leftOp) (inert_of_ne (by simp)) hright
    simpa [text, hmid] using hshows
  | some middle =>
    obtain ⟨mid, op⟩ := middle
    have hcenter := h mid (by simp [writtenTerms, hmid])
    have hshows := hleft.operation (separates_compare r.leftOp) (inert_of_ne (by simp))
      (hcenter.operation (separates_compare op) (inert_of_ne (by simp)) hright)
    simpa [text, hmid, String.append_assoc] using hshows

namespace Space

/-- The relations of a space in its engine text, with what stands before them. -/
theorem shows_braced {P : String → Prop} {s : Space} (hi : ∀ i ∈ s.iterators, IsName i ∧ P i)
    (hr : ∀ r ∈ s.relations, lexer.Shows naming P r.text) :
    ∃ text, s.engineText = s.name ++ (" " ++ "=" ++ " ") ++ text ∧ lexer.Shows naming P text := by
  have hcommas : lexer.Shows naming P (", ".intercalate s.iterators) :=
    .intercalate separates_comma (inert_of_ne (by simp)) fun i h => shows_name (hi i h).1 (hi i h).2
  have hkeys := hcommas.enclosed (encloses .square) (inert_of_ne (by simp)) (inert_of_ne (by simp))
  by_cases hne : s.relations = []
  · refine ⟨_, ?_, hkeys.enclosed (encloses .curly) (inert_of_ne (by simp)) (inert_of_ne (by simp))⟩
    rw [← String.toList_inj]
    simp [engineText_eq_text, text, hne, Bracket.leftSymbol, Bracket.rightSymbol]
  · have hconjunction : lexer.Shows naming P
        (" && ".intercalate (s.relations.map Relation.text)) :=
      .intercalate separates_conjunction (inert_of_ne (by simp)) (by simpa using hr)
    have hentry := hkeys.separated separates_colon (inert_of_ne (by simp)) hconjunction
    exact ⟨_, engineText_eq hne,
      hentry.enclosed (encloses .curly) (inert_of_ne (by simp)) (inert_of_ne (by simp))⟩

/-- The names in the engine text of a space, its own apart, are iterators and written constants. -/
theorem exists_reads_engineText {s : Space} (h : s.Legible) :
    ∃ ws, lexer.Reads 0 s.engineText.toList ((.identifier, s.name) :: ws) 0 [] ∧
      ∀ n ∈ naming.operands ws, n ∈ s.iterators ∨ n ∈ s.writtenConstants := by
  have hrelations : ∀ r ∈ s.relations,
      lexer.Shows naming (fun n => n ∈ s.iterators ∨ n ∈ s.writtenConstants) r.text := by
    intro r hr
    refine Relation.shows_text fun t ht => ?_
    obtain ⟨hspelled, hresolved⟩ := (h.relations r hr).written t ht
    refine t.shows_text hspelled fun n hn => ?_
    refine (t.mem_symbols hresolved hn).imp_right fun hn => ?_
    rw [writtenConstants_eq_distinct, Names.mem_distinct]
    exact List.mem_flatMap.mpr ⟨r, hr, Term.mem_constantsAll.mpr ⟨t, ht, hn⟩⟩
  obtain ⟨text, htext, ws, hspells, hclean⟩ :=
    shows_braced (fun i hi => ⟨h.iterators i hi, .inl hi⟩) hrelations
  have hequal : naming.Inert (Token.Kind.equal, "=") := inert_of_ne (by simp)
  have hreads := (spells_name h.name).separated separates_equal hspells 0 [] Lexer.bounded_nil
  rw [← htext, List.append_nil] at hreads
  exact ⟨_, hreads, (hclean.cons hequal).operands⟩

/-- A space that can be written shows all its constants. -/
theorem Legible.writtenConstants_eq {s : Space} (h : s.Legible) :
    s.writtenConstants = s.constants := by
  have hwhole : s.Whole := fun r hr => (h.relations r hr).2
  rw [writtenConstants, hwhole.fresh_render, constants_eq_eraseDups]

end Space

/-! ### The names in the definitions -/

/-- The parameters that declare a name. -/
def Config.declarations (config : Config) (name : String) : List String :=
  ["const " ++ config.indexType ++ " " ++ name, "const " ++ config.elemType ++ " " ++ name,
    "const " ++ config.elemType ++ " *" ++ name, config.elemType ++ " *" ++ name]

theorem Field.parameter_mem_declarations (config : Config) (f : Field) :
    f.parameter config ∈ config.declarations f.name := by
  unfold Field.parameter
  split
  · split <;> simp [Config.declarations]
  · simp [Config.declarations]

/-- A program whose identifiers are names of word characters. -/
def Program.Wordy (p : Program) : Prop :=
  ∀ s ∈ p.body, ∀ n ∈ s.identifiers, IsName n ∧ IsWordy n

namespace Computation

def parameters (config : Config) (c : Computation) : List String :=
  config.parameters c.space.writtenConstants c.fields

/-- A name that a definition of a unit may use: a formal, or what a parameter declares. -/
def Knows (config : Config) (c : Computation) (name : String) : Prop :=
  name ∈ c.space.iterators ∨ ∃ p ∈ c.parameters config, p ∈ config.declarations name

/-- The text behind the formals of a definition. -/
def replacement (c : Computation) (statement : String) : String :=
  "\x7b " ++ Define.protectIterators c.space.iterators
    (Define.dereference c.fields.writtenScalars statement) ++ "; \x7d"

theorem line_eq (c : Computation) (k : Nat) (statement : String) :
    Define.line k c.space.iterators c.fields.writtenScalars statement =
      "#define " ++ Define.name k ++ "(" ++ ", ".intercalate c.space.iterators ++ ") " ++
        c.replacement statement := by
  rw [← String.toList_inj]
  simp [Define.line, replacement]

theorem lines_eq (c : Computation) (k : Nat) (texts : List String) :
    lines c.space.iterators c.fields.writtenScalars k texts =
      (texts.zipIdx k).map fun t => "#define " ++ Define.name t.2 ++ "(" ++
        ", ".intercalate c.space.iterators ++ ") " ++ c.replacement t.1 :=
  List.map_congr_left fun t _ => c.line_eq t.2 t.1

theorem knows_constant {config : Config} {c : Computation} (h : c.space.Legible) {n : String}
    (hn : n ∈ c.space.constants) : c.Knows config n := by
  rw [← h.writtenConstants_eq] at hn
  refine .inr ⟨_, List.mem_append_left _ (List.mem_map_of_mem hn), ?_⟩
  simp [Config.declarations]

theorem knows_field {config : Config} {c : Computation} {f : Field} (hf : f ∈ c.fields) :
    c.Knows config f.name :=
  .inr ⟨_, List.mem_append_right _ (List.mem_map_of_mem hf), f.parameter_mem_declarations config⟩

theorem isWord_of_isWordy {name : String} (h : IsName name) (hw : IsWordy name) :
    Text.IsWord name.toList := by
  obtain ⟨c, cs, htext, hc, -⟩ := h
  exact ⟨c, cs, htext, hc, hw⟩

/-- The fields of a computation are those that its statements mention. -/
theorem ReadFrom.exists_field {p : Program} {c : Computation} (h : c.ReadFrom p) {n : String} :
    (∃ f ∈ c.fields, f.name = n) ↔
      ∃ s ∈ c.body, ∃ m ∈ s.mentions c.space.scope, m.name = n := by
  obtain ⟨-, hfields⟩ := Fields.ofBody_eq_ok_iff.mp h.fields
  rw [Fields.after_eq_grouped] at hfields
  have hnames : n ∈ c.fields.map Field.name ↔
      n ∈ (c.body.flatMap (Stmt.mentions c.space.scope)).map Mention.name := by
    rw [hfields, Fields.name_mem_grouped]
  constructor
  · rintro ⟨f, hf, rfl⟩
    obtain ⟨m, hm, hname⟩ := List.mem_map.mp (hnames.mp (List.mem_map_of_mem hf))
    obtain ⟨s, hs, hm⟩ := List.mem_flatMap.mp hm
    exact ⟨s, hs, m, hm, hname⟩
  · rintro ⟨s, hs, m, hm, rfl⟩
    have hmem := List.mem_map_of_mem (f := Mention.name) (List.mem_flatMap.mpr ⟨s, hs, hm⟩)
    exact List.mem_map.mp (hnames.mpr hmem)

theorem ReadFrom.isWord_iterator {p : Program} {c : Computation} (h : c.ReadFrom p) (hw : p.Wordy) :
    ∀ i ∈ c.space.iterators, Text.IsWord i.toList := by
  intro i hi
  obtain ⟨s, hs, id, free, hspace⟩ := h.header
  obtain ⟨hname, hwordy⟩ := hw s hs i (Stmt.mem_identifiers_of_spaceFrom? hspace i hi)
  exact isWord_of_isWordy hname hwordy

/-- What is passed as a pointer is named in the program. -/
theorem ReadFrom.pointer_mem_identifiers {p : Program} {c : Computation} (h : c.ReadFrom p)
    {n : String} (hn : n ∈ c.fields.writtenScalars) : ∃ s ∈ p.body, n ∈ s.identifiers := by
  obtain ⟨f, hf, rfl⟩ := List.mem_map.mp hn
  obtain ⟨s, hs, m, hm, hname⟩ := h.exists_field.mp ⟨f, (List.mem_filter.mp hf).1, rfl⟩
  exact ⟨s, h.body s hs, hname ▸ Stmt.mention_mem hm⟩

theorem ReadFrom.isWord_pointer {p : Program} {c : Computation} (h : c.ReadFrom p) (hw : p.Wordy) :
    ∀ i ∈ c.fields.writtenScalars, Text.IsWord i.toList := by
  intro i hi
  obtain ⟨s, hs, hmem⟩ := h.pointer_mem_identifiers hi
  obtain ⟨hname, hwordy⟩ := hw s hs i hmem
  exact isWord_of_isWordy hname hwordy

/-- The tokens behind the formals of a definition have no operands but formals and names that a
parameter declares. -/
theorem ReadFrom.exists_reads_replacement {p : Program} {c : Computation} (h : c.ReadFrom p)
    (hp : ∀ s ∈ p.body, s.Proper) (hw : p.Wordy) (config : Config) {s : Stmt} (hs : s ∈ c.body)
    {text : String} (ht : s.cText = .ok text) :
    ∃ ws, C.lexer.Reads () (c.replacement text).toList ws () [] ∧
      ∀ n ∈ C.naming.operands ws, c.Knows config n := by
  obtain ⟨header, hheader, id, free, hspace⟩ := h.header
  have hlegible := Space.legible_of_spaceFrom? (hp header hheader) hspace
  obtain ⟨hreadable, -⟩ := Fields.ofBody_eq_ok_iff.mp h.fields
  have hmentions : ∀ m ∈ s.mentions c.space.scope, c.Knows config m.name := by
    intro m hm
    obtain ⟨f, hf, hname⟩ := h.exists_field.mpr ⟨s, hs, m, hm, rfl⟩
    exact hname ▸ knows_field hf
  have hiterators : ∀ n ∈ c.space.scope.iterators, c.Knows config n := fun n hn => .inl hn
  have hconstants : ∀ n ∈ c.space.scope.constants, c.Knows config n :=
    fun n hn => knows_constant hlegible hn
  have hpointers : ∀ n ∈ c.fields.writtenScalars, c.Knows config n := by
    intro n hn
    obtain ⟨f, hf, rfl⟩ := List.mem_map.mp hn
    exact knows_field (List.mem_filter.mp hf).1
  have hspelt := (hp s (h.body s hs)).spelt_cText hiterators hconstants
    (List.all_eq_true.mp hreadable s hs) (fun n hn => (hw s (h.body s hs) n hn).2) hmentions ht
  obtain ⟨ws, hreads, hclean⟩ := C.exists_reads_definition
    (fun n hn => ⟨h.isWord_iterator hw n hn, hiterators n hn⟩)
    (fun n hn => ⟨h.isWord_pointer hw n hn, hpointers n hn⟩) hspelt.shows
  exact ⟨ws, hreads, hclean.operands⟩

/-- A unit all of whose names are declared. Its definitions have the iterators as formals, and the
engine is asked about its relations. -/
structure IsClosed (config : Config) (c : Computation) (unit : String) : Prop where
  defined : ∃ texts rest, cTextOfBody c.body = .ok texts ∧
    unit = "\n".intercalate (texts.zipIdx.map fun t => "#define " ++ Define.name t.2 ++ "(" ++
        ", ".intercalate c.space.iterators ++ ") " ++ c.replacement t.1) ++
      "\n\nvoid " ++ c.space.name ++ "(" ++ ", ".intercalate (c.parameters config) ++
      ") \x7b\n" ++ rest ∧
    ∀ text ∈ texts, ∃ ws, C.lexer.Reads () (c.replacement text).toList ws () [] ∧
      ∀ n ∈ C.naming.operands ws, c.Knows config n
  requested : ∃ ws relation, (c.request config).relations = [(c.space.name, relation)] ∧
    lexer.Reads 0 relation.toList ((.identifier, c.space.name) :: ws) 0 [] ∧
    ∀ n ∈ naming.operands ws, n ∈ c.space.iterators ∨
      "const " ++ config.indexType ++ " " ++ n ∈ c.parameters config

theorem ReadFrom.isClosed {p : Program} {c : Computation} (h : c.ReadFrom p)
    (hp : ∀ s ∈ p.body, s.Proper) (hw : p.Wordy) {engine : Engine} {config : Config} {undef : Bool}
    {unit : String} (hunit : c.unit engine config undef = .ok unit) : c.IsClosed config unit := by
  obtain ⟨defines, answer, hdefines, -, rfl⟩ := unit_eq_ok_iff.mp hunit
  obtain ⟨texts, htexts, rfl⟩ := definesFrom_eq_ok_iff.mp hdefines
  constructor
  · refine ⟨texts, declaration config c ++ loops config answer ++ "\n\x7d" ++
      if undef then undefs c else "", htexts, ?_, ?_⟩
    · rw [assemble, lines_eq]
      simp only [parameters, String.append_assoc]
    · intro text htext
      obtain ⟨s, hs, ht⟩ := exists_stmt_of_mem htexts htext
      exact h.exists_reads_replacement hp hw config hs ht
  · obtain ⟨header, hheader, id, free, hspace⟩ := h.header
    have hlegible := Space.legible_of_spaceFrom? (hp header hheader) hspace
    obtain ⟨ws, hreads, hnames⟩ := Space.exists_reads_engineText hlegible
    refine ⟨ws, _, rfl, hreads, fun n hn => (hnames n hn).imp_right fun hn => ?_⟩
    exact List.mem_append_left _ (List.mem_map_of_mem hn)

end Computation

theorem Program.wordy_of_parse {source : String} {p : Program} (h : parse source = .ok p)
    (hw : ∀ ts, Scan.tokens source = .ok ts → ∀ t ∈ ts, t.kind = .identifier → IsWordy t.lexeme) :
    p.Wordy := by
  obtain ⟨ts, hts, hids⟩ := exists_identifier h
  intro s hs n hn
  obtain ⟨t, ht, hkind, rfl⟩ := hids s hs n hn
  exact ⟨(spelled_of_mem_tokens hts ht).1 hkind, hw ts hts t ht hkind⟩

/-- Units are closed: an operand in a definition is a formal or declared by a parameter, and the
constants that the engine is asked with are parameters. -/
theorem compile_units_closed {source : String} {engines : Nat → Engine} {config : Config}
    {text : String} (h : compile source engines config = .ok text)
    (hw : ∀ ts, Scan.tokens source = .ok ts → ∀ t ∈ ts, t.kind = .identifier → IsWordy t.lexeme) :
    ∃ cs units, (lower source).result = .ok cs ∧ text = "\n\n".intercalate units ∧
      Computation.requestsFrom engines config 0 cs = cs.map (Computation.request config) ∧
      List.Forall₂ (Computation.IsClosed config) cs units := by
  obtain ⟨cs, units, hcs, hunits, rfl⟩ := compile_eq_ok_iff.mp h
  obtain ⟨p, hp, hread⟩ := Computation.exists_readFrom hcs
  have hproper := Program.proper_of_parse hp
  have hwordy := Program.wordy_of_parse hp hw
  refine ⟨cs, units, hcs, rfl, Computation.requestsFrom_of_unitsFrom hunits, ?_⟩
  have hengines := Computation.exists_engine_of_unitsFrom hunits
  refine List.forall₂_iff_zip.mpr ⟨hengines.length_eq, fun {c unit} hmem => ?_⟩
  obtain ⟨engine, hunit⟩ := (List.forall₂_iff_zip.mp hengines).2 hmem
  exact (hread c (List.of_mem_zip hmem).1).isClosed hproper hwordy hunit

/-- A scalar that is written, an array, a constant and a function all occur in one statement. -/
def powerSource : String :=
  "s = \x7b[i]: 0 <= i < n\x7d\nt += w * f(a[i + 1], n) ** 2e0"

theorem compile_units_closed_power :
    ∃ text, compile powerSource (fun _ _ => "loops") .standard = .ok text ∧
      text = "#define s0(i) \x7b (*t) += w * pow(f(a[(i) + 1], n), 2e0); \x7d\n\n" ++
        "void s(const int n, float *t, const float w, const float *a) \x7b\n  int t2;\nloops\n\x7d" ∧
      (∀ ts, Scan.tokens powerSource = .ok ts →
        ∀ t ∈ ts, t.kind = .identifier → IsWordy t.lexeme) ∧
      ∃ cs units, (lower powerSource).result = .ok cs ∧ text = "\n\n".intercalate units ∧
        Computation.requestsFrom (fun _ _ => "loops") .standard 0 cs =
          cs.map (Computation.request .standard) ∧
        List.Forall₂ (Computation.IsClosed .standard) cs units := by
  have htext : (compile powerSource (fun _ _ => "loops") .standard).toOption.any fun text =>
      text = "#define s0(i) \x7b (*t) += w * pow(f(a[(i) + 1], n), 2e0); \x7d\n\n" ++
        "void s(const int n, float *t, const float w, const float *a) \x7b\n  int t2;\nloops\n\x7d" := by
    decide +kernel
  have hcheck : (Scan.tokens powerSource).toOption.all fun ts => ts.all fun t =>
      t.kind ≠ .identifier || t.lexeme.toList.all Text.isWordChar := by
    decide +kernel
  obtain ⟨text, h, htext⟩ := exists_ok_of_any htext
  have hw : ∀ ts, Scan.tokens powerSource = .ok ts →
      ∀ t ∈ ts, t.kind = .identifier → IsWordy t.lexeme := by
    intro ts hts t ht hkind
    rw [hts] at hcheck
    have hword := List.all_eq_true.mp hcheck t ht
    simp only [hkind, ne_eq, not_true, decide_false, Bool.false_or] at hword
    exact List.all_eq_true.mp hword
  exact ⟨text, h, of_decide_eq_true htext, hw, compile_units_closed h hw⟩

end LoopNest
