import LoopNest.Code.Unit
import LoopNest.Proofs.SetReading

/-!
# The script of a space

A script is read without the code that writes it: the symbols of its first line if that is a
declaration, and the definition between its first braces. The set in the request of a space is the
space again, so these are the symbols and the rewritten conditions of the space.
-/

namespace LoopNest

open Script

namespace Script

/-! ### Reading a script -/

/-- The symbols that a script declares. A script without a declaration begins with a definition. -/
def symbolsIn (script : String) : List (List Char) :=
  let statement := script.toList.takeWhile (· != ';')
  if "symbolic ".toList.isPrefixOf statement && !('\x7b' ∈ statement) then
    (List.splitOn ',' (statement.drop "symbolic ".length)).map Text.trim
  else []

/-- What stands between the braces of the first definition of a script. -/
def definitionIn (script : String) : List Char :=
  match Text.cutAt? '\x7b' script.toList with
  | none => []
  | some (_, behind) => behind.takeWhile (· != '\x7d')

/-- The line that declares symbols, if there are any. -/
def declarationText (symbols : List String) : List Char :=
  (if symbols.isEmpty then "" else "symbolic " ++ ", ".intercalate symbols ++ ";\n").toList

/-- The characters of symbols. -/
def isSymbolChar (c : Char) : Bool :=
  isWordRest c || c = '(' || c = ')'

theorem tight_of_isSymbolChar {symbol : List Char} (h : ∀ c ∈ symbol, isSymbolChar c) :
    Text.Tight symbol := by
  refine Text.tight_of_noBlank fun c hc => ?_
  have hsymbol := h c hc
  simp only [isSymbolChar, Bool.or_eq_true, decide_eq_true_eq] at hsymbol
  rcases hsymbol with (hword | rfl) | rfl
  · exact isBlank_of_isWordRest hword
  · decide
  · decide

section Declaration

variable {symbols : List String}
  (hsymbols : ∀ symbol ∈ symbols, ∀ c ∈ symbol.toList, isSymbolChar c)
include hsymbols

theorem not_mem_intercalate_symbols {c : Char} (hsep : c ∉ [',', ' ']) (hc : isSymbolChar c = false) :
    c ∉ (", ".intercalate symbols).toList := by
  rw [String.toList_intercalate]
  intro hmem
  rcases of_mem_intercalate hmem with hmem | ⟨text, htext, hmem⟩
  · exact hsep hmem
  · obtain ⟨symbol, hsymbol, rfl⟩ := List.mem_map.mp htext
    rw [hsymbols symbol hsymbol c hmem] at hc
    cases hc

theorem map_trim_splitOn_symbols (hne : symbols ≠ []) :
    (List.splitOn ',' (", ".intercalate symbols).toList).map Text.trim =
      symbols.map String.toList := by
  rw [String.toList_intercalate]
  refine map_trim_splitOn isBlank_space (by simpa using hne) (List.forall_mem_map.mpr ?_)
  intro symbol hsymbol
  refine ⟨fun hmem => ?_, tight_of_isSymbolChar (hsymbols symbol hsymbol)⟩
  exact absurd (hsymbols symbol hsymbol _ hmem) (by decide)

/-- The declared symbols are read back, if a definition follows. -/
theorem symbolsIn_eq {script : String} {name : List Char} (hname : IsAsciiWord name) {rest : List Char}
    (hscript : script.toList =
      declarationText symbols ++ (name ++ ' ' :: ':' :: '=' :: ' ' :: '\x7b' :: rest)) :
    symbolsIn script = symbols.map String.toList := by
  by_cases hne : symbols = []
  · subst hne
    have hbrace : '\x7b' ∈ script.toList.takeWhile (· != ';') := by
      rw [hscript]
      change _ ∈ (name ++ ' ' :: ':' :: '=' :: ' ' :: '\x7b' :: rest).takeWhile (· != ';')
      rw [List.takeWhile_append_of_pos (Text.bne_of_not_mem (hname.not_mem rfl))]
      simp
    simp [symbolsIn, hbrace]
  · have hdeclaration : script.toList = "symbolic ".toList ++ (", ".intercalate symbols).toList ++
        ';' :: '\n' :: (name ++ ' ' :: ':' :: '=' :: ' ' :: '\x7b' :: rest) := by
      rw [hscript, declarationText]
      simp [hne]
    have hstatement : script.toList.takeWhile (· != ';') =
        "symbolic ".toList ++ (", ".intercalate symbols).toList := by
      rw [hdeclaration, List.takeWhile_append_of_pos (Text.bne_of_not_mem ?_)]
      · simp
      · rw [List.mem_append, not_or]
        exact ⟨by decide, not_mem_intercalate_symbols hsymbols (by decide) rfl⟩
    have hbrace : '\x7b' ∉ "symbolic ".toList ++ (", ".intercalate symbols).toList := by
      rw [List.mem_append, not_or]
      exact ⟨by decide, not_mem_intercalate_symbols hsymbols (by decide) rfl⟩
    have hlength : "symbolic ".length = "symbolic ".toList.length := rfl
    unfold symbolsIn
    simp only [hstatement, hlength, List.drop_left]
    rw [if_pos, map_trim_splitOn_symbols hsymbols hne]
    simpa using hbrace

theorem definitionIn_eq {script : String} {name : List Char} (hname : IsAsciiWord name)
    {inside rest : List Char} (hinside : '\x7d' ∉ inside)
    (hscript : script.toList =
      declarationText symbols ++
        (name ++ ' ' :: ':' :: '=' :: ' ' :: '\x7b' :: (inside ++ '\x7d' :: rest))) :
    definitionIn script = inside := by
  have hbefore : '\x7b' ∉ declarationText symbols ++ name ++ [' ', ':', '=', ' '] := by
    rw [List.mem_append, List.mem_append, not_or, not_or]
    refine ⟨⟨?_, hname.not_mem rfl⟩, by decide⟩
    unfold declarationText
    split
    · exact List.not_mem_nil
    · simp only [String.toList_append, List.mem_append, not_or]
      exact ⟨⟨by decide, not_mem_intercalate_symbols hsymbols (by decide) rfl⟩, by decide⟩
  have hcut : script.toList = (declarationText symbols ++ name ++ [' ', ':', '=', ' ']) ++
      '\x7b' :: (inside ++ '\x7d' :: rest) := by
    rw [hscript]
    simp
  rw [definitionIn, hcut, Text.cutAt?_append hbefore]
  dsimp only
  rw [List.takeWhile_append_of_pos (Text.bne_of_not_mem hinside)]
  simp

end Declaration

end Script

namespace Space

/-! ### The script of a space -/

/-- The parts of the script of a space. -/
theorem exists_parts {c : Computation} (config : Config) (h : c.space.Plain) :
    ∃ lines arguments widest, parts (c.request config) =
      ⟨Names.distinct (constantsIn c.space.iterators c.space.emitted), c.space.variants,
        setLine c.space.name c.space.iterators c.space.emitted :: lines, arguments, widest⟩ := by
  have hrequest : parts (c.request config) =
      Parts.add (c.request config) ⟨[], [], [], [], []⟩ c.space.name := rfl
  have hfind : (c.request config).relations.find? c.space.name = some c.space.engineText := by
    simp [Computation.request, Request.single, Table.find?]
  rw [hrequest, Parts.add, hfind, Option.bind_some, ofText?_engineText h.delimited]
  simp only [tupledFrom_eq, callsOf_conditions h]
  exact ⟨_, _, _, rfl⟩

/-- The symbols that the script of a space declares. -/
def declared (s : Space) : List String :=
  Names.distinct (constantsIn s.iterators s.emitted) ++ s.variants.map Variant.declaration

/-- What the script of a space has between its first braces. -/
def definition (s : Space) : List Char :=
  '[' :: ([','].intercalate (s.iterators.map String.toList) ++ ']' ::
    (if s.emitted.isEmpty then [] else ' ' :: ':' :: ' ' :: s.emitted))

theorem toList_setLine (s : Space) :
    (setLine s.name s.iterators s.emitted).toList =
      s.name.toList ++ ' ' :: ':' :: '=' :: ' ' :: '\x7b' :: (s.definition ++ '\x7d' :: [';']) := by
  unfold setLine definition
  cases s.emitted <;> simp [String.toList_intercalate]

theorem exists_ofRequest {c : Computation} (config : Config) (h : c.space.Plain) :
    ∃ rest, (ofRequest (c.request config)).toList =
      declarationText c.space.declared ++ (c.space.name.toList ++
        ' ' :: ':' :: '=' :: ' ' :: '\x7b' :: (c.space.definition ++ '\x7d' :: rest)) := by
  obtain ⟨lines, arguments, widest, hparts⟩ := exists_parts config h
  unfold ofRequest
  rw [hparts]
  simp only [List.map_cons, String.join_cons, String.toList_append, toList_setLine,
    List.append_assoc, List.cons_append]
  exact ⟨_, rfl⟩

theorem isSymbolChar_declared {s : Space} (h : s.Plain) :
    ∀ symbol ∈ s.declared, ∀ c ∈ symbol.toList, isSymbolChar c := by
  have hword : ∀ {w : List Char}, IsAsciiWord w → ∀ c ∈ w, isSymbolChar c := by
    intro w hw c hc
    simp [isSymbolChar, hw.rest c hc]
  refine List.forall_mem_append.mpr ⟨fun symbol hsymbol => ?_, List.forall_mem_map.mpr ?_⟩
  · exact hword (isAsciiWord_of_mem_constantsIn (Names.mem_distinct.mp hsymbol))
  · intro v hv c hc
    have hname := (legal_of_mem_variants h hv).name
    simp only [Variant.declaration, String.toList_append, String.toList_ofList,
      List.mem_append] at hc
    rcases hc with ((hc | hc) | hc) | hc
    · exact hword hname c hc
    · rw [List.mem_singleton.mp hc]
      rfl
    · simp [isSymbolChar, isWordRest_of_isDigit (isDigit_of_mem_toString hc)]
    · rw [List.mem_singleton.mp hc]
      rfl

theorem not_mem_definition {s : Space} (h : s.Plain) : '\x7d' ∉ s.definition := by
  have hemitted : '\x7d' ∉ s.emitted := fun hmem =>
    absurd ((spans_emitted h).chars _ hmem) (by decide)
  have htuple : '\x7d' ∉ [','].intercalate (s.iterators.map String.toList) :=
    not_mem_tuple (by decide) (by decide) h.delimited.iterators
  unfold definition
  split <;> simp [htuple, hemitted]

/-- The symbols of the script of a space. -/
theorem symbolsIn_ofRequest {c : Computation} (config : Config) (h : c.space.Plain) :
    symbolsIn (ofRequest (c.request config)) = c.space.declared.map String.toList := by
  obtain ⟨rest, hscript⟩ := exists_ofRequest config h
  exact symbolsIn_eq (isSymbolChar_declared h) h.name hscript

/-- The definition of a space shows its iterators and the words of its emitted terms. -/
theorem usesFrom_definitionIn {c : Computation} (config : Config) (h : c.space.Plain) :
    usesFrom 0 (definitionIn (ofRequest (c.request config))) =
      Term.unapplied c.space.iterators ++ c.space.writtenTerms.flatMap (Term.uses c.space.variants) := by
  obtain ⟨rest, hscript⟩ := exists_ofRequest config h
  rw [definitionIn_eq (isSymbolChar_declared h) h.name (not_mem_definition h) hscript]
  have hemitted := (spans_emitted h).uses
  have htuple : UsesOf ([','].intercalate (c.space.iterators.map String.toList))
      (Term.unapplied c.space.iterators) := by
    have hflat : Term.unapplied c.space.iterators =
        c.space.iterators.flatMap fun i => [(i.toList, none)] := List.map_eq_flatMap ..
    rw [hflat]
    exact .joined (separates_of_all (List.cons_ne_nil ',' []) (by decide))
      fun i hi => .word (h.iterators i hi)
  have hbracket : ∀ d ∈ ['['], isWordRest d = false := List.forall_mem_singleton.mpr rfl
  unfold definition
  split
  · next hempty =>
    rw [List.isEmpty_iff.mp hempty] at hemitted
    rw [← hemitted.eq]
    have hread := (htuple.separated (separates_of_all (List.cons_ne_nil ']' []) (by decide)) .nil)
    rw [List.append_nil] at hread
    exact (hread.behind hbracket).eq
  · have hread := htuple.separated
      (separates_of_all (List.cons_ne_nil ']' [' ', ':', ' ']) (by decide)) hemitted
    rw [List.append_assoc] at hread
    exact (hread.behind hbracket).eq

end Space

end LoopNest
