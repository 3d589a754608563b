import LoopNest.Proofs.EmittedTerms
import LoopNest.Proofs.EngineRoundTrip

/-!
# The conditions of a space in a script

The conditions of a space are a row of terms with comparisons and conjunctions between them. They are
rewritten term by term, an equality is left with one sign, and the words of the outcome are those of
the emitted terms.
-/

namespace LoopNest

open Script

namespace Script

/-! ### Rows of terms -/

/-- Terms with symbols between them, and spaces around the symbols. -/
def rowText (write : Term → List Char) : Term → List (List Char × Term) → List Char
  | t, [] => write t
  | t, (symbol, u) :: links => write t ++ ' ' :: (symbol ++ [' ']) ++ rowText write u links

def rowTerms (t : Term) (links : List (List Char × Term)) : List Term :=
  t :: links.map (·.2)

theorem rowText_append (write : Term → List Char) (t u : Term) (symbol : List Char)
    (links more : List (List Char × Term)) :
    rowText write t (links ++ (symbol, u) :: more) =
      rowText write t links ++ ' ' :: (symbol ++ [' ']) ++ rowText write u more := by
  induction links generalizing t with
  | nil => rfl
  | cons link links ih => simp [rowText, ih]

/-- The characters of comparisons and conjunctions. -/
def isLinkChar (c : Char) : Bool :=
  c = '<' || c = '>' || c = '=' || c = '!' || c = '&'

theorem isLinkChar_cases {c : Char} (h : isLinkChar c) :
    c = '<' ∨ c = '>' ∨ c = '=' ∨ c = '!' ∨ c = '&' := by
  simpa [isLinkChar, or_assoc] using h

theorem separates_link {symbol : List Char} (h : ∀ c ∈ symbol, isLinkChar c) :
    Separates (' ' :: (symbol ++ [' '])) := by
  refine separates_of_all (List.cons_ne_nil _ _) ?_
  rw [List.all_cons, List.all_append]
  refine Bool.and_eq_true_iff.mpr ⟨by decide, Bool.and_eq_true_iff.mpr ⟨?_, by decide⟩⟩
  refine List.all_eq_true.mpr fun c hc => ?_
  rcases isLinkChar_cases (h c hc) with rfl | rfl | rfl | rfl | rfl <;> decide

/-- A text of conditions with its words. -/
structure Spans (text : List Char) (uses : List Use) : Prop where
  uses : UsesOf text uses
  chars : ∀ c ∈ text, isTermChar c || isLinkChar c

/-- A row shows the words of its terms. -/
theorem spans_row {write : Term → List Char} {uses : Term → List Use} {t : Term}
    {links : List (List Char × Term)} (h : ∀ u ∈ rowTerms t links, Shows (write u) (uses u))
    (hlinks : ∀ l ∈ links, ∀ c ∈ l.1, isLinkChar c) :
    Spans (rowText write t links) ((rowTerms t links).flatMap uses) := by
  have hterm : ∀ {u : Term}, Shows (write u) (uses u) →
      ∀ c ∈ write u, isTermChar c || isLinkChar c := by
    intro u hu c hc
    simp [hu.chars c hc]
  induction links generalizing t with
  | nil =>
    have ht := h t List.mem_cons_self
    refine ⟨?_, hterm ht⟩
    rw [rowTerms, List.map_nil, List.flatMap_cons, List.flatMap_nil, List.append_nil]
    exact ht.uses
  | cons link links ih =>
    obtain ⟨symbol, u⟩ := link
    obtain ⟨ht, hrest⟩ := List.forall_mem_cons.mp h
    obtain ⟨hsymbol, hlinks⟩ := List.forall_mem_cons.mp hlinks
    have hrow := ih hrest hlinks
    refine ⟨ht.uses.separated (separates_link hsymbol) hrow.uses, ?_⟩
    rw [rowText, List.forall_mem_append, List.forall_mem_append]
    refine ⟨⟨hterm ht, ?_⟩, hrow.chars⟩
    refine List.forall_mem_cons.mpr ⟨rfl, List.forall_mem_append.mpr ⟨fun c hc => ?_, ?_⟩⟩
    · simp [hsymbol c hc]
    · exact List.forall_mem_singleton.mpr rfl

theorem rewritesTo_row {t : Term} {links : List (List Char × Term)}
    (h : ∀ u ∈ rowTerms t links, u.Plain) (hlinks : ∀ l ∈ links, ∀ c ∈ l.1, isLinkChar c) :
    RewritesTo (rowText (·.text.toList) t links) (fun vs => rowText (Term.emitted vs) t links)
      ((rowTerms t links).flatMap Term.calls) := by
  induction links generalizing t with
  | nil =>
    rw [rowTerms, List.map_nil, List.flatMap_cons, List.flatMap_nil, List.append_nil]
    exact (h t List.mem_cons_self).rewritesTo
  | cons link links ih =>
    obtain ⟨symbol, u⟩ := link
    obtain ⟨ht, hrest⟩ := List.forall_mem_cons.mp h
    obtain ⟨hsymbol, hlinks⟩ := List.forall_mem_cons.mp hlinks
    exact ht.rewritesTo.separated (separates_link hsymbol) (ih hrest hlinks)

/-! ### Equalities with one sign -/

theorem singleEquals_cons {c : Char} {cs : List Char} (h : c ≠ '=' ∨ '=' ∉ cs.head?) :
    singleEquals (c :: cs) = c :: singleEquals cs := by
  rw [singleEquals]
  intro ds hc hcs
  rcases h with h | h
  · exact h hc
  · exact h (by rw [hcs]; rfl)

/-- A space keeps signs apart. -/
theorem singleEquals_append (cs rest : List Char) :
    singleEquals (cs ++ ' ' :: rest) = singleEquals cs ++ ' ' :: singleEquals rest := by
  fun_induction singleEquals cs with
  | case1 cs ih => rw [List.cons_append, List.cons_append, singleEquals, ih]; rfl
  | case2 c cs hne ih =>
    have hcons : c ≠ '=' ∨ '=' ∉ (cs ++ ' ' :: rest).head? := by
      by_cases hc : c = '='
      · refine .inr fun hhead => ?_
        cases cs with
        | nil => cases hhead
        | cons d cs =>
          cases hhead
          exact hne cs hc rfl
      · exact .inl hc
    rw [List.cons_append, singleEquals_cons hcons, ih]
    rfl
  | case3 => exact singleEquals_cons (.inl (by decide))

theorem singleEquals_of_not_mem {cs : List Char} (h : '=' ∉ cs) : singleEquals cs = cs := by
  induction cs with
  | nil => rfl
  | cons c cs ih =>
    simp only [List.mem_cons, not_or] at h
    rw [singleEquals_cons (.inl (Ne.symm h.1)), ih h.2]

/-- In a row only the symbols change. -/
theorem singleEquals_row {write : Term → List Char} {t : Term} {links : List (List Char × Term)}
    (h : ∀ u ∈ rowTerms t links, '=' ∉ write u) :
    singleEquals (rowText write t links) =
      rowText write t (links.map fun l => (singleEquals l.1, l.2)) := by
  induction links generalizing t with
  | nil => exact singleEquals_of_not_mem (h t List.mem_cons_self)
  | cons link links ih =>
    obtain ⟨symbol, u⟩ := link
    obtain ⟨ht, hrest⟩ := List.forall_mem_cons.mp h
    have hsplit : rowText write t ((symbol, u) :: links) =
        write t ++ ' ' :: (symbol ++ ' ' :: rowText write u links) := by simp [rowText]
    rw [hsplit, singleEquals_append, singleEquals_append, singleEquals_of_not_mem ht, ih hrest]
    simp [rowText]

theorem mem_of_mem_singleEquals {c : Char} {cs : List Char} (h : c ∈ singleEquals cs) : c ∈ cs := by
  fun_induction singleEquals cs with
  | case1 cs ih =>
    exact List.mem_cons.mpr ((List.mem_cons.mp h).imp_right fun h => List.mem_cons_of_mem _ (ih h))
  | case2 c cs hne ih => exact List.mem_cons.mpr ((List.mem_cons.mp h).imp_right ih)
  | case3 => cases h

end Script

/-! ### The conditions of a space -/

/-- The terms of a relation behind the first one, each with the comparison before it. -/
def Relation.links (r : Relation) : List (List Char × Term) :=
  match r.middle? with
  | some (mid, op) => [(r.leftOp.symbol.toList, mid), (op.symbol.toList, r.right)]
  | none => [(r.leftOp.symbol.toList, r.right)]

theorem Relation.toList_text (r : Relation) :
    r.text.toList = rowText (·.text.toList) r.left r.links := by
  unfold Relation.text Relation.links
  cases r.middle? <;> simp [rowText]

theorem Relation.rowTerms_links (r : Relation) : rowTerms r.left r.links = r.writtenTerms := by
  unfold Relation.writtenTerms Relation.links
  cases r.middle? <;> simp [rowTerms]

theorem CompareOp.isLinkChar_symbol (op : CompareOp) : ∀ c ∈ op.symbol.toList, isLinkChar c := by
  cases op <;> exact List.all_eq_true.mp (by decide)

theorem Relation.isLinkChar_links (r : Relation) : ∀ l ∈ r.links, ∀ c ∈ l.1, isLinkChar c := by
  unfold Relation.links
  cases r.middle? with
  | none => simpa using r.leftOp.isLinkChar_symbol
  | some middle => simpa using ⟨r.leftOp.isLinkChar_symbol, middle.2.isLinkChar_symbol⟩

namespace Space

/-- The terms that a space is written with, in order. -/
def writtenTerms (s : Space) : List Term :=
  s.relations.flatMap Relation.writtenTerms

def conditions (s : Space) : List Char :=
  (" && ".intercalate (s.relations.map Relation.text)).toList

/-- The terms of relations, each with the symbol before it. -/
def linksOf (rs : List Relation) : List (List Char × Term) :=
  rs.flatMap fun r => (['&', '&'], r.left) :: r.links

theorem toList_intercalate_text (r : Relation) (rs : List Relation) :
    (" && ".intercalate ((r :: rs).map Relation.text)).toList =
      rowText (·.text.toList) r.left (r.links ++ linksOf rs) := by
  induction rs generalizing r with
  | nil => simp [linksOf, Relation.toList_text]
  | cons r' rs ih =>
    have hrest := ih r'
    have hlinks : linksOf (r' :: rs) = (['&', '&'], r'.left) :: (r'.links ++ linksOf rs) := rfl
    rw [List.map_cons] at hrest
    rw [List.map_cons, List.map_cons, String.intercalate_cons_cons, String.toList_append,
      String.toList_append, hrest, Relation.toList_text, hlinks, rowText_append]
    rfl

theorem isLinkChar_linksOf (rs : List Relation) : ∀ l ∈ linksOf rs, ∀ c ∈ l.1, isLinkChar c := by
  intro l hl
  obtain ⟨r, -, hl⟩ := List.mem_flatMap.mp hl
  rcases List.mem_cons.mp hl with rfl | hl
  · have hand : ∀ c ∈ ['&', '&'], isLinkChar c := List.all_eq_true.mp (by decide)
    exact hand
  · exact r.isLinkChar_links l hl

theorem rowTerms_linksOf (r : Relation) (rs : List Relation) :
    rowTerms r.left (r.links ++ linksOf rs) = (r :: rs).flatMap Relation.writtenTerms := by
  have hlinks : ∀ r : Relation, r.left :: r.links.map (·.2) = r.writtenTerms :=
    Relation.rowTerms_links
  have hrest : (linksOf rs).map (·.2) = rs.flatMap Relation.writtenTerms := by
    rw [linksOf, List.map_flatMap]
    exact List.flatMap_congr fun r _ => hlinks r
  rw [rowTerms, List.map_append, hrest, ← List.cons_append, hlinks, List.flatMap_cons]

/-- A space whose names are words of a script. -/
structure Plain (s : Space) : Prop where
  name : IsAsciiWord s.name.toList
  iterators : ∀ i ∈ s.iterators, IsAsciiWord i.toList
  terms : ∀ t ∈ s.writtenTerms, t.Plain

def terms (s : Space) : List Term :=
  s.relations.flatMap Relation.terms

/-- The names in a space: its own, its iterators, and those in its terms. -/
def names (s : Space) : List String :=
  s.name :: s.iterators ++ Term.namesAll s.terms

theorem mem_names_of_mem_term {s : Space} {t : Term} (ht : t ∈ s.terms) {name : String}
    (hname : name ∈ t.names) : name ∈ s.names := by
  refine List.mem_append_right _ ?_
  rw [Term.namesAll_eq]
  exact List.mem_flatMap.mpr ⟨t, ht, hname⟩

theorem Legible.writtenTerms_eq {s : Space} (h : s.Legible) : s.writtenTerms = s.terms :=
  List.flatMap_congr fun r hr => (h.relations r hr).writtenTerms_eq

theorem Legible.terms {s : Space} (h : s.Legible) : ∀ t ∈ s.terms, t.Legible s.iterators := by
  intro t ht
  obtain ⟨r, hr, ht⟩ := List.mem_flatMap.mp ht
  exact (h.relations r hr).1 t ht

/-- A space from a program has words for its names if they are ASCII. -/
theorem Legible.plain {s : Space} (h : s.Legible) (hascii : ∀ name ∈ s.names, isAsciiText name) :
    s.Plain := by
  obtain ⟨hname, hiterators⟩ := List.forall_mem_cons.mp (List.forall_mem_append.mp hascii).1
  refine ⟨isAsciiWord_of_isName h.name hname, fun i hi => ?_, fun t ht => ?_⟩
  · exact isAsciiWord_of_isName (h.iterators i hi) (hiterators i hi)
  · rw [h.writtenTerms_eq] at ht
    exact (h.terms t ht).1.plain fun name hmem => hascii name (mem_names_of_mem_term ht hmem)

/-- The conditions of a space are empty or a row of its terms. -/
theorem conditions_cases (s : Space) :
    s.conditions = [] ∧ s.writtenTerms = [] ∨
      ∃ t links, s.conditions = rowText (·.text.toList) t links ∧ s.writtenTerms = rowTerms t links ∧
        ∀ l ∈ links, ∀ c ∈ l.1, isLinkChar c := by
  unfold conditions writtenTerms
  cases s.relations with
  | nil => exact .inl ⟨rfl, rfl⟩
  | cons r rs =>
    refine .inr ⟨r.left, r.links ++ linksOf rs, toList_intercalate_text r rs,
      (rowTerms_linksOf r rs).symm, ?_⟩
    exact List.forall_mem_append.mpr ⟨r.isLinkChar_links, isLinkChar_linksOf rs⟩

/-- The calls of a space, in order. -/
def calls (s : Space) : List Call :=
  s.writtenTerms.flatMap Term.calls

/-- The functions of the script of a space. -/
def variants (s : Space) : Variants :=
  Variants.after s.iterators [] s.calls

/-- The conditions with the calls rewritten. -/
def emitted (s : Space) : List Char :=
  singleEquals ((piecesFrom 0 s.conditions).flatMap (Piece.written s.variants))

theorem callsOf_conditions {s : Space} (h : s.Plain) :
    callsOf (piecesFrom 0 s.conditions) = s.calls := by
  rcases s.conditions_cases with ⟨hnil, hterms⟩ | ⟨t, links, htext, hterms, hlinks⟩
  · rw [hnil, calls, hterms]
    rfl
  · rw [htext, calls, hterms]
    exact (rewritesTo_row (hterms ▸ h.terms) hlinks).pieces.2

theorem isFlatCall_calls {s : Space} (h : s.Plain) : ∀ c ∈ s.calls, Term.IsFlatCall c := by
  intro c hc
  obtain ⟨t, ht, hc⟩ := List.mem_flatMap.mp hc
  exact (h.terms t ht).isFlatCall c hc

theorem legal_of_mem_variants {s : Space} (h : s.Plain) {v : Variant} (hv : v ∈ s.variants) :
    v.Legal := by
  obtain ⟨_, _, -, -, hstands⟩ :=
    Term.exists_stands_of_mem_after h.iterators (isFlatCall_calls h) hv
  exact hstands.legal

theorem serves_variants {s : Space} (h : s.Plain) {t : Term} (ht : t ∈ s.writtenTerms) :
    Term.Serves s.iterators t.calls s.variants :=
  (Term.serves_after h.iterators (isFlatCall_calls h)).mono fun _ hc =>
    List.mem_flatMap.mpr ⟨t, ht, hc⟩

/-- The words of the rewritten conditions are those of the emitted terms. -/
theorem spans_emitted {s : Space} (h : s.Plain) :
    Spans s.emitted (s.writtenTerms.flatMap (Term.uses s.variants)) := by
  have hterms := h.terms
  have hshows : ∀ t ∈ s.writtenTerms, Shows (t.emitted s.variants) (t.uses s.variants) :=
    fun t ht => (h.terms t ht).shows (serves_variants h ht)
  rcases s.conditions_cases with ⟨hnil, hrow⟩ | ⟨t, links, htext, hrow, hlinks⟩
  · rw [emitted, hnil, hrow]
    exact ⟨.nil, by simp [piecesFrom, singleEquals]⟩
  · rw [hrow] at hterms hshows
    rw [emitted, htext, (rewritesTo_row hterms hlinks).pieces.1, singleEquals_row, hrow]
    · have hsame : rowTerms t (links.map fun l => (singleEquals l.1, l.2)) = rowTerms t links := by
        simp [rowTerms]
      rw [← hsame] at hshows ⊢
      refine spans_row hshows (List.forall_mem_map.mpr fun l hl c hc => ?_)
      exact hlinks l hl c (mem_of_mem_singleEquals hc)
    · intro u hu hmem
      exact absurd ((hshows u hu).chars _ hmem) (by decide)

end Space

end LoopNest
