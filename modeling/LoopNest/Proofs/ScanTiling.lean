import LoopNest.Proofs.LineJoining
import LoopNest.Proofs.SourcePlaces
import Mathlib.Data.Nat.Find
import Mathlib.Logic.Function.Iterate

/-!
# Items tile their text

However often the scanner is asked, and whether it answers with a token or a fault, each item begins
where the gap behind the one before it ends. So the items stand in the text in order, with nothing but
gaps between them, up to the end of the input, which the scanner reaches with the last character and
then stays at. The lines of the text show every item between its columns.
-/

namespace LoopNest

open Source

namespace Scan

/-! ### Gaps -/

/-- What stands between two items, before the text `behind`: blanks, escaped newlines, comments up to
the end of their line, and newlines if brackets are open. -/
inductive Gap (inside : Prop) (behind : List Char) : List Char → Prop where
  | nil : Gap inside behind []
  | blank {c : Char} {cs : List Char} (hc : c = ' ' ∨ c = '\t' ∨ c = '\r')
      (h : Gap inside behind cs) : Gap inside behind (c :: cs)
  | newline {cs : List Char} (hinside : inside) (h : Gap inside behind cs) :
      Gap inside behind ('\n' :: cs)
  | escaped {cs : List Char} (h : Gap inside behind cs) : Gap inside behind ('\\' :: '\n' :: cs)
  | comment {text cs : List Char} (htext : '\n' ∉ text)
      (hend : ∀ c ∈ (cs ++ behind).head?, c = '\n') (h : Gap inside behind cs) :
      Gap inside behind ('#' :: (text ++ cs))

/-- What the scanner skips is a gap, and inside a comment the rest of the comment before a gap. -/
theorem isGap_gap {depth : Nat} {comment : Bool} {cs behind : List Char}
    (h : gap depth comment cs ++ behind = cs) :
    (comment = false → Gap (0 < depth) behind (gap depth comment cs)) ∧
    (comment = true → ∃ text rest, gap depth comment cs = text ++ rest ∧ '\n' ∉ text ∧
      (∀ c ∈ (rest ++ behind).head?, c = '\n') ∧ Gap (0 < depth) behind rest) := by
  -- A comment is read with its flag set up to the newline, where the second part becomes the first.
  fun_induction gap depth comment cs with
  | case1 comment =>
    rw [List.nil_append] at h
    exact ⟨fun _ => .nil, fun _ => ⟨[], [], rfl, List.not_mem_nil, by simp [h], .nil⟩⟩
  | case2 comment c cs hc ih =>
    rw [Bool.and_eq_true, bne_iff_ne] at hc
    obtain ⟨text, rest, hgap, htext, hend, hrest⟩ := (ih (List.cons.inj h).2).2 rfl
    refine ⟨fun hcomment => by simp_all, fun _ => ⟨c :: text, rest, ?_, ?_, hend, hrest⟩⟩
    · rw [hgap, List.cons_append]
    · exact List.not_mem_cons_of_ne_of_not_mem (Ne.symm hc.2) htext
  | case3 comment cs hc ih =>
    obtain ⟨text, rest, hgap, htext, hend, hrest⟩ := (ih (List.cons.inj h).2).2 rfl
    rw [hgap]
    exact ⟨fun _ => .comment htext hend hrest, fun hcomment => by simp_all⟩
  | case4 comment c cs hc hhash hblank ih =>
    have hrest := (ih (List.cons.inj h).2).1 rfl
    have hchar : c = ' ' ∨ c = '\t' ∨ c = '\r' := by simpa [or_assoc] using hblank
    refine ⟨fun _ => .blank hchar hrest, fun hcomment => ?_⟩
    rcases hchar with rfl | rfl | rfl <;> simp_all
  | case5 comment c cs hc hhash hblank hline ih =>
    have hrest := (ih (List.cons.inj h).2).1 rfl
    rw [Bool.and_eq_true, decide_eq_true_iff, decide_eq_true_iff] at hline
    obtain ⟨rfl, hdepth⟩ := hline
    exact ⟨fun _ => .newline hdepth hrest,
      fun _ => ⟨[], _, rfl, List.not_mem_nil, by simp, .newline hdepth hrest⟩⟩
  | case6 comment cs hc hhash hblank hline ih =>
    have hrest := (ih (List.cons.inj (List.cons.inj h).2).2).1 rfl
    exact ⟨fun _ => .escaped hrest, fun hcomment => by simp_all⟩
  | case7 comment cs hline hc => exact ⟨fun _ => .nil, fun hcomment => by simp_all⟩
  | case8 comment c cs hc =>
    rw [List.nil_append] at h
    exact ⟨fun _ => .nil, fun hcomment => ⟨[], [], rfl, List.not_mem_nil, by simp_all, .nil⟩⟩

theorem head?_ne_return {depth : Nat} {comment : Bool} {cs behind : List Char}
    (h : gap depth comment cs ++ behind = cs) : behind.head? ≠ some '\r' := by
  fun_induction gap depth comment cs <;> simp_all

/-! ### Lexemes -/

/-- What a lexeme can be. -/
theorem lexeme?_cases {depth : Nat} {cs : List Char} {l : Lexeme} (h : lexeme? depth cs = some l) :
    (∃ kind, (l.text, kind) ∈ spellings ∧ l.outcome = balanced depth kind) ∨
      (mantissa cs ≠ [] ∧ l = number cs) ∨ (∃ c rest, startsName c ∧ l = identifier c rest) ∨
      ∃ c, cs.head? = some c ∧ c ≠ '\n' ∧ l = ⟨[c], .error (.unexpectedCharacter c)⟩ := by
  unfold lexeme? at h
  split at h
  · cases h
  · next c cs =>
    split at h
    · next text kind hs =>
      cases h
      exact .inl ⟨kind, (spelling?_eq_some hs).1, rfl⟩
    · next hs =>
      split at h
      · next hd => exact .inr (.inl ⟨mantissa_ne_nil hd, (Option.some.inj h).symm⟩)
      · split at h
        · next hstart => exact .inr (.inr (.inl ⟨c, cs, hstart, (Option.some.inj h).symm⟩))
        · have hline : c ≠ '\n' := by
            rintro rfl
            simp [spelling?, spellings] at hs
          exact .inr (.inr (.inr ⟨c, rfl, hline, (Option.some.inj h).symm⟩))

/-- Text without the characters that end a line. -/
def InLine (cs : List Char) : Prop :=
  '\n' ∉ cs ∧ '\r' ∉ cs

instance (cs : List Char) : Decidable (InLine cs) :=
  inferInstanceAs (Decidable (_ ∧ _))

@[simp] theorem inLine_append {a b : List Char} : InLine (a ++ b) ↔ InLine a ∧ InLine b := by
  simp only [InLine, List.mem_append, not_or]
  exact and_and_and_comm

theorem inLine_of_forall {p : Char → Bool} (hp : p '\n' = false ∧ p '\r' = false) {cs : List Char}
    (h : ∀ c ∈ cs, p c) : InLine cs :=
  ⟨fun hmem => Bool.false_ne_true (hp.1.symm.trans (h _ hmem)),
    fun hmem => Bool.false_ne_true (hp.2.symm.trans (h _ hmem))⟩

theorem inLine_digits {cs : List Char} (h : ∀ c ∈ cs, c.isDigit) : InLine cs :=
  inLine_of_forall (by decide) h

theorem IsFraction.inLine {cs : List Char} (h : IsFraction cs) : InLine cs := by
  cases h with
  | absent => decide
  | point ds h => exact (inLine_append (a := ['.'])).mpr ⟨by decide, inLine_digits h.2⟩

theorem inLine_exponentHead (cs : List Char) : InLine (exponentHead cs) := by
  by_cases hempty : exponentHead cs = []
  · rw [hempty]
    decide
  · obtain ⟨e, he, hhead⟩ := isExponentHead_exponentHead hempty
    rcases he with rfl | rfl <;> rcases hhead with hhead | hhead | hhead <;> rw [hhead] <;> decide

theorem inLine_number (cs : List Char) : InLine (number cs).text := by
  unfold number
  dsimp only
  generalize hwhole : cs.takeWhile Char.isDigit = whole
  generalize hpoint : fraction (cs.drop whole.length) = point
  generalize hhead : exponentHead (cs.drop (whole ++ point).length) = head
  generalize hdigits : (cs.drop ((whole ++ point).length + head.length)).takeWhile Char.isDigit =
    digits
  have h₁ : InLine whole := hwhole ▸ inLine_digits fun c hc => List.mem_takeWhile_imp hc
  have h₂ : InLine point := hpoint ▸ (isFraction_fraction _).inLine
  have h₃ : InLine head := hhead ▸ inLine_exponentHead _
  have h₄ : InLine digits := hdigits ▸ inLine_digits fun c hc => List.mem_takeWhile_imp hc
  have htext : InLine (whole ++ point ++ if head.isEmpty then [] else head ++ digits) := by
    rw [inLine_append, inLine_append]
    refine ⟨⟨h₁, h₂⟩, ?_⟩
    split
    · decide
    · exact inLine_append.mpr ⟨h₃, h₄⟩
  split
  · exact inLine_append.mpr ⟨inLine_append.mpr ⟨h₁, h₂⟩, h₃⟩
  · split
    · split
      · next c rest hrest hstart =>
        refine inLine_append.mpr ⟨htext, inLine_of_forall (p := startsName) (by decide) ?_⟩
        exact List.forall_mem_singleton.mpr hstart
      · exact htext
    · exact htext

theorem inLine_identifier {c : Char} (h : startsName c) (cs : List Char) :
    InLine (identifier c cs).text := by
  have hstart : InLine [c] :=
    inLine_of_forall (p := startsName) (by decide) (List.forall_mem_singleton.mpr h)
  have hrest : InLine (cs.takeWhile continuesName) :=
    inLine_of_forall (p := continuesName) (by decide) fun d hd => List.mem_takeWhile_imp hd
  exact inLine_append.mpr ⟨hstart, hrest⟩

/-- Only newlines end a line. -/
theorem inLine_of_lexeme? {depth : Nat} {cs : List Char} {l : Lexeme}
    (h : lexeme? depth cs = some l) (hreturn : cs.head? ≠ some '\r')
    (hline : l.outcome ≠ .ok .newline) : InLine l.text := by
  have hspellings : ∀ s ∈ spellings, s.2 = .newline ∨ InLine s.1 := by decide
  rcases lexeme?_cases h with ⟨kind, hs, hout⟩ | ⟨-, rfl⟩ | ⟨c, rest, hstart, rfl⟩ |
    ⟨c, hc, hne, rfl⟩
  · rcases hspellings _ hs with rfl | htext
    · exact absurd hout hline
    · exact htext
  · exact inLine_number cs
  · exact inLine_identifier hstart rest
  · refine ⟨?_, ?_⟩ <;> rw [List.mem_singleton]
    · exact Ne.symm hne
    · rintro rfl
      exact hreturn hc

/-- A bracket is closed only where one is open. -/
theorem depth_pos_of_right {depth : Nat} {cs : List Char} {l : Lexeme} {b : Bracket}
    (h : lexeme? depth cs = some l) (hout : l.outcome = .ok (.right b)) : 0 < depth := by
  rcases lexeme?_cases h with ⟨kind, -, hkind⟩ | ⟨hne, rfl⟩ | ⟨c, rest, -, rfl⟩ | ⟨c, -, -, rfl⟩
  · rw [hkind] at hout
    cases eq_of_balanced hout
    rw [balanced] at hout
    split at hout
    · cases hout
    · exact Nat.pos_of_ne_zero ‹_›
  · rcases (isNumeral_number hout hne).2 with hkind | hkind <;> cases hkind
  · have hkind := Except.ok.inj hout
    unfold Token.Kind.keyword? at hkind
    repeat' split at hkind
    all_goals cases hkind
  · cases hout

/-! ### One item -/

/-- The kind of a token; a fault has none. -/
def Item.kind? : Item → Option Token.Kind
  | token t => some t.kind
  | fault _ => none

/-- The token of an opening bracket. -/
def Item.opens (item : Item) : Bool :=
  match item.kind? with
  | some (.left _) => true
  | _ => false

/-- The token of a closing bracket. -/
def Item.closes (item : Item) : Bool :=
  match item.kind? with
  | some (.right _) => true
  | _ => false

theorem depthAfter_add {depth : Nat} {t : Token} (h : ∀ b, t.kind = .right b → 0 < depth) :
    depthAfter depth t.kind + [Item.token t].countP Item.closes =
      depth + [Item.token t].countP Item.opens := by
  obtain ⟨kind, span, lexeme⟩ := t
  cases kind with
  | left b => rfl
  | right b => exact Nat.sub_add_cancel (h b rfl)
  | _ => rfl

end Scan

namespace Scanner

open Scan

/-- What one step of the scanner does: it skips a gap and takes a stretch of text, which is empty only
at the end of the input. -/
structure Takes (s : Scanner) (gap text : List Char) (item : Item) (s' : Scanner) : Prop where
  rest : s.rest = gap ++ (text ++ s'.rest)
  isGap : Gap (0 < s.depth) (text ++ s'.rest) gap
  span : item.span = ⟨s.place.after gap, (s.place.after gap).after text⟩
  place : s'.place = item.span.stop
  lexeme : ∀ t, item = .token t → t.lexeme = String.ofList text
  depth : s'.depth + [item].countP Item.closes = s.depth + [item].countP Item.opens
  atEnd : item.isEnd → text = [] ∧ s'.rest = []
  nonempty : item.isEnd = false → text ≠ []
  inLine : item.isEnd = false → item.kind? ≠ some .newline → InLine text

theorem Takes.place_le {s s' : Scanner} {gap text : List Char} {item : Item}
    (h : s.Takes gap text item s') : s.place.offset ≤ item.span.start.offset ∧
      item.span.start.offset ≤ item.span.stop.offset := by
  rw [h.span]
  exact ⟨Location.offset_le_after .., Location.offset_le_after ..⟩

theorem exists_takes (s : Scanner) : ∃ gap text, s.Takes gap text s.next.1 s.next.2 := by
  obtain ⟨cs, place, depth, finished⟩ := s
  obtain ⟨rest, hrest⟩ := gap_isPrefix depth false cs
  have hgap := (isGap_gap hrest).1 rfl
  have hhead := head?_ne_return hrest
  unfold next
  dsimp only
  generalize Scan.gap depth false cs = gap at hgap hrest ⊢
  subst hrest
  rw [List.drop_left]
  cases hl : lexeme? depth rest with
  | none =>
    cases eq_nil_of_lexeme? hl
    refine ⟨gap, [], ?_⟩
    exact
      { rest := rfl
        isGap := hgap
        span := rfl
        place := rfl
        lexeme := by
          intro t ht
          cases ht
          rfl
        depth := rfl
        atEnd := fun _ => ⟨rfl, rfl⟩
        nonempty := fun hend => by cases hend
        inLine := fun hend => by cases hend }
  | some l =>
    obtain ⟨text, outcome⟩ := l
    have hne := lexeme?_text_ne_nil hl
    obtain ⟨behind, rfl⟩ := lexeme?_isPrefix hl
    refine ⟨gap, text, ?_⟩
    have hinLine : outcome ≠ .ok .newline → InLine text := inLine_of_lexeme? hl hhead
    cases outcome with
    | error cause =>
      simp only [List.drop_left]
      exact
        { rest := rfl
          isGap := hgap
          span := rfl
          place := rfl
          lexeme := fun t ht => by cases ht
          depth := rfl
          atEnd := fun hend => by cases hend
          nonempty := fun _ => hne
          inLine := fun _ _ => hinLine fun hout => by cases hout }
    | ok kind =>
      have hend := (spelled_of_lexeme? hl rfl).1
      simp only [List.drop_left]
      exact
        { rest := rfl
          isGap := hgap
          span := rfl
          place := rfl
          lexeme := by
            intro t ht
            cases ht
            rfl
          depth := depthAfter_add (t := ⟨kind, _, _⟩) fun b hb =>
            depth_pos_of_right hl (congrArg Except.ok hb)
          atEnd := fun h => absurd (of_decide_eq_true h) hend
          nonempty := fun _ => hne
          inLine := fun _ hline => hinLine fun hout => hline (congrArg some (Except.ok.inj hout)) }

theorem next_of_isEnd {s : Scanner} (h : s.next.1.isEnd) :
    s.next = (.token ⟨.endOfInput, ⟨s.place.after s.rest, s.place.after s.rest⟩, ""⟩,
      ⟨[], s.place.after s.rest, s.depth, true⟩) := by
  cases hitem : s.next.1 with
  | fault e =>
    rw [hitem] at h
    cases h
  | token t =>
    rw [hitem] at h
    obtain ⟨hgap, -⟩ := (next_eq_end_iff h).mp hitem
    simp only [next, hgap, List.drop_length, lexeme?]

/-- The scanner behind the first `n` items. -/
def behind (s : Scanner) (n : Nat) : Scanner :=
  (fun s => s.next.2)^[n] s

theorem behind_succ (s : Scanner) (n : Nat) : s.behind (n + 1) = (s.behind n).next.2 :=
  Function.iterate_succ_apply' ..

/-- At the end of the input the scanner stays there. -/
theorem next_behind_of_isEnd {s : Scanner} {n k : Nat} (h : (s.behind n).next.1.isEnd)
    (hk : n ≤ k) : (s.behind k).next = (s.behind n).next := by
  induction k, hk using Nat.le_induction with
  | base => rfl
  | succ k _ ih =>
    rw [behind_succ, ih, next_of_isEnd h]
    rfl

/-- Up to the end of the input every item takes a character. -/
theorem length_behind {s : Scanner} {n : Nat} (h : ∀ k < n, (s.behind k).next.1.isEnd = false) :
    (s.behind n).rest.length + n ≤ s.rest.length := by
  induction n with
  | zero => exact Nat.le_refl _
  | succ n ih =>
    have hlt := next_length_lt (h n (Nat.lt_succ_self n))
    have hle := ih fun k hk => h k (Nat.lt_succ_of_lt hk)
    rw [behind_succ]
    omega

theorem exists_end (s : Scanner) : ∃ n ≤ s.rest.length, (s.behind n).next.1.isEnd ∧
    ∀ k < n, (s.behind k).next.1.isEnd = false := by
  have hend : ∃ n, (s.behind n).next.1.isEnd := by
    -- one more item than there are characters would take more than the whole text
    by_contra hnone
    have hlen := length_behind (s := s) (n := s.rest.length + 1)
      fun k _ => Bool.eq_false_iff.mpr fun hk => hnone ⟨k, hk⟩
    omega
  have hbefore : ∀ k < Nat.find hend, (s.behind k).next.1.isEnd = false :=
    fun k hk => Bool.eq_false_iff.mpr (Nat.find_min hend hk)
  refine ⟨Nat.find hend, ?_, Nat.find_spec hend, hbefore⟩
  have hlen := length_behind hbefore
  omega

/-- A run gives the items up to the end of the input. -/
theorem run_eq {s : Scanner} {n m : Nat} (hend : (s.behind n).next.1.isEnd)
    (hbefore : ∀ k < n, (s.behind k).next.1.isEnd = false) (hm : n < m) :
    (s.run m).1 = (List.range (n + 1)).map fun k => (s.behind k).next.1 := by
  induction m generalizing s n with
  | zero => cases hm
  | succ m ih =>
    cases n with
    | zero =>
      have hfirst : s.next.1.isEnd = true := hend
      simp only [run, hfirst, if_true]
      rfl
    | succ n =>
      have hfirst : s.next.1.isEnd = false := hbefore 0 (Nat.succ_pos n)
      have hrest := ih (s := s.next.2) (n := n) hend
        (fun k hk => hbefore (k + 1) (Nat.succ_lt_succ hk)) (Nat.lt_of_succ_lt_succ hm)
      have hrange := List.range_succ_eq_map (n := n + 1)
      simp only [run, hfirst, Bool.false_eq_true, if_false, hrest]
      rw [hrange, List.map_cons, List.map_map]
      rfl

end Scanner

/-! ### All items -/

namespace Scan

/-- The item that the scanner of a text answers with when it is asked again after `n` items. -/
def call (source : String) (n : Nat) : Item :=
  ((Scanner.ofText source.toList).behind n).next.1

/-- The first `n` items, whether tokens or faults. -/
def calls (source : String) (n : Nat) : List Item :=
  (List.range n).map (call source)

/-- Where the last of some items stops, or else the start of the text. -/
def stopOf (items : List Item) : Nat :=
  (items.getLast?.map (·.span.stop.offset)).getD 0

/-- How an item stands in its text behind other items. -/
structure Tile (source : String) (items : List Item) (item : Item) : Prop where
  /-- It stands behind all of them. -/
  ordered : ∀ other ∈ items, other.span.stop.offset ≤ item.span.start.offset
  nonempty : item.isEnd = false → item.span.start.offset < item.span.stop.offset
  atEnd : item.isEnd → item.span.start.offset = source.utf8ByteSize ∧
    item.span.stop.offset = source.utf8ByteSize
  lexeme : ∀ t, item = .token t → Covers source t.span.start.offset t.span.stop.offset t.lexeme
  /-- Only a gap separates it from the last of them. -/
  gap : ∃ gap rest, Covers source (stopOf items) item.span.start.offset gap ∧
    Covers source item.span.start.offset source.utf8ByteSize rest ∧
    Gap (items.countP Item.closes < items.countP Item.opens) rest.toList gap.toList
  /-- It is what its line shows between its columns. -/
  shown : item.isEnd = false → item.kind? ≠ some .newline →
    ∃ line text, line? source item.span.start.line = some line ∧
      item.span.stop.line = item.span.start.line ∧
      Covers source item.span.start.offset item.span.stop.offset text ∧
      (line.toList.drop (item.span.start.column - 1)).take
        (item.span.stop.column - item.span.start.column) = text.toList

end Scan

/-- A scanner on its way through a text: where it is after what it has read, and which brackets it has
left open. -/
structure Scanner.Reached (source : String) (items : List Scan.Item) (before : List Char)
    (s : Scanner) : Prop where
  text : source.toList = before ++ s.rest
  place : s.place = Location.start.after before
  stop : Scan.stopOf items = s.place.offset
  ordered : ∀ item ∈ items, item.span.stop.offset ≤ s.place.offset
  depth : s.depth + items.countP Scan.Item.closes = items.countP Scan.Item.opens

namespace Scanner.Reached

open Scan

variable {source : String} {items : List Item} {before gap text : List Char} {s s' : Scanner}
  {item : Item} (h : Reached source items before s) (ht : s.Takes gap text item s')
include h ht

theorem source_eq : source.toList = (before ++ gap) ++ (text ++ s'.rest) := by
  rw [h.text, ht.rest, List.append_assoc]

theorem span_eq : item.span = ⟨Location.start.after (before ++ gap),
    (Location.start.after (before ++ gap)).after text⟩ := by
  rw [ht.span, h.place, Location.after_append]

/-- What one step keeps. -/
theorem next : Reached source (items ++ [item]) (before ++ gap ++ text) s' := by
  have hplace := ht.place
  obtain ⟨hstart, hstop⟩ := ht.place_le
  rw [← hplace] at hstop
  refine ⟨?_, ?_, ?_, ?_, ?_⟩
  · rw [h.source_eq ht, List.append_assoc (before ++ gap)]
  · rw [hplace, h.span_eq ht, Location.after_append _ (before ++ gap)]
  · simp [stopOf, hplace]
  · rw [List.forall_mem_append, List.forall_mem_singleton, ← hplace]
    refine ⟨fun other hother => ?_, Nat.le_refl _⟩
    exact Nat.le_trans (h.ordered other hother) (Nat.le_trans hstart hstop)
  · have hdepth := h.depth
    have hitem := ht.depth
    rw [List.countP_append, List.countP_append]
    omega

theorem tile : Tile source items item := by
  have hsource := h.source_eq ht
  have hspan := h.span_eq ht
  have hcovers := covers_after hsource
  refine ⟨?_, ?_, ?_, ?_, ?_, ?_⟩
  · intro other hother
    exact Nat.le_trans (h.ordered other hother) (ht.place_le).1
  · intro hend
    rw [hspan]
    exact Location.offset_lt_after _ (ht.nonempty hend)
  · intro hend
    obtain ⟨rfl, hrest⟩ := ht.atEnd hend
    rw [hrest, List.append_nil, List.append_nil] at hsource
    rw [hspan, ← hsource, Location.after_nil, Location.offset_start_after, String.ofList_toList]
    exact ⟨rfl, rfl⟩
  · rintro t rfl
    have htoken : t.span = _ := hspan
    rwa [ht.lexeme t rfl, htoken]
  · have hgap := ht.isGap
    have hopen : (0 < s.depth) = (items.countP Item.closes < items.countP Item.opens) := by
      have hdepth := h.depth
      exact propext (by omega)
    have hbefore : source.toList = before ++ (gap ++ (text ++ s'.rest)) := by
      rw [hsource, List.append_assoc]
    refine ⟨String.ofList gap, String.ofList (text ++ s'.rest), ?_, ?_, ?_⟩
    · rw [h.stop, h.place, hspan, Location.after_append]
      exact covers_after hbefore
    · rw [hspan]
      exact covers_rest hsource
    · rwa [String.toList_ofList, String.toList_ofList, ← hopen]
  · intro hend hkind
    obtain ⟨hnewline, hreturn⟩ := ht.inLine hend hkind
    obtain ⟨rest, hline⟩ := exists_line hsource (ht.nonempty hend) hnewline hreturn
    have hplace := Location.start_after (before ++ gap)
    rw [hspan]
    refine ⟨String.ofList (lastLine (before ++ gap) ++ text ++ rest), String.ofList text, ?_, ?_,
      hcovers, ?_⟩
    · rw [hplace, Location.behind, String.toList_ofList]
      exact hline
    · rw [Location.line_after, List.count_eq_zero_of_not_mem hnewline]
      rfl
    · rw [Location.column_after_line _ hnewline, Nat.add_sub_cancel_left, hplace]
      simp [Location.behind]

end Scanner.Reached

namespace Scan

theorem calls_succ (source : String) (n : Nat) :
    calls source (n + 1) = calls source n ++ [call source n] := by
  rw [calls, List.range_succ, List.map_append]
  rfl

/-- What a run of the scanner keeps. -/
theorem exists_reached (source : String) (n : Nat) :
    ∃ before, ((Scanner.ofText source.toList).behind n).Reached source (calls source n) before := by
  induction n with
  | zero => exact ⟨[], rfl, rfl, rfl, by simp [calls], rfl⟩
  | succ n ih =>
    obtain ⟨before, hreached⟩ := ih
    obtain ⟨gap, text, htakes⟩ := Scanner.exists_takes ((Scanner.ofText source.toList).behind n)
    rw [calls_succ, Scanner.behind_succ]
    exact ⟨_, hreached.next htakes⟩

theorem tile_call (source : String) (n : Nat) : Tile source (calls source n) (call source n) := by
  obtain ⟨before, hreached⟩ := exists_reached source n
  obtain ⟨gap, text, htakes⟩ := Scanner.exists_takes ((Scanner.ofText source.toList).behind n)
  exact hreached.tile htakes

/-- The items of a text are those up to the first end of the input. -/
theorem exists_items_eq (source : String) : ∃ n ≤ source.length,
    (call source n).isEnd ∧ (∀ k < n, (call source k).isEnd = false) ∧
      items source = calls source (n + 1) := by
  obtain ⟨n, hn, hend, hbefore⟩ := Scanner.exists_end (Scanner.ofText source.toList)
  have hlength : n ≤ source.toList.length := hn
  refine ⟨n, ?_, hend, hbefore, Scanner.run_eq hend hbefore (Nat.lt_succ_of_le hlength)⟩
  rwa [String.length_toList] at hlength

/-- Asked again and again, the scanner of a text reaches the end of the input with at most one more
item than there are characters, and stays there. Each item stands behind those before it with only a
gap between. -/
theorem call_tiles (source : String) :
    (∃ n ≤ source.length, (∀ k, (call source k).isEnd ↔ n ≤ k) ∧
      (∀ k, n ≤ k → call source k = call source n) ∧ items source = calls source (n + 1)) ∧
    ∀ n, Tile source (calls source n) (call source n) := by
  refine ⟨?_, tile_call source⟩
  obtain ⟨n, hn, hend, hbefore, hitems⟩ := exists_items_eq source
  have hstays : ∀ k, n ≤ k → call source k = call source n :=
    fun k hk => congrArg Prod.fst (Scanner.next_behind_of_isEnd hend hk)
  refine ⟨n, hn, fun k => ⟨fun hk => ?_, fun hk => ?_⟩, hstays, hitems⟩
  · by_contra hlt
    exact Bool.eq_false_iff.mp (hbefore k (Nat.lt_of_not_le hlt)) hk
  · rw [hstays k hk]
    exact hend

end Scan

end LoopNest
