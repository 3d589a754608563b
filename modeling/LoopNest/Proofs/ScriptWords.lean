import LoopNest.Engine.Script
import LoopNest.Proofs.TextCutting

/-!
# Words and applications in the text of a script

A text is read word by word, and a word with a left parenthesis behind it is applied to the arguments
up to the parenthesis that closes it. Texts that are put together with separators between them are
read piece by piece: what follows a piece must not go on with a word, and must not open an
application.
-/

namespace LoopNest.Script

/-- A word of a script: a letter or an underscore, with letters, digits and underscores behind it. -/
def IsAsciiWord (cs : List Char) : Prop :=
  ∃ c tail, cs = c :: tail ∧ isWordStart c ∧ ∀ d ∈ tail, isWordRest d

theorem isWordRest_of_isWordStart {c : Char} (h : isWordStart c) : isWordRest c := by
  unfold isWordStart at h
  unfold isWordRest Text.isAsciiAlphanumeric
  cases hc : c.isAlpha <;> simp_all

theorem not_isWordStart {c : Char} (h : isWordRest c = false) : isWordStart c = false :=
  Bool.eq_false_iff.mpr fun hstart => by simp [isWordRest_of_isWordStart hstart] at h

theorem IsAsciiWord.rest {cs : List Char} (h : IsAsciiWord cs) : ∀ c ∈ cs, isWordRest c := by
  obtain ⟨c, tail, rfl, hc, htail⟩ := h
  exact List.forall_mem_cons.mpr ⟨isWordRest_of_isWordStart hc, htail⟩

theorem IsAsciiWord.ne_nil {cs : List Char} (h : IsAsciiWord cs) : cs ≠ [] := by
  obtain ⟨c, tail, rfl, -, -⟩ := h
  exact List.cons_ne_nil c tail

theorem IsAsciiWord.append {cs tail : List Char} (h : IsAsciiWord cs) (htail : ∀ c ∈ tail, isWordRest c) :
    IsAsciiWord (cs ++ tail) := by
  obtain ⟨c, cs, rfl, hc, hcs⟩ := h
  exact ⟨c, cs ++ tail, rfl, hc, List.forall_mem_append.mpr ⟨hcs, htail⟩⟩

theorem IsAsciiWord.not_mem {cs : List Char} (h : IsAsciiWord cs) {c : Char} (hc : isWordRest c = false) :
    c ∉ cs := by
  intro hmem
  rw [h.rest c hmem] at hc
  cases hc

theorem toNat_of_isAlpha {c : Char} (h : c.isAlpha) : 65 ≤ c.toNat ∧ c.toNat ≤ 122 := by
  change (decide (c.val ≥ 'A'.val ∧ c.val ≤ 'Z'.val) ||
    (decide (c.val ≥ 'a'.val) && decide (c.val ≤ 'z'.val))) = true at h
  simp only [Bool.or_eq_true, Bool.and_eq_true, decide_eq_true_eq] at h
  change 65 ≤ c.val.toNat ∧ c.val.toNat ≤ 122
  rcases h with ⟨hlow, hhigh⟩ | ⟨hlow, hhigh⟩
  · exact ⟨hlow, Nat.le_trans hhigh (by decide)⟩
  · exact ⟨Nat.le_trans (by decide) hlow, hhigh⟩

theorem toNat_of_isWordRest {c : Char} (h : isWordRest c) : 48 ≤ c.toNat ∧ c.toNat ≤ 122 := by
  simp only [isWordRest, Text.isAsciiAlphanumeric, Bool.or_eq_true, decide_eq_true_eq] at h
  rcases h with (halpha | hdigit) | rfl
  · obtain ⟨hlow, hhigh⟩ := toNat_of_isAlpha halpha
    exact ⟨Nat.le_trans (by decide) hlow, hhigh⟩
  · rw [Char.isDigit, Bool.and_eq_true, decide_eq_true_eq, decide_eq_true_eq] at hdigit
    exact ⟨hdigit.1, Nat.le_trans hdigit.2 (by decide)⟩
  · decide

theorem isAscii_of_isWordRest {c : Char} (h : isWordRest c) : Text.isAscii c := by
  have hc := (toNat_of_isWordRest h).2
  simp only [Text.isAscii, decide_eq_true_eq]
  omega

theorem isBlank_of_isWordRest {c : Char} (h : isWordRest c) : Text.isBlank c = false := by
  obtain ⟨hlow, hhigh⟩ := toNat_of_isWordRest h
  rw [Text.isBlank, Bool.eq_false_iff, Ne, Text.Ranges.contains_iff]
  simp only [Text.blanks, List.mem_cons, List.not_mem_nil, or_false, exists_eq_or_imp,
    exists_eq_left]
  omega

theorem undivided_of_isWordRest {cs : List Char} (hne : cs ≠ []) (h : ∀ c ∈ cs, isWordRest c) :
    Text.Undivided cs := by
  refine ⟨hne, fun c hc => isBlank_of_isWordRest (h c hc), fun c hc hmem => ?_⟩
  have hall : Text.dividers.all fun c => !isWordRest c := by decide
  simpa [h c hc] using List.all_eq_true.mp hall c hmem

theorem IsAsciiWord.undivided {cs : List Char} (h : IsAsciiWord cs) : Text.Undivided cs :=
  undivided_of_isWordRest h.ne_nil h.rest

theorem IsAsciiWord.tight {cs : List Char} (h : IsAsciiWord cs) : Text.Tight cs :=
  h.undivided.tight

theorem tight_enclosed (text : List Char) : Text.Tight ('(' :: (text ++ [')'])) := by
  refine ⟨fun c hc => ?_, fun c hc => ?_⟩
  · cases hc
    rfl
  · rw [← List.cons_append, List.getLast?_append_of_ne_nil _ (List.cons_ne_nil _ _)] at hc
    cases hc
    rfl

theorem tight_applied {f : List Char} (hf : Text.Undivided f) (text : List Char) :
    Text.Tight (f ++ '(' :: (text ++ [')'])) := by
  have htight := hf.tight.append hf.ne_nil [] (tight_enclosed text) (List.cons_ne_nil _ _)
  rwa [List.append_nil] at htight

/-- No word goes on with such a text, and no application opens with it. -/
def Ends (rest : List Char) : Prop :=
  ∀ c ∈ rest.head?, isWordRest c = false ∧ c ≠ '('

theorem ends_nil : Ends [] := by
  simp [Ends]

theorem ends_cons {c : Char} (hc : isWordRest c = false) (hparen : c ≠ '(') (rest : List Char) :
    Ends (c :: rest) := by
  simpa [Ends] using ⟨hc, hparen⟩

theorem Ends.append {a rest : List Char} (h : Ends rest)
    (hstop : ∀ c ∈ a.head?, isWordRest c = false) (hparen : '(' ∉ a) : Ends (a ++ rest) := by
  cases a with
  | nil => exact h
  | cons c a =>
    refine ends_cons (hstop c rfl) ?_ _
    rintro rfl
    exact hparen List.mem_cons_self

/-- The word that starts at a character, and what stands behind it. -/
theorem exists_word_append {c : Char} (hc : isWordStart c) (cs : List Char) :
    ∃ tail behind, cs = tail ++ behind ∧ IsAsciiWord (c :: tail) ∧
      ∀ d ∈ behind.head?, isWordRest d = false := by
  refine ⟨cs.takeWhile isWordRest, cs.dropWhile isWordRest,
    List.takeWhile_append_dropWhile.symm, ⟨c, _, rfl, hc, fun d hd => ?_⟩, fun d hd => ?_⟩
  · exact List.mem_takeWhile_imp hd
  · have hdrop := List.head?_dropWhile_not isWordRest cs
    rw [hd] at hdrop
    simpa using hdrop

/-! ### Joined texts -/

theorem filter_intercalate (q : Char → Bool) (sep : List Char) (texts : List (List Char)) :
    (sep.intercalate texts).filter q = (sep.filter q).intercalate (texts.map (List.filter q)) := by
  induction texts with
  | nil => rfl
  | cons text texts ih =>
    cases texts with
    | nil => simp
    | cons text' texts =>
      rw [List.intercalate_cons_cons, List.filter_append, List.filter_append, ih]
      simp

theorem of_mem_intercalate {c : Char} {sep : List Char} {texts : List (List Char)}
    (h : c ∈ sep.intercalate texts) : c ∈ sep ∨ ∃ text ∈ texts, c ∈ text := by
  induction texts with
  | nil => cases h
  | cons text texts ih =>
    cases texts with
    | nil => exact .inr ⟨text, List.mem_cons_self, by simpa using h⟩
    | cons text' texts =>
      rw [List.intercalate_cons_cons, List.mem_append, List.mem_append] at h
      rcases h with (h | h) | h
      · exact .inr ⟨text, List.mem_cons_self, h⟩
      · exact .inl h
      · obtain hsep | ⟨text, htext, hc⟩ := ih h
        · exact .inl hsep
        · exact .inr ⟨text, List.mem_cons_of_mem _ htext, hc⟩

theorem mem_intercalate {c : Char} {text : List Char} {texts : List (List Char)} (sep : List Char)
    (htext : text ∈ texts) (hc : c ∈ text) : c ∈ sep.intercalate texts := by
  induction texts with
  | nil => cases htext
  | cons first texts ih =>
    cases texts with
    | nil => rwa [List.intercalate_singleton, ← List.mem_singleton.mp htext]
    | cons second texts =>
      rw [List.intercalate_cons_cons]
      rcases List.mem_cons.mp htext with rfl | htext
      · exact List.mem_append_left _ (List.mem_append_left _ hc)
      · exact List.mem_append_right _ (ih htext)

theorem trim_blanks_append {blanks : List Char} (hb : ∀ c ∈ blanks, Text.isBlank c)
    (text : List Char) : Text.trim (blanks ++ text) = Text.trim text := by
  induction blanks with
  | nil => rfl
  | cons c blanks ih =>
    obtain ⟨hc, hblanks⟩ := List.forall_mem_cons.mp hb
    rw [List.cons_append, Text.trim_cons_blank hc, ih hblanks]

theorem isBlank_space : ∀ c ∈ [' '], Text.isBlank c :=
  List.all_eq_true.mp (by decide)

/-- Blanks before the first of the texts that commas join make no difference, and behind each comma
there are such blanks. -/
theorem map_trim_splitOn_append {blanks : List Char} (hb : ∀ c ∈ blanks, Text.isBlank c)
    {texts : List (List Char)} (hne : texts ≠ [])
    (h : ∀ text ∈ texts, ',' ∉ text ∧ Text.Tight text) {lead : List Char}
    (hlead : ∀ c ∈ lead, Text.isBlank c) :
    ((lead ++ (',' :: blanks).intercalate texts).splitOn ',').map Text.trim = texts := by
  induction texts generalizing lead with
  | nil => exact absurd rfl hne
  | cons text texts ih =>
    obtain ⟨⟨htext, htight⟩, htexts⟩ := List.forall_mem_cons.mp h
    have hcomma : ',' ∉ lead := fun hmem => absurd (hlead ',' hmem) (by decide)
    have hfirst : (lead ++ text).splitOn ',' = [lead ++ text] :=
      List.splitOn_eq_singleton (by simp [hcomma, htext])
    have htrim : Text.trim (lead ++ text) = text := by
      rw [trim_blanks_append hlead, htight.trim_eq]
    cases texts with
    | nil => rw [List.intercalate_singleton, hfirst, List.map_singleton, htrim]
    | cons text' texts =>
      have hrest := ih (List.cons_ne_nil _ _) htexts hb
      rw [List.intercalate_cons_cons, List.append_assoc, ← List.append_assoc lead,
        List.cons_append, List.splitOn_append_cons_self, hfirst, List.map_append, hrest,
        List.map_singleton, htrim]
      rfl

/-- Texts that are joined by commas are split again. -/
theorem map_trim_splitOn {blanks : List Char} (hb : ∀ c ∈ blanks, Text.isBlank c)
    {texts : List (List Char)} (hne : texts ≠ [])
    (h : ∀ text ∈ texts, ',' ∉ text ∧ Text.Tight text) :
    (((',' :: blanks).intercalate texts).splitOn ',').map Text.trim = texts :=
  map_trim_splitOn_append hb hne h (List.forall_mem_nil _)

/-- No divider gets into a tuple but those that separate its names. -/
theorem not_mem_tuple {c : Char} (hc : c ∈ Text.dividers) {sep : List Char} (hsep : c ∉ sep)
    {names : List String} (h : ∀ name ∈ names, Text.Undivided name.toList) :
    c ∉ sep.intercalate (names.map String.toList) := by
  intro hmem
  rcases of_mem_intercalate hmem with hmem | ⟨text, htext, hmem⟩
  · exact hsep hmem
  · obtain ⟨name, hname, rfl⟩ := List.mem_map.mp htext
    exact (h name hname).not_mem hc hmem

/-- The names in a tuple are read back, also if there is none. -/
theorem names_of_tuple {blanks : List Char} (hb : ∀ c ∈ blanks, Text.isBlank c)
    {names : List String} (h : ∀ name ∈ names, Text.Undivided name.toList) :
    (((((',' :: blanks).intercalate (names.map String.toList)).splitOn ',').map
      Text.trim).filter (!·.isEmpty)).map String.ofList = names := by
  by_cases hne : names = []
  · subst hne
    rfl
  · have hitems : ∀ text ∈ names.map String.toList, ',' ∉ text ∧ Text.Tight text :=
      List.forall_mem_map.mpr fun name hname =>
        ⟨(h name hname).not_mem (by decide), (h name hname).tight⟩
    rw [map_trim_splitOn hb (by simpa using hne) hitems, List.filter_eq_self.mpr]
    · simp
    · exact List.forall_mem_map.mpr fun name hname => by simpa using (h name hname).ne_nil

/-! ### The arguments of an application -/

/-- Puts a text before the first of some texts. -/
def prepend (text : List Char) : List (List Char) → List (List Char)
  | [] => [text]
  | first :: more => (text ++ first) :: more

@[simp] theorem prepend_ne_nil (text : List Char) (texts : List (List Char)) :
    prepend text texts ≠ [] := by
  cases texts <;> simp [prepend]

theorem prepend_nil {texts : List (List Char)} (h : texts ≠ []) : prepend [] texts = texts := by
  cases texts with
  | nil => exact absurd rfl h
  | cons first more => rfl

theorem prepend_append (a b : List Char) (texts : List (List Char)) :
    prepend (a ++ b) texts = prepend a (prepend b texts) := by
  cases texts <;> simp [prepend]

/-- A text up to the right parenthesis that closes it, cut at the commas outside inner parentheses. -/
def argumentsFrom : Nat → List Char → List (List Char)
  | _, [] => [[]]
  | depth, c :: cs =>
    if c = '(' then prepend [c] (argumentsFrom (depth + 1) cs)
    else if c = ')' then
      match depth with
      | 0 => [[]]
      | depth + 1 => prepend [c] (argumentsFrom depth cs)
    else if c = ',' && depth = 0 then [] :: argumentsFrom depth cs
    else prepend [c] (argumentsFrom depth cs)

/-- The arguments behind a left parenthesis. -/
def argumentsBehind (cs : List Char) : List (List Char) :=
  match (argumentsFrom 0 cs).map Text.trim with
  | [[]] => []
  | arguments => arguments

theorem argumentsFrom_ne_nil (depth : Nat) (cs : List Char) : argumentsFrom depth cs ≠ [] := by
  fun_induction argumentsFrom depth cs <;> simp

/-- A text without parentheses and commas outside its own. -/
def Solid (text : List Char) : Prop :=
  ∀ depth rest, argumentsFrom depth (text ++ rest) = prepend text (argumentsFrom depth rest)

/-- A text that is passed over between parentheses. -/
def Covered (text : List Char) : Prop :=
  ∀ depth rest, argumentsFrom (depth + 1) (text ++ rest) =
    prepend text (argumentsFrom (depth + 1) rest)

theorem Solid.covered {text : List Char} (h : Solid text) : Covered text :=
  fun depth rest => h (depth + 1) rest

theorem solid_nil : Solid [] :=
  fun depth rest => (prepend_nil (argumentsFrom_ne_nil depth rest)).symm

theorem Solid.append {a b : List Char} (ha : Solid a) (hb : Solid b) : Solid (a ++ b) := by
  intro depth rest
  rw [List.append_assoc, ha, hb, prepend_append]

theorem Covered.append {a b : List Char} (ha : Covered a) (hb : Covered b) : Covered (a ++ b) := by
  intro depth rest
  rw [List.append_assoc, ha, hb, prepend_append]

theorem solid_singleton {c : Char} (hleft : c ≠ '(') (hright : c ≠ ')') (hcomma : c ≠ ',') :
    Solid [c] := by
  intro depth rest
  simp [argumentsFrom, hleft, hright, hcomma]

theorem solid_of_not_mem {text : List Char} (hleft : '(' ∉ text) (hright : ')' ∉ text)
    (hcomma : ',' ∉ text) : Solid text := by
  induction text with
  | nil => exact solid_nil
  | cons c text ih =>
    simp only [List.mem_cons, not_or] at hleft hright hcomma
    have hc := solid_singleton (Ne.symm hleft.1) (Ne.symm hright.1) (Ne.symm hcomma.1)
    exact hc.append (ih hleft.2 hright.2 hcomma.2)

theorem covered_comma : Covered [','] := by
  intro depth rest
  simp [argumentsFrom]

/-- Parentheses cover what they enclose. -/
theorem Covered.enclosed {text : List Char} (h : Covered text) : Solid ('(' :: (text ++ [')'])) := by
  intro depth rest
  have hopen : argumentsFrom depth ('(' :: (text ++ [')'] ++ rest)) =
      prepend ['('] (argumentsFrom (depth + 1) (text ++ ([')'] ++ rest))) := by
    simp [argumentsFrom]
  have hclose : argumentsFrom (depth + 1) (')' :: rest) =
      prepend [')'] (argumentsFrom depth rest) := by
    simp [argumentsFrom]
  rw [List.cons_append, hopen, h, List.singleton_append, hclose, ← prepend_append, ← prepend_append]
  rfl

theorem covered_intercalate {blanks : List Char} (hb : Solid blanks) {texts : List (List Char)}
    (h : ∀ text ∈ texts, Solid text) : Covered ((',' :: blanks).intercalate texts) := by
  induction texts with
  | nil => exact solid_nil.covered
  | cons text texts ih =>
    obtain ⟨htext, htexts⟩ := List.forall_mem_cons.mp h
    cases texts with
    | nil =>
      rw [List.intercalate_singleton]
      exact htext.covered
    | cons text' texts =>
      rw [List.intercalate_cons_cons]
      exact (htext.covered.append (covered_comma.append hb.covered)).append (ih htexts)

theorem map_trim_prepend {blanks : List Char} (hb : ∀ c ∈ blanks, Text.isBlank c)
    {texts : List (List Char)} (h : texts ≠ []) :
    (prepend blanks texts).map Text.trim = texts.map Text.trim := by
  cases texts with
  | nil => exact absurd rfl h
  | cons first more =>
    rw [prepend, List.map_cons, List.map_cons, trim_blanks_append hb]

/-- Arguments that are joined by commas are read back. -/
theorem map_trim_argumentsFrom {blanks : List Char} (hb : ∀ c ∈ blanks, Text.isBlank c)
    (hsolid : Solid blanks) {texts : List (List Char)} (hne : texts ≠ [])
    (h : ∀ text ∈ texts, Solid text ∧ Text.Tight text) (rest : List Char) :
    (argumentsFrom 0 ((',' :: blanks).intercalate texts ++ ')' :: rest)).map Text.trim = texts := by
  induction texts with
  | nil => exact absurd rfl hne
  | cons text texts ih =>
    obtain ⟨⟨htext, htight⟩, htexts⟩ := List.forall_mem_cons.mp h
    cases texts with
    | nil =>
      have hclose : argumentsFrom 0 (')' :: rest) = [[]] := by simp [argumentsFrom]
      rw [List.intercalate_singleton, htext, hclose]
      simp [prepend, htight.trim_eq]
    | cons text' texts =>
      have hcomma : ∀ tail, argumentsFrom 0 (',' :: tail) = [] :: argumentsFrom 0 tail := by
        intro tail
        simp [argumentsFrom]
      rw [List.intercalate_cons_cons, List.append_assoc, List.append_assoc, htext, List.cons_append,
        hcomma, hsolid]
      have hrest := ih (List.cons_ne_nil _ _) htexts
      rw [prepend, List.append_nil, List.map_cons, htight.trim_eq,
        map_trim_prepend hb (argumentsFrom_ne_nil _ _), hrest]

theorem argumentsBehind_intercalate {blanks : List Char} (hb : ∀ c ∈ blanks, Text.isBlank c)
    (hsolid : Solid blanks) {texts : List (List Char)}
    (h : ∀ text ∈ texts, Solid text ∧ Text.Tight text) (hempty : texts ≠ [[]]) (rest : List Char) :
    argumentsBehind ((',' :: blanks).intercalate texts ++ ')' :: rest) = texts := by
  by_cases hne : texts = []
  · subst hne
    simp [argumentsBehind, argumentsFrom, Text.trim, Text.trimMatches]
  · unfold argumentsBehind
    rw [map_trim_argumentsFrom hb hsolid hne h]
    split
    · exact absurd rfl hempty
    · rfl

theorem argumentsBehind_close (rest : List Char) : argumentsBehind (')' :: rest) = [] := by
  simp [argumentsBehind, argumentsFrom, Text.trim, Text.trimMatches]

/-! ### Words and what they are applied to -/

/-- Whether a word is kept by the calculator, in letters of either case. -/
def isKeyword (word : String) : Bool :=
  String.ofList (word.toList.map Char.toLower) ∈ keywords

/-- A word in a text, and the arguments that it is applied to if it is. -/
abbrev Use := List Char × Option (List (List Char))

def argumentsOf? : List Char → Option (List (List Char))
  | '(' :: inside => some (argumentsBehind inside)
  | _ => none

/-- The words of a text in order with what they are applied to. The characters still to be passed
over belong to a word already found. -/
def usesFrom : Nat → List Char → List Use
  | _, [] => []
  | skip + 1, _ :: cs => usesFrom skip cs
  | 0, c :: cs =>
    if isWordStart c then
      let tail := cs.takeWhile isWordRest
      (c :: tail, argumentsOf? (cs.drop tail.length)) :: usesFrom tail.length cs
    else usesFrom 0 cs

theorem argumentsOf?_eq_none {cs : List Char} (h : '(' ∉ cs.head?) : argumentsOf? cs = none := by
  unfold argumentsOf?
  split
  · exact absurd rfl h
  · rfl

theorem isSome_argumentsOf? (cs : List Char) :
    (argumentsOf? cs).isSome = decide (cs.head? = some '(') := by
  unfold argumentsOf?
  split
  · rfl
  · next h =>
    cases cs with
    | nil => rfl
    | cons c cs =>
      have hc : c ≠ '(' := fun hc => h cs (by rw [hc])
      simp [hc]

/-- The words of a script are those that are read here. -/
theorem wordsFrom_eq (skip : Nat) (cs : List Char) :
    wordsFrom skip cs = (usesFrom skip cs).map fun use => (use.1, use.2.isSome) := by
  fun_induction usesFrom skip cs with
  | case1 => rw [wordsFrom]; rfl
  | case2 skip c cs ih => rw [wordsFrom, ih]
  | case3 c cs hc tail ih =>
    rw [wordsFrom, if_pos hc, List.map_cons, ← ih, isSome_argumentsOf?]
  | case4 c cs hc ih => rw [wordsFrom, if_neg hc, ih]

theorem usesFrom_eq_drop (skip : Nat) (cs : List Char) :
    usesFrom skip cs = usesFrom 0 (cs.drop skip) := by
  induction cs generalizing skip with
  | nil => cases skip <;> rfl
  | cons c cs ih =>
    cases skip with
    | zero => rfl
    | succ skip => exact ih skip

theorem usesFrom_cons_of_not_start {c : Char} (hc : isWordStart c = false) (cs : List Char) :
    usesFrom 0 (c :: cs) = usesFrom 0 cs := by
  simp [usesFrom, hc]

/-- Characters that begin no word are passed over. -/
theorem usesFrom_append_of_not_start {cs : List Char} (h : ∀ c ∈ cs, isWordStart c = false)
    (rest : List Char) : usesFrom 0 (cs ++ rest) = usesFrom 0 rest := by
  induction cs with
  | nil => rfl
  | cons c cs ih =>
    obtain ⟨hc, hcs⟩ := List.forall_mem_cons.mp h
    rw [List.cons_append, usesFrom_cons_of_not_start hc, ih hcs]

theorem usesFrom_separator {sep : List Char} (h : ∀ c ∈ sep, isWordRest c = false)
    (rest : List Char) : usesFrom 0 (sep ++ rest) = usesFrom 0 rest :=
  usesFrom_append_of_not_start (fun c hc => not_isWordStart (h c hc)) rest

theorem takeWhile_word {tail rest : List Char} (htail : ∀ d ∈ tail, isWordRest d)
    (hrest : ∀ c ∈ rest.head?, isWordRest c = false) :
    (tail ++ rest).takeWhile isWordRest = tail := by
  rw [List.takeWhile_append_of_pos htail]
  cases rest with
  | nil => simp
  | cons c rest => simp [hrest c rfl]

/-- A word is read up to where it ends. -/
theorem usesFrom_word {w rest : List Char} (hw : IsAsciiWord w)
    (hrest : ∀ c ∈ rest.head?, isWordRest c = false) :
    usesFrom 0 (w ++ rest) = (w, argumentsOf? rest) :: usesFrom 0 rest := by
  obtain ⟨c, tail, rfl, hc, htail⟩ := hw
  rw [List.cons_append, usesFrom, if_pos hc]
  simp only [takeWhile_word htail hrest, List.drop_left]
  rw [usesFrom_eq_drop, List.drop_left]

/-- Nothing is applied in a text without parentheses. -/
theorem eq_none_of_mem_usesFrom {cs : List Char} (h : '(' ∉ cs) {skip : Nat} {use : Use}
    (huse : use ∈ usesFrom skip cs) : use.2 = none := by
  fun_induction usesFrom skip cs with
  | case1 => cases huse
  | case2 skip c cs ih => exact ih (fun hmem => h (List.mem_cons_of_mem _ hmem)) huse
  | case3 c cs hc tail ih =>
    have hcs : '(' ∉ cs := fun hmem => h (List.mem_cons_of_mem _ hmem)
    rcases List.mem_cons.mp huse with rfl | huse
    · exact argumentsOf?_eq_none fun hmem => hcs (List.mem_of_mem_drop (List.mem_of_mem_head? hmem))
    · exact ih hcs huse
  | case4 c cs hc ih => exact ih (fun hmem => h (List.mem_cons_of_mem _ hmem)) huse

theorem isAsciiWord_of_mem_usesFrom {cs : List Char} {skip : Nat} {use : Use}
    (h : use ∈ usesFrom skip cs) : IsAsciiWord use.1 := by
  fun_induction usesFrom skip cs with
  | case1 => cases h
  | case2 skip c cs ih => exact ih h
  | case3 c cs hc tail ih =>
    rcases List.mem_cons.mp h with rfl | h
    · exact ⟨c, tail, rfl, hc, fun d hd => List.mem_takeWhile_imp hd⟩
    · exact ih h
  | case4 c cs hc ih => exact ih h

/-- The constants in conditions are the words that are applied to nothing, iterators and keywords
aside. -/
theorem mem_constantsIn {iterators : List String} {conditions : List Char} {name : String} :
    name ∈ constantsIn iterators conditions ↔
      (name.toList, none) ∈ usesFrom 0 conditions ∧ name ∉ iterators ∧ isKeyword name = false := by
  simp only [constantsIn, wordsFrom_eq, List.mem_map, List.mem_filter, Bool.and_eq_true,
    Bool.not_eq_true', decide_eq_false_iff_not]
  constructor
  · rintro ⟨_, ⟨⟨⟨word, arguments⟩, hmem, rfl⟩, ⟨hcalled, hiterator⟩, hkeyword⟩, rfl⟩
    have hnone : arguments = none := by simpa using hcalled
    subst hnone
    rw [isKeyword, String.toList_ofList]
    exact ⟨hmem, hiterator, decide_eq_false hkeyword⟩
  · rintro ⟨hmem, hiterator, hkeyword⟩
    refine ⟨(name.toList, false), ⟨⟨_, hmem, rfl⟩, ⟨rfl, ?_⟩, ?_⟩, String.ofList_toList⟩
    · rwa [String.ofList_toList]
    · exact of_decide_eq_false hkeyword

theorem isAsciiWord_of_mem_constantsIn {iterators : List String} {conditions : List Char} {name : String}
    (h : name ∈ constantsIn iterators conditions) : IsAsciiWord name.toList :=
  isAsciiWord_of_mem_usesFrom (mem_constantsIn.mp h).1

/-- A text whose words are the given ones whatever follows it, unless that goes on with a word or
opens an application. -/
def UsesOf (text : List Char) (uses : List Use) : Prop :=
  ∀ rest, Ends rest → usesFrom 0 (text ++ rest) = uses ++ usesFrom 0 rest

/-- Characters that are in no word, and that open no application. -/
structure Separates (sep : List Char) : Prop where
  ne_nil : sep ≠ []
  ascii : ∀ c ∈ sep, Text.isAscii c
  noWord : ∀ c ∈ sep, isWordRest c = false
  noOpening : '(' ∉ sep

theorem separates_of_all {sep : List Char} (hne : sep ≠ [])
    (h : sep.all fun c => Text.isAscii c && !isWordRest c && c != '(') : Separates sep := by
  have hall : ∀ c ∈ sep, (Text.isAscii c ∧ isWordRest c = false) ∧ c ≠ '(' := by
    simpa using List.all_eq_true.mp h
  exact ⟨hne, fun c hc => (hall c hc).1.1, fun c hc => (hall c hc).1.2,
    fun hmem => (hall '(' hmem).2 rfl⟩

theorem Separates.ends {sep : List Char} (h : Separates sep) (rest : List Char) :
    Ends (sep ++ rest) := by
  cases sep with
  | nil => exact absurd rfl h.ne_nil
  | cons c sep =>
    refine ends_cons (h.noWord c List.mem_cons_self) ?_ _
    rintro rfl
    exact h.noOpening List.mem_cons_self

namespace UsesOf

variable {a b : List Char} {us vs : List Use}

theorem eq (h : UsesOf a us) : usesFrom 0 a = us := by
  have ha := h [] ends_nil
  rwa [List.append_nil, usesFrom, List.append_nil] at ha

theorem nil : UsesOf [] [] :=
  fun _ _ => rfl

theorem word {w : List Char} (hw : IsAsciiWord w) : UsesOf w [(w, none)] := by
  intro rest hrest
  have hnone : argumentsOf? rest = none := argumentsOf?_eq_none fun h => (hrest '(' h).2 rfl
  rw [usesFrom_word hw fun c hc => (hrest c hc).1, hnone]
  rfl

theorem separated {sep : List Char} (ha : UsesOf a us) (hsep : Separates sep) (hb : UsesOf b vs) :
    UsesOf (a ++ sep ++ b) (us ++ vs) := by
  intro rest hrest
  rw [List.append_assoc, List.append_assoc, ha _ (hsep.ends _), usesFrom_separator hsep.noWord,
    hb rest hrest, List.append_assoc]

/-- A separator before a text shows no word. -/
theorem behind {sep : List Char} (hsep : ∀ c ∈ sep, isWordRest c = false) (ha : UsesOf a us) :
    UsesOf (sep ++ a) us := by
  intro rest hrest
  rw [List.append_assoc, usesFrom_separator hsep, ha rest hrest]

theorem enclosed (ha : UsesOf a us) : UsesOf ('(' :: (a ++ [')'])) us := by
  intro rest _
  have hclose : usesFrom 0 (a ++ ')' :: rest) = us ++ usesFrom 0 rest := by
    rw [ha _ (ends_cons rfl (by decide) _), usesFrom_cons_of_not_start rfl]
  rw [List.cons_append, usesFrom_cons_of_not_start rfl, List.append_assoc]
  exact hclose

/-- A word that is applied to arguments. -/
theorem applied {f : List Char} {arguments : List (List Char)} (hf : IsAsciiWord f) (ha : UsesOf a us)
    (harguments : ∀ rest, argumentsBehind (a ++ ')' :: rest) = arguments) :
    UsesOf (f ++ '(' :: (a ++ [')'])) ((f, some arguments) :: us) := by
  intro rest hrest
  have hstop : ∀ c ∈ ('(' :: (a ++ [')'] ++ rest)).head?, isWordRest c = false := by
    intro c hc
    cases hc
    rfl
  have hread : argumentsOf? ('(' :: (a ++ [')'] ++ rest)) = some arguments := by
    rw [argumentsOf?, List.append_assoc, List.singleton_append, harguments]
  rw [List.append_assoc, List.cons_append, usesFrom_word hf hstop, hread]
  exact congrArg _ (ha.enclosed rest hrest)

/-- Texts with separators between them are read one by one. -/
theorem joined {α : Type} {sep : List Char} (hsep : Separates sep) {text : α → List Char}
    {uses : α → List Use} {xs : List α} (h : ∀ x ∈ xs, UsesOf (text x) (uses x)) :
    UsesOf (sep.intercalate (xs.map text)) (xs.flatMap uses) := by
  induction xs with
  | nil => exact nil
  | cons x xs ih =>
    obtain ⟨hx, hxs⟩ := List.forall_mem_cons.mp h
    cases xs with
    | nil =>
      rw [List.flatMap_cons, List.flatMap_nil, List.append_nil, List.map_singleton,
        List.intercalate_singleton]
      exact hx
    | cons x' xs =>
      rw [List.map_cons, List.map_cons, List.intercalate_cons_cons]
      exact hx.separated hsep (ih hxs)

/-- A text without parentheses is read to its end. The induction is on the length, since a word is
passed over as a whole. -/
theorem of_not_mem (h : '(' ∉ a) : UsesOf a (usesFrom 0 a) := by
  induction hn : a.length using Nat.strong_induction_on generalizing a with
  | _ n ih =>
    cases a with
    | nil => exact nil
    | cons c cs =>
      simp only [List.mem_cons, not_or] at h
      cases hc : isWordStart c with
      | false =>
        intro rest hrest
        have hcs := ih cs.length (by rw [← hn]; simp) h.2 rfl rest hrest
        rw [List.cons_append, usesFrom_cons_of_not_start hc, usesFrom_cons_of_not_start hc, hcs]
      | true =>
        obtain ⟨tail, behind, rfl, hword, hstop⟩ := exists_word_append hc cs
        have hparen : '(' ∉ behind := fun hmem => h.2 (List.mem_append_right _ hmem)
        have hlt : behind.length < n := by
          rw [← hn, List.length_cons, List.length_append]
          omega
        have hread : ∀ rest, Ends rest → usesFrom 0 (c :: (tail ++ behind) ++ rest) =
            (c :: tail, none) :: (usesFrom 0 behind ++ usesFrom 0 rest) := by
          intro rest hrest
          rw [← List.cons_append, List.append_assoc, word hword _ (hrest.append hstop hparen),
            ih behind.length hlt hparen rfl rest hrest]
          rfl
        have hwhole := hread [] ends_nil
        rw [List.append_nil, show usesFrom 0 [] = [] from rfl, List.append_nil] at hwhole
        intro rest hrest
        rw [hread rest hrest, hwhole]
        rfl

end UsesOf

/-! ### Names that are mentioned -/

/-- Whether a character stands between the words that are mentioned. -/
def isBreak (c : Char) : Bool :=
  !(Text.isAlphanumeric c || c = '_')

theorem isBreak_eq_false {c : Char} (h : isWordRest c) : isBreak c = false := by
  have hascii := isAscii_of_isWordRest h
  unfold isWordRest at h
  simp [isBreak, Text.isAlphanumeric, hascii, h]

theorem isBreak_of_not_rest {c : Char} (hascii : Text.isAscii c) (h : isWordRest c = false) :
    isBreak c := by
  unfold isWordRest at h
  simp [isBreak, Text.isAlphanumeric, hascii, h]

theorem mentions_iff {text : List Char} {name : String} :
    mentions text name ↔ name.toList ∈ text.splitOnP isBreak := by
  change ((text.splitOnP isBreak).any (· = name.toList) = true) ↔ _
  simp

theorem mentions_word {w : List Char} (h : ∀ c ∈ w, isWordRest c) (name : String) :
    mentions w name ↔ name.toList = w := by
  rw [mentions_iff, List.splitOnP_eq_singleton fun c hc => isBreak_eq_false (h c hc),
    List.mem_singleton]

theorem mentions_append_cons {c : Char} (hc : isBreak c) {a b : List Char} {name : String} :
    mentions (a ++ c :: b) name ↔ mentions a name ∨ mentions b name := by
  rw [mentions_iff, mentions_iff, mentions_iff, List.splitOnP_append_cons _ _ hc, List.mem_append]

theorem not_mentions_nil {name : String} (hname : name.toList ≠ []) : ¬ mentions [] name := by
  rw [mentions_word (by simp)]
  exact hname

theorem mentions_separated {a sep b : List Char} {name : String} (hname : name.toList ≠ [])
    (h : Separates sep) : mentions (a ++ sep ++ b) name ↔ mentions a name ∨ mentions b name := by
  have hbreak : ∀ c ∈ sep, isBreak c := fun c hc => isBreak_of_not_rest (h.ascii c hc) (h.noWord c hc)
  have hskip : ∀ {sep : List Char}, (∀ c ∈ sep, isBreak c) →
      (mentions (sep ++ b) name ↔ mentions b name) := by
    intro sep hbreak
    induction sep with
    | nil => rfl
    | cons c sep ih =>
      obtain ⟨hc, hbreak⟩ := List.forall_mem_cons.mp hbreak
      rw [List.cons_append, ← List.nil_append (c :: _), mentions_append_cons hc, ih hbreak]
      simp [not_mentions_nil hname]
  cases sep with
  | nil => exact absurd rfl h.ne_nil
  | cons c sep =>
    obtain ⟨hc, hbreak⟩ := List.forall_mem_cons.mp hbreak
    rw [List.append_assoc, List.cons_append, mentions_append_cons hc, hskip hbreak]

theorem mentions_intercalate {sep : List Char} {name : String} (hname : name.toList ≠ [])
    (hsep : Separates sep) (texts : List (List Char)) :
    mentions (sep.intercalate texts) name ↔ ∃ text ∈ texts, mentions text name := by
  induction texts with
  | nil => simp [not_mentions_nil hname]
  | cons text texts ih =>
    rw [List.exists_mem_cons_iff]
    cases texts with
    | nil => simp
    | cons text' texts => rw [List.intercalate_cons_cons, mentions_separated hname hsep, ih]

end LoopNest.Script
