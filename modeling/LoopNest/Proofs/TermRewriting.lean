import LoopNest.Proofs.FunctionNames
import LoopNest.Proofs.TermTexts

/-!
# How the calls in a term are rewritten

A call is found where a word has parentheses behind it and none inside them. So an application whose
arguments are written without parentheses is rewritten as a whole, and any other one is left with its
name while the calls inside it are rewritten. The text of a term is rewritten piece by piece in this
way, whatever stands behind it.
-/

namespace LoopNest.Script

/-! ### Where calls are found -/

theorem drop_length_takeWhile (p : Char → Bool) (cs : List Char) :
    cs.drop (cs.takeWhile p).length = cs.dropWhile p := by
  have hsplit : cs.takeWhile p ++ cs.dropWhile p = cs := List.takeWhile_append_dropWhile
  exact (congrArg (List.drop _) hsplit.symm).trans List.drop_left

theorem callHere?_of_not_start {c : Char} (h : isWordStart c = false) (cs : List Char) :
    callHere? (c :: cs) = none := by
  simp [callHere?, h]

/-- Without a left parenthesis behind the word there is no call. -/
theorem callHere?_of_not_opened {cs : List Char} (h : '(' ∉ (cs.dropWhile isWordRest).head?)
    (c : Char) : callHere? (c :: cs) = none := by
  unfold callHere?
  dsimp only
  rw [drop_length_takeWhile]
  split
  · split
    · next inside heq =>
      rw [heq] at h
      exact absurd rfl h
    · rfl
  · rfl

/-- The arguments of a call end at the first parenthesis. -/
theorem takeWhile_arguments {args : List Char} (hleft : '(' ∉ args) (hright : ')' ∉ args)
    {c : Char} (hc : c = '(' ∨ c = ')') (rest : List Char) :
    (args ++ c :: rest).takeWhile (fun d => d != '(' && d != ')') = args := by
  have hall : ∀ d ∈ args, (d != '(' && d != ')') = true := by
    intro d hd
    have hne : d ≠ '(' ∧ d ≠ ')' := ⟨fun h => hleft (h ▸ hd), fun h => hright (h ▸ hd)⟩
    simpa using hne
  rw [List.takeWhile_append_of_pos hall]
  rcases hc with rfl | rfl <;> simp

/-- What is found at a word with a left parenthesis behind it, by the next parenthesis. -/
theorem callHere?_word {c : Char} {tail args : List Char} (hc : isWordStart c)
    (htail : ∀ d ∈ tail, isWordRest d) (hleft : '(' ∉ args) (hright : ')' ∉ args) {stop : Char}
    (hstop : stop = '(' ∨ stop = ')') (rest : List Char) :
    callHere? (c :: (tail ++ '(' :: (args ++ stop :: rest))) =
      if stop = ')' then some (c :: tail, args) else none := by
  have hparen : ∀ d ∈ ('(' :: (args ++ stop :: rest)).head?, isWordRest d = false := by
    intro d hd
    cases hd
    rfl
  rw [callHere?, if_pos hc]
  simp only [takeWhile_word htail hparen, List.drop_left, takeWhile_arguments hleft hright hstop]
  rcases hstop with rfl | rfl <;> simp

/-- No parenthesis is closed before one is opened. -/
def Opened (text : List Char) : Prop :=
  ')' ∉ text.takeWhile (· != '(')

theorem opened_of_not_mem {text : List Char} (h : ')' ∉ text) : Opened text :=
  fun hmem => h ((List.takeWhile_prefix _).subset hmem)

theorem opened_cons (rest : List Char) : Opened ('(' :: rest) := by
  simp [Opened]

theorem Opened.append {a b : List Char} (ha : Opened a) (hb : Opened b) : Opened (a ++ b) := by
  unfold Opened at *
  rw [List.takeWhile_append]
  split
  · next hall =>
    rw [(List.takeWhile_prefix _).eq_of_length hall] at ha
    exact fun hmem => (List.mem_append.mp hmem).elim ha hb
  · exact ha

theorem opened_intercalate {sep : List Char} (hsep : Opened sep) {texts : List (List Char)}
    (h : ∀ text ∈ texts, Opened text) : Opened (sep.intercalate texts) := by
  induction texts with
  | nil => exact opened_of_not_mem (by simp)
  | cons text texts ih =>
    obtain ⟨htext, htexts⟩ := List.forall_mem_cons.mp h
    cases texts with
    | nil => rwa [List.intercalate_singleton]
    | cons text' texts =>
      rw [List.intercalate_cons_cons]
      exact (htext.append hsep).append (ih htexts)

theorem Opened.not_mem {text : List Char} (h : Opened text) (hleft : '(' ∉ text) : ')' ∉ text := by
  have hall : text.takeWhile (· != '(') = text :=
    List.takeWhile_eq_self_iff.mpr (Text.bne_of_not_mem hleft)
  rwa [Opened, hall] at h

/-- Before the first parenthesis of a text there is none of either kind. -/
theorem Opened.exists_first {text : List Char} (h : Opened text) (hleft : '(' ∈ text) :
    ∃ x y, text = x ++ '(' :: y ∧ '(' ∉ x ∧ ')' ∉ x := by
  obtain ⟨x, y, rfl, hx⟩ := List.eq_append_cons_of_mem hleft
  rw [Opened, List.takeWhile_append_of_pos (Text.bne_of_not_mem hx)] at h
  exact ⟨x, y, rfl, hx, by simpa using h⟩

/-! ### Texts that are rewritten piece by piece -/

theorem flatMap_written_plain (vs : Variants) (cs : List Char) :
    (cs.map Piece.plain).flatMap (Piece.written vs) = cs := by
  rw [List.flatMap_map]
  exact List.flatMap_singleton' cs

theorem callsOf_map_plain (cs : List Char) : callsOf (cs.map .plain) = [] := by
  induction cs with
  | nil => rfl
  | cons c cs ih => rwa [List.map_cons, callsOf_plain]

theorem piecesFrom_eq_drop (skip : Nat) (cs : List Char) :
    piecesFrom skip cs = piecesFrom 0 (cs.drop skip) := by
  induction cs generalizing skip with
  | nil => cases skip <;> rfl
  | cons c cs ih =>
    cases skip with
    | zero => rfl
    | succ skip => exact ih skip

theorem piecesFrom_of_none {c : Char} {cs : List Char} (h : callHere? (c :: cs) = none) :
    piecesFrom 0 (c :: cs) = .plain c :: piecesFrom 0 cs := by
  rw [piecesFrom, h]

theorem piecesFrom_separator {sep : List Char} (h : ∀ c ∈ sep, isWordRest c = false)
    (rest : List Char) : piecesFrom 0 (sep ++ rest) = sep.map .plain ++ piecesFrom 0 rest := by
  induction sep with
  | nil => rfl
  | cons c sep ih =>
    obtain ⟨hc, hsep⟩ := List.forall_mem_cons.mp h
    rw [List.cons_append, piecesFrom_of_none (callHere?_of_not_start (not_isWordStart hc) _), ih hsep]
    rfl

/-- The pieces of a text whatever follows it, unless that goes on with a word or opens an
application. -/
def CutsInto (text : List Char) (ps : List Piece) : Prop :=
  ∀ rest, Ends rest → piecesFrom 0 (text ++ rest) = ps ++ piecesFrom 0 rest

namespace CutsInto

variable {a b : List Char} {ps qs : List Piece}

theorem eq (h : CutsInto a ps) : piecesFrom 0 a = ps := by
  have ha := h [] ends_nil
  rwa [List.append_nil, piecesFrom, List.append_nil] at ha

theorem nil : CutsInto [] [] :=
  fun _ _ => rfl

/-- There is no call in a text without parentheses. -/
theorem plain (h : '(' ∉ a) : CutsInto a (a.map .plain) := by
  intro rest hrest
  induction a with
  | nil => rfl
  | cons c cs ih =>
    simp only [List.mem_cons, not_or] at h
    have hopened : '(' ∉ ((cs ++ rest).dropWhile isWordRest).head? := by
      rw [List.dropWhile_append]
      -- the word may reach the end of the text, and then the rest decides
      split
      · cases rest with
        | nil => simp
        | cons d rest =>
          obtain ⟨hd, hne⟩ := hrest d rfl
          rw [List.dropWhile_cons_of_neg (by simp [hd])]
          simpa using hne
      · next hne =>
        rw [List.head?_append_of_ne_nil _ (by simpa using hne)]
        exact fun hmem => h.2 ((List.dropWhile_suffix _).subset (List.mem_of_mem_head? hmem))
    rw [List.cons_append, piecesFrom_of_none (callHere?_of_not_opened hopened c), ih h.2]
    rfl

theorem separated {sep : List Char} (ha : CutsInto a ps) (hsep : Separates sep)
    (hb : CutsInto b qs) : CutsInto (a ++ sep ++ b) (ps ++ sep.map .plain ++ qs) := by
  intro rest hrest
  rw [List.append_assoc, List.append_assoc, ha _ (hsep.ends _), piecesFrom_separator hsep.noWord,
    hb rest hrest]
  simp

theorem enclosed (ha : CutsInto a ps) :
    CutsInto ('(' :: (a ++ [')'])) (.plain '(' :: (ps ++ [.plain ')'])) := by
  intro rest _
  have hclose : piecesFrom 0 (a ++ ')' :: rest) = ps ++ .plain ')' :: piecesFrom 0 rest := by
    rw [ha _ (ends_cons rfl (by decide) _), piecesFrom_of_none (callHere?_of_not_start rfl _)]
  rw [List.cons_append, piecesFrom_of_none (callHere?_of_not_start rfl _), List.append_assoc,
    List.singleton_append, hclose]
  simp

/-- A word with parentheses behind it and none inside them. -/
theorem call {f : List Char} (hf : IsAsciiWord f) (hleft : '(' ∉ a) (hright : ')' ∉ a) :
    CutsInto (f ++ '(' :: (a ++ [')'])) [.call ⟨f, a⟩] := by
  intro rest _
  obtain ⟨c, tail, rfl, hc, htail⟩ := hf
  have hfound := callHere?_word hc htail hleft hright (.inr rfl) rest
  have htext : c :: tail ++ '(' :: (a ++ [')']) ++ rest =
      c :: (tail ++ '(' :: (a ++ ')' :: rest)) := by simp
  have hdrop : (tail ++ '(' :: (a ++ ')' :: rest)).drop ((c :: tail).length + a.length + 1) =
      rest := by
    have hlength : (c :: tail).length + a.length + 1 = (tail ++ '(' :: (a ++ [')'])).length := by
      simp
      omega
    have hcut : tail ++ '(' :: (a ++ ')' :: rest) = (tail ++ '(' :: (a ++ [')'])) ++ rest := by simp
    rw [hlength, hcut, List.drop_left]
  rw [htext, piecesFrom, hfound, if_pos rfl]
  dsimp only
  rw [piecesFrom_eq_drop, hdrop]
  rfl

/-- A word that is applied to something with parentheses in it is left as it is. -/
theorem applied {f x y : List Char} (hf : IsAsciiWord f) (hx : '(' ∉ x ∧ ')' ∉ x) (ha : a = x ++ '(' :: y)
    (h : CutsInto a ps) :
    CutsInto (f ++ '(' :: (a ++ [')'])) (f.map .plain ++ .plain '(' :: (ps ++ [.plain ')'])) := by
  intro rest hrest
  have hword : ∀ w : List Char, (∀ c ∈ w, isWordRest c) →
      piecesFrom 0 (w ++ ('(' :: (a ++ [')']) ++ rest)) =
        w.map .plain ++ piecesFrom 0 ('(' :: (a ++ [')']) ++ rest) := by
    intro w hw
    induction w with
    | nil => rfl
    | cons c w ih =>
      obtain ⟨-, hw⟩ := List.forall_mem_cons.mp hw
      have hnone : callHere? (c :: (w ++ ('(' :: (a ++ [')']) ++ rest))) = none := by
        cases hc : isWordStart c with
        | false => exact callHere?_of_not_start hc _
        | true =>
          have hfound := callHere?_word hc hw hx.1 hx.2 (.inl rfl) (y ++ ')' :: rest)
          simpa [ha] using hfound
      rw [List.cons_append, piecesFrom_of_none hnone, ih hw]
      rfl
  rw [List.append_assoc, hword f hf.rest, h.enclosed rest hrest]
  simp

end CutsInto

/-- A text that is rewritten to a text which depends on the table, with the calls in it. -/
def RewritesTo (text : List Char) (written : Variants → List Char) (calls : List Call) : Prop :=
  ∃ ps, CutsInto text ps ∧ (∀ vs, ps.flatMap (Piece.written vs) = written vs) ∧ callsOf ps = calls

namespace RewritesTo

variable {a b : List Char} {v w : Variants → List Char} {cs ds : List Call}

theorem pieces (h : RewritesTo a v cs) :
    (∀ vs, (piecesFrom 0 a).flatMap (Piece.written vs) = v vs) ∧ callsOf (piecesFrom 0 a) = cs := by
  obtain ⟨ps, hcuts, hwritten, hcalls⟩ := h
  rw [hcuts.eq]
  exact ⟨hwritten, hcalls⟩

theorem plain (h : '(' ∉ a) : RewritesTo a (fun _ => a) [] :=
  ⟨_, .plain h, fun vs => flatMap_written_plain vs a, callsOf_map_plain a⟩

theorem separated {sep : List Char} (ha : RewritesTo a v cs) (hsep : Separates sep)
    (hb : RewritesTo b w ds) :
    RewritesTo (a ++ sep ++ b) (fun vs => v vs ++ sep ++ w vs) (cs ++ ds) := by
  obtain ⟨ps, hps, hv, rfl⟩ := ha
  obtain ⟨qs, hqs, hw, rfl⟩ := hb
  refine ⟨_, hps.separated hsep hqs, fun vs => ?_, ?_⟩
  · rw [List.flatMap_append, List.flatMap_append, hv, hw, flatMap_written_plain]
  · rw [callsOf_append, callsOf_append, callsOf_map_plain, List.append_nil]

theorem enclosed (ha : RewritesTo a v cs) :
    RewritesTo ('(' :: (a ++ [')'])) (fun vs => '(' :: (v vs ++ [')'])) cs := by
  obtain ⟨ps, hps, hv, rfl⟩ := ha
  refine ⟨_, hps.enclosed, fun vs => ?_, ?_⟩
  · rw [List.flatMap_cons, List.flatMap_append, hv]
    rfl
  · rw [callsOf_plain, callsOf_append]
    exact List.append_nil _

theorem call {f : List Char} (hf : IsAsciiWord f) (hleft : '(' ∉ a) (hright : ')' ∉ a) :
    RewritesTo (f ++ '(' :: (a ++ [')'])) (fun vs => Piece.written vs (.call ⟨f, a⟩)) [⟨f, a⟩] :=
  ⟨_, .call hf hleft hright, fun _ => List.append_nil _, rfl⟩

theorem applied {f x y : List Char} (hf : IsAsciiWord f) (hx : '(' ∉ x ∧ ')' ∉ x) (hxy : a = x ++ '(' :: y)
    (ha : RewritesTo a v cs) :
    RewritesTo (f ++ '(' :: (a ++ [')'])) (fun vs => f ++ '(' :: (v vs ++ [')'])) cs := by
  obtain ⟨ps, hps, hv, rfl⟩ := ha
  refine ⟨_, hps.applied hf hx hxy, fun vs => ?_, ?_⟩
  · rw [List.flatMap_append, flatMap_written_plain, List.flatMap_cons, List.flatMap_append, hv]
    rfl
  · rw [callsOf_append, callsOf_map_plain, List.nil_append, callsOf_plain, callsOf_append]
    exact List.append_nil _

/-- Texts with separators between them are rewritten one by one. -/
theorem joined {α : Type} {sep : List Char} (hsep : Separates sep) {text : α → List Char}
    {written : Variants → α → List Char} {calls : α → List Call} {xs : List α}
    (h : ∀ x ∈ xs, RewritesTo (text x) (fun vs => written vs x) (calls x)) :
    RewritesTo (sep.intercalate (xs.map text)) (fun vs => sep.intercalate (xs.map (written vs)))
      (xs.flatMap calls) := by
  induction xs with
  | nil => exact ⟨[], .nil, fun _ => rfl, rfl⟩
  | cons x xs ih =>
    obtain ⟨hx, hxs⟩ := List.forall_mem_cons.mp h
    cases xs with
    | nil =>
      simp only [List.flatMap_cons, List.flatMap_nil, List.append_nil, List.map_singleton,
        List.intercalate_singleton]
      exact hx
    | cons x' xs =>
      simp only [List.map_cons, List.intercalate_cons_cons]
      exact hx.separated hsep (ih hxs)

end RewritesTo

end LoopNest.Script

namespace LoopNest.Term

open Script

/-! ### Terms -/

/-- The call that an application is written as. -/
def callOf (function : String) (args : List Term) : Call :=
  ⟨function.toList, argumentText args⟩

def grouped (needed : Bool) (text : List Char) : List Char :=
  if needed then '(' :: (text ++ [')']) else text

mutual

/-- The text of a term with its calls written by a table of functions. -/
def emitted (vs : Variants) : Term → List Char
  | iterator name => name.toList
  | constant name => name.toList
  | literal text => text.toList
  | apply function args =>
    if '(' ∈ argumentText args then
      function.toList ++ '(' :: ([',', ' '].intercalate (emittedAll vs args) ++ [')'])
    else Piece.written vs (.call (callOf function args))
  | arith left op right =>
    grouped (groupsLeft op left) (left.emitted vs) ++ op.spaced ++
      grouped (groupsRight op right) (right.emitted vs)

def emittedAll (vs : Variants) : List Term → List (List Char)
  | [] => []
  | t :: ts => t.emitted vs :: emittedAll vs ts

end

mutual

/-- The calls in the text of a term, in order. -/
def calls : Term → List Call
  | apply function args =>
    if '(' ∈ argumentText args then callsAll args else [callOf function args]
  | arith left _ right => left.calls ++ right.calls
  | _ => []

def callsAll : List Term → List Call
  | [] => []
  | t :: ts => t.calls ++ callsAll ts

end

theorem emittedAll_eq (vs : Variants) (ts : List Term) : emittedAll vs ts = ts.map (emitted vs) := by
  induction ts with
  | nil => rfl
  | cons t ts ih => rw [emittedAll, ih, List.map_cons]

theorem callsAll_eq (ts : List Term) : callsAll ts = ts.flatMap calls := by
  induction ts with
  | nil => rfl
  | cons t ts ih => rw [callsAll, ih, List.flatMap_cons]

theorem rewritesTo_group {t : Term} (h : RewritesTo t.text.toList (t.emitted ·) t.calls)
    (needed : Bool) :
    RewritesTo (group needed t.text).toList (fun vs => grouped needed (t.emitted vs)) t.calls := by
  rw [toList_group]
  cases needed with
  | false => exact h
  | true => exact h.enclosed

/-- In the text of a term no parenthesis is closed before one is opened. -/
theorem Plain.opened {t : Term} (h : t.Plain) : Opened t.text.toList := by
  have hgroup : ∀ {t : Term} (needed : Bool), Opened t.text.toList →
      Opened (group needed t.text).toList := by
    intro t needed ht
    rw [toList_group]
    cases needed with
    | false => exact ht
    | true => exact opened_cons _
  induction h with
  | iterator h => exact opened_of_not_mem (h.not_mem rfl)
  | constant h => exact opened_of_not_mem (h.not_mem rfl)
  | literal h =>
    exact opened_of_not_mem fun hmem => absurd (isNumeralChar_of_isLiteral h _ hmem) (by decide)
  | apply hf =>
    rw [toList_text_apply]
    exact (opened_of_not_mem (hf.not_mem rfl)).append (opened_cons _)
  | @arith left right op _ _ ihl ihr =>
    have hop : Opened op.spaced := by cases op <;> exact opened_of_not_mem (by decide)
    rw [toList_text_arith]
    exact ((hgroup _ ihl).append hop).append (hgroup _ ihr)

theorem opened_argumentText {args : List Term} (h : ∀ t ∈ args, t.Plain) :
    Opened (argumentText args) := by
  rw [argumentText_eq]
  exact opened_intercalate (opened_of_not_mem (by decide))
    (List.forall_mem_map.mpr fun t ht => (h t ht).opened)

/-- The text of a term is rewritten to what its applications are written as. -/
theorem Plain.rewritesTo {t : Term} (h : t.Plain) :
    RewritesTo t.text.toList (t.emitted ·) t.calls := by
  induction h with
  | iterator h => exact .plain (h.not_mem rfl)
  | constant h => exact .plain (h.not_mem rfl)
  | literal h => exact .plain fun hmem => absurd (isNumeralChar_of_isLiteral h _ hmem) (by decide)
  | @apply function args hf hargs ih =>
    have hopened := opened_argumentText hargs
    rw [toList_text_apply]
    by_cases hleft : '(' ∈ argumentText args
    · obtain ⟨x, y, hxy, hx⟩ := hopened.exists_first hleft
      have hinside : RewritesTo (argumentText args)
          (fun vs => [',', ' '].intercalate (args.map (emitted vs))) (args.flatMap calls) := by
        rw [argumentText_eq]
        exact .joined separates_listed ih
      simp only [emitted, calls, if_pos hleft, emittedAll_eq, callsAll_eq]
      exact hinside.applied hf hx hxy
    · simp only [emitted, calls, if_neg hleft]
      exact .call hf hleft (hopened.not_mem hleft)
  | @arith left right op _ _ ihl ihr =>
    rw [toList_text_arith]
    exact (rewritesTo_group ihl _).separated op.separates_spaced (rewritesTo_group ihr _)

end LoopNest.Term
