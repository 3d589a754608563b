import LoopNest.Proofs.StatementTokens

/-!
# Definitions substitute whole tokens

The statement in a definition is made by two passes over a text, the second over what the first has
written. On the tokens of a statement the two are one substitution: the tokens of pointers and of
iterators are replaced, and every other token stays, a name or a number that only contains one of
these names included.
-/

namespace LoopNest

open Scan

namespace C

/-- The tokens that stand for a token in a definition. -/
def Token.substituted (iterators pointers : List String) : Token → List Token
  | .name n =>
    if n ∈ pointers then [.symbol "(", .symbol "*", .name n, .symbol ")"]
    else if n ∈ iterators then [.symbol "(", .name n, .symbol ")"]
    else [.name n]
  | .number text => [.number text]
  | .symbol text => [.symbol text]

/-- The first pass leaves nothing for the second one to find but names that are no pointers. -/
theorem Token.flatMap_wrapIn {iterators pointers : List String}
    (h : ∀ n ∈ pointers, n ∉ iterators) (t : Token) :
    (t.wrapIn pointers [.symbol "(", .symbol "*"] [.symbol ")"]).flatMap
      (wrapIn iterators [.symbol "("] [.symbol ")"]) = t.substituted iterators pointers := by
  cases t with
  | name n =>
    by_cases hp : n ∈ pointers
    · simp [wrapIn, substituted, hp, h n hp]
    · by_cases hi : n ∈ iterators <;> simp [wrapIn, substituted, hp, hi]
  | number | symbol => rfl

/-- The tokens of the statement in a definition are substituted. -/
theorem reads_substituted {iterators pointers : List String} {text : String} {ws : List Token}
    (hi : ∀ n ∈ iterators, Text.IsWord n.toList) (hp : ∀ n ∈ pointers, Text.IsWord n.toList)
    (hdisjoint : ∀ n ∈ pointers, n ∉ iterators) (h : lexer.Reads () text.toList ws () [])
    (hws : ∀ w ∈ ws, w.IsPlain) :
    lexer.Reads () (Define.protectIterators iterators (Define.dereference pointers text)).toList
      (ws.flatMap (Token.substituted iterators pointers)) () [] := by
  have hdefined := reads_defined hi hp h hws
  rwa [List.flatMap_assoc, funext (Token.flatMap_wrapIn hdisjoint)] at hdefined

end C

/-- A statement of a program with names of word characters is translated to a text of plain tokens. -/
theorem Stmt.Proper.exists_plain {s : Stmt} {text : String} (h : s.Proper)
    (hw : ∀ n ∈ s.identifiers, IsWordy n) (ht : s.cText = .ok text) :
    ∃ ws, C.lexer.Reads () text.toList ws () [] ∧ ∀ w ∈ ws, w.IsPlain := by
  obtain ⟨ws, hspells, hclean⟩ :=
    (h.spelt_of_uncalled (P := fun _ => True) hw (fun _ _ => trivial) ht).shows
  exact ⟨ws, by simpa using hspells () [] Lexer.bounded_nil, hclean.plain⟩

/-- The definition of a statement has in its braces the tokens of the statement, of which those of
pointers and iterators are substituted, and no others. -/
theorem Define.line_substitutes {source : String} {p : Program} {s : Stmt} {text : String}
    (hparse : Program.parse source = .ok p) (hs : s ∈ p.body) (ht : s.cText = .ok text)
    {iterators pointers : List String} (hi : ∀ n ∈ iterators, Text.IsWord n.toList)
    (hp : ∀ n ∈ pointers, Text.IsWord n.toList) (hdisjoint : ∀ n ∈ pointers, n ∉ iterators)
    (hw : ∀ n ∈ s.identifiers, IsWordy n) (k : Nat) :
    ∃ ws body, (∀ us, C.lexer.Reads () text.toList us () [] ↔ us = ws) ∧
      Define.line k iterators pointers text = "#define " ++ Define.name k ++ "(" ++
        ", ".intercalate iterators ++ ") \x7b " ++ body ++ "; \x7d" ∧
      (∀ us, C.lexer.Reads () body.toList us () [] ↔
        us = ws.flatMap (C.Token.substituted iterators pointers)) ∧
      ∀ us, C.lexer.Reads () ("\x7b " ++ body ++ "; \x7d").toList us () [] ↔
        us = .symbol "\x7b" :: (ws.flatMap (C.Token.substituted iterators pointers) ++
          [.symbol ";", .symbol "\x7d"]) := by
  have hproper := Program.proper_of_parse hparse s hs
  obtain ⟨ws, hreads, hplain⟩ := hproper.exists_plain hw ht
  have hbody := C.reads_substituted hi hp hdisjoint hreads hplain
  exact ⟨ws, _, hreads.iff_eq, rfl, hbody.iff_eq, (C.reads_braced hbody).iff_eq⟩

/-- A statement in which the iterator begins other names and stands in a number as well. -/
def prefixedStatement : String :=
  "ti[i, t] += t * f(i2, e) ** 1e5 - i"

theorem Define.line_substitutes_prefixed :
    ∃ p s text, Program.parse prefixedStatement = .ok p ∧ s ∈ p.body ∧ s.cText = .ok text ∧
      text = "ti[i, t] += t * pow(f(i2, e), 1e5) - i" ∧
      Define.line 0 ["i", "e"] ["t"] text =
        "#define s0(i, e) \x7b ti[(i), (*t)] += (*t) * pow(f(i2, (e)), 1e5) - (i); \x7d" ∧
      (∀ n ∈ ["i", "e"], Text.IsWord n.toList) ∧ (∀ n ∈ ["t"], Text.IsWord n.toList) ∧
      (∀ n ∈ ["t"], n ∉ ["i", "e"]) ∧ (∀ n ∈ s.identifiers, IsWordy n) ∧
      ∃ ws body, (∀ us, C.lexer.Reads () text.toList us () [] ↔ us = ws) ∧
        Define.line 0 ["i", "e"] ["t"] text = "#define " ++ Define.name 0 ++ "(" ++
          ", ".intercalate ["i", "e"] ++ ") \x7b " ++ body ++ "; \x7d" ∧
        (∀ us, C.lexer.Reads () body.toList us () [] ↔
          us = ws.flatMap (C.Token.substituted ["i", "e"] ["t"])) ∧
        ∀ us, C.lexer.Reads () ("\x7b " ++ body ++ "; \x7d").toList us () [] ↔
          us = .symbol "\x7b" :: (ws.flatMap (C.Token.substituted ["i", "e"] ["t"]) ++
            [.symbol ";", .symbol "\x7d"]) := by
  have hread : (Program.parse prefixedStatement).toOption.any fun p => p.body.any fun s =>
      s.cText.toOption.any fun text => text = "ti[i, t] += t * pow(f(i2, e), 1e5) - i" &&
        Define.line 0 ["i", "e"] ["t"] text =
          "#define s0(i, e) \x7b ti[(i), (*t)] += (*t) * pow(f(i2, (e)), 1e5) - (i); \x7d" &&
        s.identifiers.all fun n => n.toList.all Text.isWordChar := by
    decide +kernel
  obtain ⟨p, s, hparse, hs, htext⟩ := Program.exists_of_any hread
  obtain ⟨text, ht, hcheck⟩ := exists_ok_of_any htext
  simp only [Bool.and_eq_true, decide_eq_true_eq, List.all_eq_true] at hcheck
  obtain ⟨⟨htext, hline⟩, hwordy⟩ := hcheck
  have hword (c : Char) (hc : startsName c) (hw : Text.isWordChar c) : Text.IsWord [c] :=
    ⟨c, [], rfl, hc, List.forall_mem_singleton.mpr hw⟩
  have hi : ∀ n ∈ ["i", "e"], Text.IsWord n.toList := by
    simpa using ⟨hword 'i' (by decide) (by decide), hword 'e' (by decide) (by decide)⟩
  have hp : ∀ n ∈ ["t"], Text.IsWord n.toList := by
    simpa using hword 't' (by decide) (by decide)
  exact ⟨p, s, text, hparse, hs, ht, htext, hline, hi, hp, by decide, hwordy,
    Define.line_substitutes hparse hs ht hi hp (by decide) hwordy 0⟩

end LoopNest
