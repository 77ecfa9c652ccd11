import PositionAutomaton.Proofs.Parser.Soundness

/-!
# The tree of a pattern

A list of tokens writes at most one expression (`Derives.regex_eq`): the parser finds it, and the parser gives one tree.
Tokens without concatenations of their own are parsed exactly if they write an expression, and the tree is that of the
expression, with its positions numbered from 1 (`parse_insertConcats`).
-/

namespace PositionAutomaton

variable {ts : List Token}

/-- The tree of an expression determines the expression. -/
theorem PatternTree.ofRegex_injective (first : PositionId) : Function.Injective (ofRegex first) := by
  intro r r' h
  rw [← map_snd_regex_ofRegex first r, h, map_snd_regex_ofRegex]

/-- The grammar is not ambiguous: a list of tokens writes one expression. -/
theorem Derives.regex_eq {r r' : Regex Symbol} (h : Derives .union ts r) (h' : Derives .union ts r') : r' = r := by
  have htrees : some (PatternTree.ofRegex 1 r') = some (PatternTree.ofRegex 1 r) := by
    have hparse := (h'.parse_eq ∅).symm.trans (h.parse_eq ∅)
    exact Except.ok.inj (Prod.mk.inj hparse).1
  exact PatternTree.ofRegex_injective 1 (Option.some.inj htrees)

/-- Tokens without concatenations of their own have a tree exactly if they are a pattern; the tree is that of the one
expression that they write, and its leaves are their literals and end markers, numbered from 1 on from left to right.
There is no tree, and no error either, for no tokens only. -/
theorem parse_insertConcats (hts : .concat ∉ ts) (hsize : (Token.symbols ts).length ≤ 2 ^ 32 - 1) :
    ((∃ t, (PatternTree.parse (Token.insertConcats ts) ∅).1 = .ok (some t)) ↔ ∃ r, Derives .union ts r) ∧
    (∀ t, (PatternTree.parse (Token.insertConcats ts) ∅).1 = .ok (some t) →
      (∃ r, Derives .union ts r ∧ (∀ r', Derives .union ts r' → r' = r) ∧ t = .ofRegex 1 r) ∧
      t.regex.letters.map (·.1.toNat) = List.range' 1 (Token.symbols ts).length ∧
      t.regex.letters.map Prod.snd = Token.symbols ts) ∧
    ((PatternTree.parse (Token.insertConcats ts) ∅).1 = .ok none ↔ ts = []) := by
  refine ⟨⟨fun h => ?_, fun h => ?_⟩, fun t ht => ?_, fun h => ?_, fun h => ?_⟩
  · obtain ⟨t, ht⟩ := h
    exact (parse_insertConcats_iff hts ∅).1 ⟨t, _, Prod.ext ht rfl⟩
  · obtain ⟨r, hr⟩ := h
    exact ⟨_, congrArg Prod.fst (hr.parse_eq ∅)⟩
  · have hparse : PatternTree.parse (Token.insertConcats ts) ∅ = (.ok (some t), _) := Prod.ext ht rfl
    obtain ⟨r, hr⟩ := (parse_insertConcats_iff hts ∅).1 ⟨t, _, hparse⟩
    have htree : t = .ofRegex 1 r := by
      rw [hr.parse_eq] at ht
      exact (Option.some.inj (Except.ok.inj ht)).symm
    obtain ⟨hletters, -⟩ := letters_of_parse hparse
    rw [Arena.nextId_empty, Token.symbols_insertConcats] at hletters
    refine ⟨⟨r, hr, fun r' hr' => hr.regex_eq hr', htree⟩, ?_, ?_⟩
    · rw [hletters]
      exact map_toNat_numbered (by omega)
    · rw [hletters, map_snd_numbered]
  · have hnil := PatternTree.eq_nil_of_parse (Prod.ext h rfl)
    cases ts with
    | nil => rfl
    | cons t ts => simp [Token.insertConcats_eq_joinAfter, Token.joinAfter] at hnil
  · subst h
    rfl

/-- A star binds tighter than a concatenation, and this one tighter than a union. -/
theorem parse_insertConcats_precedence :
    .concat ∉ [Token.literal 'a', .literal 'b', .star, .union, .endMarker] ∧
    (Token.symbols [.literal 'a', .literal 'b', .star, .union, .endMarker]).length ≤ 2 ^ 32 - 1 ∧
    ∃ t, (PatternTree.parse (Token.insertConcats [.literal 'a', .literal 'b', .star, .union, .endMarker]) ∅).1 =
        .ok (some t) ∧
      t = .union none (.concat none (.leaf none 1 (.char 'a')) (.star none (.leaf none 2 (.char 'b'))))
        (.leaf none 3 .endMarker) ∧
      (∃ r, Derives .union [.literal 'a', .literal 'b', .star, .union, .endMarker] r ∧
        (∀ r', Derives .union [.literal 'a', .literal 'b', .star, .union, .endMarker] r' → r' = r) ∧
        t = .ofRegex 1 r) ∧
      t.regex.letters.map (·.1.toNat) = [1, 2, 3] := by
  have hsize : (Token.symbols [.literal 'a', .literal 'b', .star, .union, .endMarker]).length ≤ 2 ^ 32 - 1 := by decide
  obtain ⟨-, htree, -⟩ := parse_insertConcats (by decide) hsize
  obtain ⟨hr, hnumbers, -⟩ := htree _ rfl
  exact ⟨by decide, hsize, _, rfl, rfl, hr, hnumbers⟩

end PositionAutomaton
