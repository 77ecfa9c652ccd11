import PositionAutomaton.Proofs.Compilation.Passes

/-!
# What the states mean

In the automaton of any tokens with an end marker, the state after a word stands for the positions that may come next,
by the words of the parsed tree over its positions; there is a state as long as there is such a position, and it accepts
if one of them is the first end marker (`compileTokens_states`).
-/

namespace PositionAutomaton

/-- In the automaton of tokens with an end marker, there is a walk over a word exactly if after each of its beginnings
some position may come next; the state it comes to is labelled with the positions that may come next, and accepts
exactly if the end marker with the least number is one of them. -/
theorem compileTokens_states {tokens : List Token} {name : String} {c : Compilation}
    (h : compileTokens tokens name = .ok c) (hend : .endMarker ∈ tokens) (hsize : c.arena.size < 2 ^ 32) :
    ∃ t start e, (PatternTree.parse tokens ∅).1 = .ok (some t) ∧ c.automaton.start = some start ∧
      c.arena.symbol? e = some .endMarker ∧ (∀ p, c.arena.symbol? p = some .endMarker → e ≤ p) ∧
      ∀ w : List Char,
        ((c.automaton.run? start w).isSome = true ↔ ∀ v, v <+: w → ∃ q, t.NextAfter c.arena v q) ∧
        ∀ s, c.automaton.run? start w = some s →
          (∃ set, c.automaton.label? s = some (.positions set) ∧ ∀ q, q ∈ set ↔ t.NextAfter c.arena w q) ∧
          (c.automaton.isFinal s = true ↔ t.NextAfter c.arena w e) := by
  obtain ⟨t, arena₀, hparse, hsymbols⟩ := parse_of_compileTokens h (List.ne_nil_of_mem hend)
  obtain ⟨c', e, hc', hfits, he, hle, hm⟩ := exists_compileTokens hparse (hsymbols ▸ hsize) hend name
  obtain rfl : c = c' := Except.ok.inj (h.symm.trans hc')
  have hwalk := hfits.isSome_run?_iff hm
  refine ⟨t, 0, e, by rw [hparse], hm.start_eq, he, hle, fun w => ⟨?_, fun s hs => ?_⟩⟩
  · constructor
    · intro hw v hv
      obtain ⟨u, rfl⟩ := hv
      rw [Automaton.run?_append] at hw
      exact (hwalk v).1 (Option.isSome_of_isSome_bind hw)
    · exact fun hw => (hwalk w).2 (hw w (List.prefix_refl w))
  · rw [hm.run?_eq_some_iff] at hs
    refine ⟨⟨_, hs, fun q => hfits.mem_successors w⟩, ?_⟩
    rw [← hfits.mem_successors w]
    exact hm.isFinal_iff hs

/-- A pattern with an end marker in the middle and one at the end. -/
theorem compileTokens_states_middle : ∃ c,
    compileTokens [.literal 'a', .concat, .endMarker, .concat, .literal 'b', .concat, .endMarker] "p" = .ok c ∧
    c.arena.size < 2 ^ 32 ∧
    ∃ t start e,
      (PatternTree.parse [.literal 'a', .concat, .endMarker, .concat, .literal 'b', .concat, .endMarker] ∅).1 =
        .ok (some t) ∧ c.automaton.start = some start ∧
      c.arena.symbol? e = some .endMarker ∧ (∀ p, c.arena.symbol? p = some .endMarker → e ≤ p) ∧
      ∀ w : List Char,
        ((c.automaton.run? start w).isSome = true ↔ ∀ v, v <+: w → ∃ q, t.NextAfter c.arena v q) ∧
        ∀ s, c.automaton.run? start w = some s →
          (∃ set, c.automaton.label? s = some (.positions set) ∧ ∀ q, q ∈ set ↔ t.NextAfter c.arena w q) ∧
          (c.automaton.isFinal s = true ↔ t.NextAfter c.arena w e) := by
  have hcompiled : (compileTokens [.literal 'a', .concat, .endMarker, .concat, .literal 'b', .concat, .endMarker]
      "p").map (·.arena.size) = .ok 4 := by decide +kernel
  obtain ⟨c, hc, hsize⟩ := map_eq_ok_iff.1 hcompiled
  exact ⟨c, hc, by omega, compileTokens_states hc (by decide) (by omega)⟩

end PositionAutomaton
