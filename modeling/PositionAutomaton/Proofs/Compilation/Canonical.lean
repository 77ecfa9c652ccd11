import PositionAutomaton.Proofs.Compilation.Language

/-!
# Automata are canonical

Whatever is compiled, the numbers of the states are determined by the walks: the start is the state 0, and the states
follow each other as their least words do (`compile_canonical`).  This does not depend on how many positions there
are.  With `2 ^ 32` of them or more the numbers of the positions repeat, but there are fewer sets of numbers than
steps at hand.
-/

namespace PositionAutomaton

/-- All numbers of positions. -/
def Arena.allNumbers : Finset PositionId :=
  (Finset.range (2 ^ 32)).image UInt32.ofNat

theorem Arena.mem_allNumbers (p : PositionId) : p ∈ allNumbers :=
  Finset.mem_image.2 ⟨p.toNat, Finset.mem_range.2 p.toNat_lt, UInt32.ofNat_toNat⟩

theorem Arena.card_allNumbers_le : allNumbers.card ≤ 2 ^ 32 :=
  Finset.card_image_le.trans (Finset.card_range _).le

/-- The positions that the exploration of a linked arena can meet are no more than the arena has. -/
theorem exists_positions {tokens : List Token} {t : PatternTree} {arena₀ arena : Arena}
    (hparse : PatternTree.parse tokens ∅ = (.ok (some t), arena₀))
    (hlink : t.annotated.linkPositions arena₀ = .ok arena) :
    ∃ positions : Finset PositionId, positions.card ≤ arena.size ∧
      (∀ q ∈ t.rootAttributes.firstpos, q ∈ positions) ∧ ∀ set c, ∀ q ∈ arena.successor set c, q ∈ positions := by
  by_cases hsize : (Token.symbols tokens).length < 2 ^ 32
  · obtain ⟨arena', hlink', hfits⟩ := fits_of_parse hparse hsize
    obtain rfl := Except.ok.inj (hlink'.symm.trans hlink)
    exact ⟨_, arena'.card_numbers_le, fun _ => hfits.mem_numbers_of_firstpos,
      fun _ _ _ => hfits.mem_numbers_of_successor⟩
  · have hcard : 2 ^ 32 ≤ arena.size := by
      rw [PatternTree.size_linkPositions hlink, size_of_parse hparse]
      omega
    exact ⟨_, Arena.card_allNumbers_le.trans hcard, fun q _ => Arena.mem_allNumbers q,
      fun _ _ q _ => Arena.mem_allNumbers q⟩

/-- What is compiled is explored to the end, unless no word of the tree begins with a position. -/
theorem explored_of_compileTokens {tokens : List Token} {name : String} {c : Compilation}
    (h : compileTokens tokens name = .ok c) (hne : tokens ≠ []) : ∃ t arena₀,
      PatternTree.parse tokens ∅ = (.ok (some t), arena₀) ∧
      ((t.rootAttributes.firstpos.isEmpty = true ∧
          c.automaton = .withoutPositions t.rootAttributes.nullable c.arena.alphabet name) ∨
        ∃ e x, c.automaton = x.automaton ∧
          Exploration.Explored c.arena e name t.rootAttributes.firstpos c.arena.alphabet x.automaton.stateCount
            (Exploration.followedBelow c.arena.alphabet x.automaton.stateCount) x ∧
          Finds x.automaton.transitions x.automaton.stateCount) := by
  obtain ⟨t, arena₀, hparse⟩ := exists_parse_of_compileTokens h hne
  obtain ⟨arena, m, events, hlink, hexplore, rfl⟩ := (compileTokens_eq_ok_iff hparse).1 h
  refine ⟨t, arena₀, hparse, ?_⟩
  cases hempty : t.rootAttributes.firstpos.isEmpty with
  | true =>
    rw [determinize, if_pos hempty] at hexplore
    cases hexplore
    exact Or.inl ⟨rfl, rfl⟩
  | false =>
    cases hmarker : arena.firstMatching? .endMarker with
    | none =>
      rw [determinize, hempty, hmarker] at hexplore
      cases hexplore
    | some e =>
      obtain ⟨positions, hcard, hfirst, hnext⟩ := exists_positions hparse hlink
      obtain ⟨x, n, hx, rfl, hexplored, hfinds, -⟩ := exists_determinize hempty hmarker hcard hfirst hnext name
      obtain ⟨rfl, -⟩ := Prod.mk.inj (Except.ok.inj (hx.symm.trans hexplore))
      exact Or.inr ⟨e, x, rfl, hexplored, hfinds⟩

theorem Automaton.canonical_withoutPositions (nullable : Bool) (alphabet : OrderedSet Char) (name : String) :
    (withoutPositions nullable alphabet name).Canonical := by
  cases nullable <;>
    exact canonical_of_finds rfl ((consistent_empty.internState _).of_labels rfl rfl rfl)
      (fun i row hrow => by cases i <;> cases hrow; exact List.Pairwise.nil) .start

theorem Exploration.Explored.canonical {arena : Arena} {endMarker : PositionId} {name : String} {firstpos : PositionSet}
    {alphabet : OrderedSet Char} {n : Nat} {x : Exploration}
    (h : Explored arena endMarker name firstpos alphabet n (followedBelow alphabet n) x)
    (hfinds : Finds x.automaton.transitions x.automaton.stateCount) : x.automaton.Canonical :=
  Automaton.canonical_of_finds h.start_eq h.consistent h.sorted_of_followedBelow hfinds

theorem canonical_of_compileTokens {tokens : List Token} {name : String} {c : Compilation}
    (h : compileTokens tokens name = .ok c) (hne : tokens ≠ []) : c.automaton.Canonical := by
  obtain ⟨t, -, -, ⟨-, hm⟩ | ⟨e, x, hm, hx, hfinds⟩⟩ := explored_of_compileTokens h hne
  · rw [hm]
    exact Automaton.canonical_withoutPositions ..
  · rw [hm]
    exact hx.canonical hfinds

/-- The automaton of any tokens, if it has a state at all, and of any pattern has its states numbered in the order of
their least words. -/
theorem compile_canonical :
    (∀ tokens name c, compileTokens tokens name = .ok c → 0 < c.automaton.stateCount → c.automaton.Canonical) ∧
    ∀ pattern name c, compile pattern name = .ok c → c.automaton.Canonical := by
  refine ⟨fun tokens name c h hpos => canonical_of_compileTokens h ?_, fun pattern name c h => ?_⟩
  · rintro rfl
    cases h
    exact absurd hpos (Nat.lt_irrefl 0)
  · rcases eq_empty_or_exists_scan h with rfl | ⟨ts, -, h⟩
    · cases h
      exact Automaton.canonical_withoutPositions true ∅ name
    · exact canonical_of_compileTokens h (List.ne_nil_of_mem (Token.endMarker_mem_augmented ts))

/-- The words over `a` and `b` that end with `abb`, as a pattern and as tokens. -/
theorem compile_canonical_textbook :
    (∃ c, compile "(a|b)*abb" "p" = .ok c ∧ c.automaton.stateCount = 4 ∧ c.automaton.Canonical) ∧
    ∃ c, compileTokens [.literal 'a', .concat, .endMarker] "p" = .ok c ∧ 0 < c.automaton.stateCount ∧
      c.automaton.Canonical := by
  constructor
  · have hcompiled : (compile "(a|b)*abb" "p").map (·.automaton.stateCount) = .ok 4 := by decide +kernel
    obtain ⟨c, hc, hcount⟩ := map_eq_ok_iff.1 hcompiled
    exact ⟨c, hc, hcount, compile_canonical.2 _ _ c hc⟩
  · have hcompiled : (compileTokens [.literal 'a', .concat, .endMarker] "p").map (·.automaton.stateCount) =
        .ok 2 := by decide +kernel
    obtain ⟨c, hc, hcount⟩ := map_eq_ok_iff.1 hcompiled
    have hpos : 0 < c.automaton.stateCount := by omega
    exact ⟨c, hc, hpos, compile_canonical.1 _ _ c hc hpos⟩

end PositionAutomaton
