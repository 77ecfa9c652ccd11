import PositionAutomaton.Proofs.Compilation.Passes

/-!
# Compilations end

For tokens with a tree and an end marker, the exploration comes to an end: each state is taken from the queue once and
expanded, and the states are different sets of positions, none of them empty, so there are fewer than `2 ^ p` of them
with `p` positions.  Each state has one transition on a character after which some position may come, and none on the
others (`compileTokens_halts`).
-/

namespace PositionAutomaton

/-- The numbers that an arena has handed out are those from 1 to its size. -/
theorem Arena.toNat_of_mem_numbers {arena : Arena} (hsize : arena.size < 2 ^ 32) {p : PositionId}
    (hp : p ∈ arena.numbers) : 1 ≤ p.toNat ∧ p.toNat ≤ arena.size := by
  obtain ⟨i, hi, rfl⟩ := Finset.mem_image.1 hp
  have hi := Finset.mem_range.1 hi
  rw [toNat_one_add_ofNat (by omega)]
  omega

/-- A state has one transition on a character, to the state of the positions that may come next, if there are any. -/
theorem Automaton.Expanded.transitionsOn_cases {m : Automaton} {arena : Arena} {endMarker : PositionId} {name : String}
    {firstpos : PositionSet} (h : m.Expanded arena endMarker name firstpos) (hdet : m.Deterministic) {i : Nat}
    {set : PositionSet} (hi : m.label? i = some (.positions set)) (d : Char) :
    arena.successor set d = ∅ ∧ m.transitionsOn i d = [] ∨
      arena.successor set d ≠ ∅ ∧ ∃ j, m.label? j = some (.positions (arena.successor set d)) ∧
        m.transitionsOn i d = [(i, ⟨d, j⟩)] := by
  rw [hdet.transitionsOn_eq, h.next?_eq d hi]
  cases hempty : (arena.successor set d).isEmpty with
  | true => exact Or.inl ⟨OrderedSet.isEmpty_iff.1 hempty, rfl⟩
  | false =>
    obtain ⟨j, hj⟩ := h.target hi hempty
    refine Or.inr ⟨fun hnone => ?_, j, h.consistent.stateOf?_eq_some_iff.1 hj, ?_⟩
    · rw [OrderedSet.isEmpty_iff.2 hnone] at hempty
      cases hempty
    · rw [hj]
      rfl

/-- The exploration of tokens with an end marker takes every state once, so it ends; and its states are different sets
of positions with one transition on each character after which some position may come next. -/
theorem compileTokens_halts {tokens : List Token} {tree : Option PatternTree} {arena₀ : Arena}
    (hparse : PatternTree.parse tokens ∅ = (.ok tree, arena₀)) (hend : .endMarker ∈ tokens)
    (hsize : arena₀.size ≤ 2 ^ 32 - 1) (name : String) :
    ∃ c root a e x, compileTokens tokens name = .ok c ∧ c.tree = some root ∧ root.attributes = .ok a ∧
      c.arena.size = arena₀.size ∧ c.arena.firstMatching? .endMarker = some e ∧
      Exploration.Halts c.arena e name (.start a.firstpos c.arena.alphabet) (List.range c.automaton.stateCount) x ∧
      x.automaton = c.automaton ∧
      (∀ i < c.automaton.stateCount, ∃ set, c.automaton.label? i = some (.positions set) ∧ set ≠ ∅ ∧
        ∀ q ∈ set, 1 ≤ q.toNat ∧ q.toNat ≤ arena₀.size) ∧
      c.automaton.stateCount ≤ 2 ^ arena₀.size - 1 ∧
      ∀ i set d, c.automaton.label? i = some (.positions set) → ∃ next : PositionSet,
        (∀ q, q ∈ next ↔ ∃ p ∈ set, c.arena.symbol? p = some (.char d) ∧ ∃ s, c.arena.followpos? p = some s ∧ q ∈ s) ∧
        (next = ∅ ∧ c.automaton.transitionsOn i d = [] ∨
          next ≠ ∅ ∧ ∃ j, c.automaton.label? j = some (.positions next) ∧
            c.automaton.transitionsOn i d = [(i, ⟨d, j⟩)]) := by
  obtain _ | t := tree
  · exact absurd (PatternTree.eq_nil_of_parse hparse) (List.ne_nil_of_mem hend)
  have hcount := size_of_parse hparse
  obtain ⟨arena, hlink, hfits⟩ := fits_of_parse hparse (by omega)
  have hsame : arena.size = arena₀.size := PatternTree.size_linkPositions hlink
  obtain ⟨p, hp⟩ := (exists_symbol?_iff hparse hfits).2 (Token.endMarker_mem_symbols.2 hend)
  obtain ⟨e, x, hmarker, -, -, hexplore, hx, hhalts⟩ := hfits.exists_determinize hp name
  have hfirst : ∀ q ∈ t.rootAttributes.firstpos, q ∈ arena.numbers := fun _ => hfits.mem_numbers_of_firstpos
  have hnext : ∀ set d, ∀ q ∈ arena.successor set d, q ∈ arena.numbers := fun _ _ _ => hfits.mem_numbers_of_successor
  have hcompile := (compileTokens_eq_ok_iff hparse).2 ⟨_, _, _, hlink, hexplore, rfl⟩
  refine ⟨_, t.annotated, t.rootAttributes, e, x, hcompile, rfl, t.attributes_annotated, hsame, hmarker, hhalts, rfl,
    fun i hi => ?_, ?_, fun i set d hi => ?_⟩
  · refine ⟨_, hx.label?_setAt hi, fun hempty => hx.setAt_ne_empty hi (by rw [hempty]; rfl), fun q hq => ?_⟩
    rw [← hsame]
    exact Arena.toNat_of_mem_numbers hfits.indexed.size_lt (hx.setAt_subset hfirst hnext hi hq)
  · have hlt := hx.stateCount_lt hfirst hnext
    have hpow : 2 ^ arena.numbers.card ≤ 2 ^ arena₀.size :=
      Nat.pow_le_pow_right (by omega) (hsame ▸ arena.card_numbers_le)
    show x.automaton.stateCount ≤ _
    omega
  · have hexpanded := hx.automaton_expanded rfl fun _ _ => hfits.mem_alphabet_of_successor
    exact ⟨_, fun _ => Arena.mem_successor,
      hexpanded.transitionsOn_cases hx.sorted_of_followedBelow.deterministic hi d⟩

/-- A loop in which both states are found again and again: four positions, and two sets of them. -/
theorem compileTokens_halts_loop : ∃ (tokens : List Token) (t : PatternTree) (arena₀ : Arena),
    tokens = [.openParen, .literal 'a', .union, .literal 'b', .closeParen, .star, .concat, .literal 'a', .concat,
      .endMarker] ∧
    PatternTree.parse tokens ∅ = (.ok (some t), arena₀) ∧ .endMarker ∈ tokens ∧ arena₀.size = 4 ∧
    ∃ c root a e x, compileTokens tokens "p" = .ok c ∧ c.tree = some root ∧ root.attributes = .ok a ∧
      c.arena.size = 4 ∧ c.arena.firstMatching? .endMarker = some e ∧
      Exploration.Halts c.arena e "p" (.start a.firstpos c.arena.alphabet) [0, 1] x ∧ x.automaton = c.automaton ∧
      (∀ i < 2, ∃ set, c.automaton.label? i = some (.positions set) ∧ set ≠ ∅ ∧
        ∀ q ∈ set, 1 ≤ q.toNat ∧ q.toNat ≤ 4) ∧
      c.automaton.stateCount ≤ 2 ^ 4 - 1 ∧
      ∀ i set d, c.automaton.label? i = some (.positions set) → ∃ next : PositionSet,
        (∀ q, q ∈ next ↔ ∃ p ∈ set, c.arena.symbol? p = some (.char d) ∧ ∃ s, c.arena.followpos? p = some s ∧ q ∈ s) ∧
        (next = ∅ ∧ c.automaton.transitionsOn i d = [] ∨
          next ≠ ∅ ∧ ∃ j, c.automaton.label? j = some (.positions next) ∧
            c.automaton.transitionsOn i d = [(i, ⟨d, j⟩)]) := by
  let tokens : List Token := [.openParen, .literal 'a', .union, .literal 'b', .closeParen, .star, .concat, .literal 'a',
    .concat, .endMarker]
  obtain ⟨t, arena₀, hparse⟩ : ∃ t arena₀, PatternTree.parse tokens ∅ = (.ok (some t), arena₀) := ⟨_, _, rfl⟩
  have hsize : arena₀.size = 4 := size_of_parse hparse
  have hcount : (compileTokens tokens "p").map (·.automaton.stateCount) = .ok 2 := by decide +kernel
  obtain ⟨c, root, a, e, x, hc, hroot, ha, hsame, he, hhalts, hx, hlabels, hle, hnext⟩ :=
    compileTokens_halts hparse (by simp [tokens]) (by omega) "p"
  obtain hcount : c.automaton.stateCount = 2 := by simpa [hc, Except.map] using hcount
  rw [hsize] at hsame hlabels hle
  rw [hcount] at hhalts hlabels
  exact ⟨tokens, t, arena₀, rfl, hparse, by simp [tokens], hsize, c, root, a, e, x, hc, hroot, ha, hsame, he, hhalts, hx,
    hlabels, hle, hnext⟩

end PositionAutomaton
