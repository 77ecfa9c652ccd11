import PositionAutomaton.Proofs.Automaton.Edits
import PositionAutomaton.Proofs.Compilation.Canonical
import PositionAutomaton.Proofs.Exploration.Replay

/-!
# Reports of compilations

The events of a compilation tell its automaton.  If the first state stands for a set of positions, the events are those
of an exploration (`logged_of_compileTokens`), and the last one counts positions, states and accepting states.  So from
the first state alone, the events give all labels and transitions again (`compileTokens_replay`).
-/

namespace PositionAutomaton

/-- Where only states are marked, as many states accept as there are marks. -/
theorem Automaton.length_acceptingStates {m : Automaton} (h : ∀ i, m.isFinal i = true → i < m.stateCount) :
    m.acceptingStates.length = (List.range m.stateCount).countP (m.isFinal ·) := by
  have hmem : ∀ i, i ∈ m.acceptingStates ↔ i ∈ (List.range m.stateCount).filter (m.isFinal ·) := by
    intro i
    rw [mem_acceptingStates, ← Option.isSome_iff_exists, List.mem_filter, List.mem_range]
    exact ⟨fun hi => ⟨h i hi, hi⟩, And.right⟩
  have hnodup : m.acceptingStates.Nodup := m.accepting.nodup_keys
  rw [List.countP_eq_length_filter]
  exact ((List.perm_ext_iff_of_nodup hnodup (List.nodup_range.filter _)).2 hmem).length_eq

/-- What is compiled from a tree that has a position to begin with was reported, and the end after it. -/
theorem logged_of_compileTokens {tokens : List Token} {name : String} {t : PatternTree} {arena₀ : Arena}
    {c : Compilation} (hparse : PatternTree.parse tokens ∅ = (.ok (some t), arena₀))
    (hfirst : t.rootAttributes.firstpos.isEmpty = false) (h : compileTokens tokens name = .ok c) :
    ∃ events : Array CompileEvent, c.events = events.push
        (.finished name c.arena.size c.automaton.stateCount c.automaton.acceptingStates.length) ∧
      Logged t.rootAttributes.firstpos c.automaton events.toList := by
  obtain ⟨arena, m, events, -, hexplore, rfl⟩ := (compileTokens_eq_ok_iff hparse).1 h
  refine ⟨events, rfl, ?_⟩
  cases hmarker : arena.firstMatching? .endMarker with
  | none =>
    rw [determinize, hfirst, hmarker] at hexplore
    cases hexplore
  | some e =>
    rw [determinize, hfirst, hmarker] at hexplore
    cases hexplore
    exact Exploration.logged_run hfirst _

/-- If the first state of what is compiled stands for a set of positions, the events that are reported, done again from
this state alone, give the labels and the transitions, with the reported numbers for the new states.  The transitions are
reported in the order in which they stand, each once; the new states in the order of their numbers, each directly before
the first transition to it; and at last how many positions, states and accepting states there are. -/
theorem compileTokens_replay {tokens : List Token} {name : String} {c : Compilation} {start : Nat} {set : PositionSet}
    (h : compileTokens tokens name = .ok c) (hstart : c.automaton.start = some start)
    (hlabel : c.automaton.label? start = some (.positions set)) :
    (∃ m, ((∅ : Automaton).internState (.positions set)).2.replay? c.events.toList = some m ∧
      m.labels = c.automaton.labels ∧ m.transitions = c.automaton.transitions) ∧
    c.events.toList.filter (·.level = .trace) = c.automaton.transitions.map .ofTransition ∧
    c.automaton.transitions.Nodup ∧
    c.events.toList.filterMap CompileEvent.foundState? = List.range' 1 (c.automaton.stateCount - 1) ∧
    Announced c.events.toList ∧
    c.events.back? = some (.finished name c.arena.size c.automaton.stateCount
      ((List.range c.automaton.stateCount).countP (c.automaton.isFinal ·))) := by
  have hne : tokens ≠ [] := by
    rintro rfl
    cases h
    cases hstart
  obtain ⟨t, arena₀, hparse, ⟨hempty, hm⟩ | ⟨e, x, hm, hx, -⟩⟩ := explored_of_compileTokens h hne
  · -- without a position to begin with, the one state has another label
    rw [hm, PatternTree.nullable_of_isEmpty hempty] at hstart hlabel
    cases hstart
    cases hlabel
  · obtain rfl : 0 = start := Option.some.inj (hx.start_eq.symm.trans (hm ▸ hstart))
    have hset : t.rootAttributes.firstpos = set :=
      Label.positions.inj (Option.some.inj (hx.label_zero.symm.trans (hm ▸ hlabel)))
    obtain ⟨first, hfirst, hfirstne, -⟩ := hx.origin hx.label_zero
    obtain rfl : t.rootAttributes.firstpos = first := by simpa using hfirst
    obtain ⟨events, hevents, hlogged⟩ := logged_of_compileTokens hparse hfirstne h
    have hlogged := hlogged.finish name c.arena.size c.automaton.stateCount c.automaton.acceptingStates.length
    rw [hset, ← Array.toList_push, ← hevents] at hlogged
    have hfinal : ∀ i, c.automaton.isFinal i = true → i < c.automaton.stateCount := by
      intro i hi
      rw [hm] at hi ⊢
      refine Nat.lt_of_not_le fun hle => ?_
      rw [Automaton.isFinal, OrderedMap.contains, show x.automaton.accepting.get? i = none from hx.unnamed hle] at hi
      cases hi
    refine ⟨⟨_, hlogged.replay, rfl, rfl⟩, hlogged.traced, ?_, hlogged.found, hlogged.announced, ?_⟩
    · rw [hm]
      exact hx.sorted_of_followedBelow.deterministic.nodup_transitions
    · rw [hevents, Array.back?_push, Automaton.length_acceptingStates hfinal]

/-- A loop in which both states are found again and again, with one report of a new state and four of transitions. -/
theorem compileTokens_replay_loop : ∃ c, compileTokens [.openParen, .literal 'a', .union, .literal 'b', .closeParen,
      .star, .concat, .literal 'a', .concat, .endMarker] "p" = .ok c ∧
    c.automaton.start = some 0 ∧ c.automaton.label? 0 = some (.positions (.ofList [1, 2, 3])) ∧
    c.events.toList = [.newState 1 (.ofList [1, 2, 3, 4]), .transition 0 'a' 1, .transition 0 'b' 0,
      .transition 1 'a' 1, .transition 1 'b' 0, .finished "p" 4 2 1] ∧
    (∃ m, ((∅ : Automaton).internState (.positions (.ofList [1, 2, 3]))).2.replay? c.events.toList = some m ∧
      m.labels = c.automaton.labels ∧ m.transitions = c.automaton.transitions) ∧
    c.events.toList.filter (·.level = .trace) = c.automaton.transitions.map .ofTransition ∧
    c.automaton.transitions.Nodup ∧
    c.events.toList.filterMap CompileEvent.foundState? = List.range' 1 (c.automaton.stateCount - 1) ∧
    Announced c.events.toList ∧
    c.events.back? = some (.finished "p" c.arena.size c.automaton.stateCount
      ((List.range c.automaton.stateCount).countP (c.automaton.isFinal ·))) := by
  have hcompiled : (compileTokens [.openParen, .literal 'a', .union, .literal 'b', .closeParen, .star, .concat,
      .literal 'a', .concat, .endMarker] "p").map
        (fun c => (c.automaton.start, c.automaton.label? 0, c.events.toList)) =
      .ok (some 0, some (.positions (.ofList [1, 2, 3])), [.newState 1 (.ofList [1, 2, 3, 4]), .transition 0 'a' 1,
        .transition 0 'b' 0, .transition 1 'a' 1, .transition 1 'b' 0, .finished "p" 4 2 1]) := by decide +kernel
  obtain ⟨c, hc, hsome⟩ := map_eq_ok_iff.1 hcompiled
  obtain ⟨hstart, hrest⟩ := Prod.mk.inj hsome
  obtain ⟨hlabel, hevents⟩ := Prod.mk.inj hrest
  exact ⟨c, hc, hstart, hlabel, hevents, compileTokens_replay hc hstart hlabel⟩

end PositionAutomaton
