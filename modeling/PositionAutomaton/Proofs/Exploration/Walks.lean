import PositionAutomaton.Proofs.Automaton.Transitions
import PositionAutomaton.Proofs.Exploration.Invariant

/-!
# Walks through the explored automaton

When all states are expanded, an arrow leads to the state of the successor and is missing only where the successor is
empty (`Expanded.next?_eq`).  So the walk over a word comes to the state of the set of positions that may come next
after the word, and breaks off where this set is empty (`run?_of_ne_empty`, `run?_of_empty`); and some walk comes to
every state (`exists_run?`).
-/

namespace PositionAutomaton

namespace Arena

theorem mem_successor {arena : Arena} {set : PositionSet} {c : Char} {q : PositionId} : q ∈ arena.successor set c ↔
    ∃ p ∈ set, arena.symbol? p = some (.char c) ∧ ∃ s, arena.followpos? p = some s ∧ q ∈ s := by
  rw [successor, OrderedSet.mem_unions]
  simp only [List.mem_filterMap, List.mem_filter, OrderedSet.mem_toList, beq_iff_eq]
  grind

/-- The positions that may come next after a word is read from the positions of `set`. -/
def successors (arena : Arena) (set : PositionSet) (w : List Char) : PositionSet :=
  w.foldl arena.successor set

theorem successors_empty (arena : Arena) (w : List Char) : arena.successors ∅ w = ∅ := by
  induction w with
  | nil => rfl
  | cons c w ih => exact ih

end Arena

/-- An automaton of sets of positions with all its states expanded. -/
structure Automaton.Expanded (m : Automaton) (arena : Arena) (endMarker : PositionId) (name : String)
    (firstpos : PositionSet) : Prop where
  consistent : m.Consistent
  alphabet_eq : m.alphabet = arena.alphabet
  start_eq : m.start = some 0
  label_zero : m.label? 0 = some (.positions firstpos)
  /-- Every state stands for a set of positions, which is not empty, and all but the first were found from earlier
  ones. -/
  origin : ∀ {j label}, m.label? j = some label → ∃ set, label = .positions set ∧ set.isEmpty = false ∧
    (0 < j → ∃ i s c, i < j ∧ m.label? i = some (.positions s) ∧ set = arena.successor s c)
  next?_eq : ∀ {i set} (c), m.label? i = some (.positions set) → m.next? i c =
    if (arena.successor set c).isEmpty then none else m.stateOf? (.positions (arena.successor set c))
  target : ∀ {i set c}, m.label? i = some (.positions set) → (arena.successor set c).isEmpty = false →
    ∃ j, m.stateOf? (.positions (arena.successor set c)) = some j
  names : ∀ {i set}, m.label? i = some (.positions set) →
    m.namesAt? i = if endMarker ∈ set then some {name} else none
  unnamed : ∀ {i}, m.stateCount ≤ i → m.namesAt? i = none

/-- Among arrows with different symbols, the one found on `c` is that of `c`. -/
private theorem find?_arrows {m : Automaton} {arena : Arena} {set : PositionSet} (c : Char) (cs : List Char) :
    (cs.filterMap (m.arrow? arena set)).find? (·.symbol == c) = if c ∈ cs then m.arrow? arena set c else none := by
  induction cs with
  | nil => rfl
  | cons d cs ih =>
    rw [List.filterMap_cons]
    cases hd : m.arrow? arena set d with
    | none =>
      by_cases hc : c = d
      · subst hc
        simp [ih, hd]
      · simp [ih, hc]
    | some arrow =>
      have hsymbol := Automaton.symbol_of_arrow? hd
      by_cases hc : c = d
      · subst hc
        simp [hsymbol, hd]
      · simp [ih, hc, hsymbol, Ne.symm hc]

/-- Once all states are taken, all states are expanded. -/
theorem Exploration.Explored.automaton_expanded {arena : Arena} {endMarker : PositionId} {name : String}
    {firstpos : PositionSet} {e : Exploration} {n : Nat} (hn : n = e.automaton.stateCount)
    (h : Explored arena endMarker name firstpos arena.alphabet n (followedBelow arena.alphabet n) e)
    (halphabet : ∀ set c, (arena.successor set c).isEmpty = false → c ∈ arena.alphabet) :
    e.automaton.Expanded arena endMarker name firstpos where
  consistent := h.consistent
  alphabet_eq := h.alphabet_eq
  start_eq := h.start_eq
  label_zero := h.label_zero
  origin := h.origin
  names hi := h.names (hn ▸ Automaton.lt_stateCount_of_label? hi) hi
  unnamed hi := h.unnamed (hn ▸ hi)
  next?_eq {i set} c hi := by
    have hrow := h.row hi
    rw [followedBelow, if_pos (hn ▸ Automaton.lt_stateCount_of_label? hi)] at hrow
    rw [Automaton.next?_eq, hrow, Option.bind_some, find?_arrows, Automaton.arrow?]
    cases hne : (arena.successor set c).isEmpty with
    | true => simp
    | false =>
      rw [if_pos (OrderedSet.mem_toList.2 (halphabet set c hne))]
      cases e.automaton.stateOf? (.positions (arena.successor set c)) <;> rfl
  target {i set c} hi hne := by
    refine h.target hi ?_ hne
    rw [followedBelow, if_pos (hn ▸ Automaton.lt_stateCount_of_label? hi)]
    exact halphabet set c hne

namespace Automaton.Expanded

variable {m : Automaton} {arena : Arena} {endMarker : PositionId} {name : String} {firstpos : PositionSet}

theorem ne_empty (h : m.Expanded arena endMarker name firstpos) {i : Nat} {set : PositionSet}
    (hi : m.label? i = some (.positions set)) : set.isEmpty = false := by
  obtain ⟨t, ht, hne, -⟩ := h.origin hi
  obtain rfl : set = t := by simpa using ht
  exact hne

/-- A state accepts exactly if its set holds the end marker. -/
theorem isFinal_iff (h : m.Expanded arena endMarker name firstpos) {i : Nat} {set : PositionSet}
    (hi : m.label? i = some (.positions set)) : m.isFinal i = true ↔ endMarker ∈ set := by
  show (m.namesAt? i).isSome = true ↔ _
  rw [h.names hi]
  split <;> simp [*]

/-- An accepting state accepts the one pattern. -/
theorem namesAt?_of_isFinal (h : m.Expanded arena endMarker name firstpos) {i : Nat} (hi : m.isFinal i = true) :
    m.namesAt? i = some {name} := by
  change (m.namesAt? i).isSome = true at hi
  by_cases hlt : i < m.stateCount
  · obtain ⟨label, hlabel⟩ := exists_label? hlt
    obtain ⟨set, rfl, -, -⟩ := h.origin hlabel
    rw [h.names hlabel] at hi ⊢
    split at hi
    · exact if_pos ‹_›
    · cases hi
  · simp [h.unnamed (Nat.le_of_not_lt hlt)] at hi

/-- While some position may come next, the walk over a word comes to the state of these positions. -/
theorem run?_of_ne_empty (h : m.Expanded arena endMarker name firstpos) {i : Nat} {set : PositionSet}
    (hi : m.label? i = some (.positions set)) {w : List Char} (hw : (arena.successors set w).isEmpty = false) :
    ∃ j, m.run? i w = some j ∧ m.label? j = some (.positions (arena.successors set w)) := by
  induction w generalizing i set with
  | nil => exact ⟨i, rfl, hi⟩
  | cons c w ih =>
    -- after an empty set there would be nothing but empty sets
    have hne : (arena.successor set c).isEmpty = false := by
      rw [Bool.eq_false_iff]
      intro hempty
      change (arena.successors (arena.successor set c) w).isEmpty = false at hw
      rw [OrderedSet.isEmpty_iff.1 hempty, Arena.successors_empty] at hw
      cases hw
    obtain ⟨j, hj⟩ := h.target hi hne
    rw [run?, h.next?_eq c hi, hne, hj]
    exact ih (h.consistent.stateOf?_eq_some_iff.1 hj) hw

/-- Where no position may come next, the walk has broken off. -/
theorem run?_of_empty (h : m.Expanded arena endMarker name firstpos) {i : Nat} {set : PositionSet}
    (hi : m.label? i = some (.positions set)) {w : List Char} (hw : (arena.successors set w).isEmpty = true) :
    m.run? i w = none := by
  induction w generalizing i set with
  | nil =>
    rw [show (arena.successors set []).isEmpty = false from h.ne_empty hi] at hw
    cases hw
  | cons c w ih =>
    rw [run?, h.next?_eq c hi]
    cases hne : (arena.successor set c).isEmpty with
    | true => rfl
    | false =>
      obtain ⟨j, hj⟩ := h.target hi hne
      rw [hj]
      exact ih (h.consistent.stateOf?_eq_some_iff.1 hj) hw

/-- The walk comes to a state exactly if the state stands for the positions that may come next. -/
theorem run?_eq_some_iff (h : m.Expanded arena endMarker name firstpos) (w : List Char) {j : Nat} :
    m.run? 0 w = some j ↔ m.label? j = some (.positions (arena.successors firstpos w)) := by
  cases hw : (arena.successors firstpos w).isEmpty with
  | true =>
    rw [h.run?_of_empty h.label_zero hw]
    refine iff_of_false (by simp) fun hj => ?_
    simp [h.ne_empty hj] at hw
  | false =>
    obtain ⟨i, hi, hlabel⟩ := h.run?_of_ne_empty h.label_zero hw
    rw [hi, Option.some_inj]
    constructor
    · intro hij
      rw [← hij]
      exact hlabel
    · exact h.consistent.label?_inj hlabel

/-- A word is accepted exactly if the end marker may come next after it. -/
theorem accepts_iff (h : m.Expanded arena endMarker name firstpos) (w : List Char) :
    m.accepts w = true ↔ endMarker ∈ arena.successors firstpos w := by
  rw [Automaton.accepts_iff h.start_eq]
  constructor
  · intro hw
    obtain ⟨j, hj, hfinal⟩ := hw
    exact (h.isFinal_iff ((h.run?_eq_some_iff w).1 hj)).1 hfinal
  · intro hmem
    have hne := OrderedSet.isEmpty_eq_false_iff.2 ⟨endMarker, hmem⟩
    obtain ⟨j, hj, hlabel⟩ := h.run?_of_ne_empty h.label_zero hne
    exact ⟨j, hj, (h.isFinal_iff hlabel).2 hmem⟩

/-- There is a walk over the word exactly if some position may come next. -/
theorem isSome_run?_iff (h : m.Expanded arena endMarker name firstpos) (w : List Char) :
    (m.run? 0 w).isSome = true ↔ (arena.successors firstpos w).isEmpty = false := by
  cases hw : (arena.successors firstpos w).isEmpty with
  | true =>
    rw [h.run?_of_empty h.label_zero hw]
    simp
  | false =>
    obtain ⟨i, hi, -⟩ := h.run?_of_ne_empty h.label_zero hw
    simp [hi]

/-- Some walk comes to every state. -/
theorem exists_run? (h : m.Expanded arena endMarker name firstpos) {j : Nat} (hj : j < m.stateCount) :
    ∃ w, m.run? 0 w = some j := by
  -- by induction on the number of the state, since each state was found from an earlier one
  induction j using Nat.strongRecOn with
  | ind j ih =>
    rcases Nat.eq_zero_or_pos j with rfl | h0
    · exact ⟨[], rfl⟩
    · obtain ⟨label, hlabel⟩ := exists_label? hj
      obtain ⟨set, rfl, -, hfound⟩ := h.origin hlabel
      obtain ⟨i, s, c, hij, hi, rfl⟩ := hfound h0
      obtain ⟨w, hw⟩ := ih i hij (Nat.lt_trans hij hj)
      refine ⟨w ++ [c], ?_⟩
      rw [h.run?_eq_some_iff] at hw ⊢
      obtain rfl : s = arena.successors firstpos w := by simpa using hi.symm.trans hw
      rwa [Arena.successors, List.foldl_append]

end Automaton.Expanded

end PositionAutomaton
