import Mathlib.Data.List.Nodup
import PositionAutomaton.Proofs.Automaton.Transitions

/-!
# Automata that are built by edits

An `Edit` is one call of a building operation, with any arguments.  What edits make of the empty automaton is
`WellFormed`: labels and states determine each other, arrows lead to states and are at most one on a symbol, and the
states that accept are states and accept something.  One edit keeps that, with a case for each kind
(`WellFormed.edit`), so any number of them do (`wellFormed_build`).
-/

namespace PositionAutomaton

namespace Automaton

/-- A change of an automaton, which may name states that the automaton does not have. -/
inductive Edit where
  | intern (label : Label)
  | accept (state : Nat) (name : String)
  | connect (source : Nat) (symbol : Char) (target : Nat)
  | startAt (state : Nat)
  | useAlphabet (alphabet : OrderedSet Char)
deriving DecidableEq

def edit (m : Automaton) : Edit → Automaton
  | .intern label => (m.internState label).2
  | .accept state name => m.markAccepting state name
  | .connect source symbol target => m.putTransition source symbol target
  | .startAt state => m.withStart state
  | .useAlphabet alphabet => m.withAlphabet alphabet

/-- The automaton that the edits, one after the other, make of the empty one. -/
def build (edits : List Edit) : Automaton :=
  edits.foldl edit ∅

/-- The fields of the automaton agree with each other. -/
structure WellFormed (m : Automaton) : Prop extends Consistent m where
  target_lt : ∀ {i : Nat} {row : List Arrow}, m.table[i]? = some row → ∀ a ∈ row, a.target < m.stateCount
  deterministic : m.Deterministic
  accepting : ∀ {i : Nat} {names : OrderedSet String}, m.namesAt? i = some names →
    i < m.stateCount ∧ ∃ name, name ∈ names

variable {m : Automaton}

theorem wellFormed_empty : WellFormed ∅ where
  toConsistent := consistent_empty
  target_lt h := by simp [EmptyCollection.emptyCollection, empty] at h
  deterministic i row h := by simp [EmptyCollection.emptyCollection, empty] at h
  accepting h := by cases h

namespace WellFormed

theorem of_fields {m' : Automaton} (h : m.WellFormed) (htable : m'.table = m.table) (hlabels : m'.labels = m.labels)
    (hids : m'.ids = m.ids) (haccepting : m'.accepting = m.accepting) : m'.WellFormed where
  toConsistent := h.toConsistent.of_labels hlabels hids (by rw [htable])
  target_lt := by
    rw [htable, stateCount, hlabels]
    exact h.target_lt
  deterministic := by
    unfold Deterministic
    rw [htable]
    exact h.deterministic
  accepting := by
    unfold namesAt? stateCount
    rw [haccepting, hlabels]
    exact h.accepting

theorem internState (h : m.WellFormed) (label : Label) : (m.internState label).2.WellFormed where
  toConsistent := h.toConsistent.internState label
  target_lt := by
    intro i row hrow a ha
    have hle : m.stateCount ≤ (m.internState label).2.stateCount := by
      rw [stateCount_internState]
      split <;> omega
    rw [row_internState h.toConsistent] at hrow
    split at hrow
    · cases hrow
      cases ha
    · exact Nat.lt_of_lt_of_le (h.target_lt hrow a ha) hle
  deterministic := by
    intro i row hrow
    rw [row_internState h.toConsistent] at hrow
    split at hrow
    · cases hrow
      exact List.Pairwise.nil
    · exact h.deterministic i row hrow
  accepting := by
    intro i names hnames
    rw [namesAt?_internState] at hnames
    obtain ⟨hi, hname⟩ := h.accepting hnames
    rw [stateCount_internState]
    exact ⟨by split <;> omega, hname⟩

theorem markAccepting (h : m.WellFormed) (state : Nat) (name : String) : (m.markAccepting state name).WellFormed := by
  by_cases hstate : state < m.stateCount
  · have hnames := namesAt?_markAccepting hstate name
    rw [markAccepting_of_lt hstate] at hnames ⊢
    exact
      { toConsistent := h.toConsistent.of_labels rfl rfl rfl
        target_lt := h.target_lt
        deterministic := h.deterministic
        accepting := by
          intro i names hi
          rw [hnames] at hi
          split at hi
          · rename_i he
            cases hi
            exact ⟨he ▸ hstate, name, OrderedSet.mem_insert.2 (Or.inl rfl)⟩
          · exact h.accepting hi }
  · rw [markAccepting_of_le (Nat.not_lt.1 hstate)]
    exact h

theorem putTransition (h : m.WellFormed) (source : Nat) (symbol : Char) (target : Nat) :
    (m.putTransition source symbol target).WellFormed := by
  by_cases hknown : source < m.table.size ∧ target < m.stateCount
  · -- a row of the new table is an old one, or the old one of the source with the arrow put into it
    have hrow : ∀ {i : Nat} {row' : List Arrow},
        (m.table.modify source (putArrow ⟨symbol, target⟩))[i]? = some row' →
        ∃ row, m.table[i]? = some row ∧ (row' = row ∨ row' = putArrow ⟨symbol, target⟩ row) := by
      intro i row' hrow'
      rw [Array.getElem?_modify] at hrow'
      split at hrow'
      · obtain ⟨row, hrow, rfl⟩ := Option.map_eq_some_iff.1 hrow'
        exact ⟨row, hrow, Or.inr rfl⟩
      · exact ⟨row', hrow', Or.inl rfl⟩
    rw [putTransition_of_lt hknown.1 hknown.2]
    exact
      { toConsistent := h.toConsistent.of_labels rfl rfl (Array.size_modify ..)
        target_lt := by
          intro i row' hrow' a ha
          obtain ⟨row, hold, rfl | rfl⟩ := hrow hrow'
          · exact h.target_lt hold a ha
          · rcases eq_or_mem_of_mem_putArrow ha with rfl | ha
            · exact hknown.2
            · exact h.target_lt hold a ha
        deterministic := by
          intro i row' hrow'
          obtain ⟨row, hold, rfl | rfl⟩ := hrow hrow'
          · exact h.deterministic i row' hold
          · exact pairwise_putArrow _ (h.deterministic i row hold)
        accepting := h.accepting }
  · rw [putTransition_of_not_lt hknown]
    exact h

/-- One edit keeps the fields in step. -/
theorem edit (h : m.WellFormed) (e : Edit) : (m.edit e).WellFormed := by
  cases e with
  | intern label => exact h.internState label
  | accept state name => exact h.markAccepting state name
  | connect source symbol target => exact h.putTransition source symbol target
  | startAt state => exact h.of_fields rfl rfl rfl rfl
  | useAlphabet alphabet => exact h.of_fields rfl rfl rfl rfl

end WellFormed

theorem wellFormed_build (edits : List Edit) : (build edits).WellFormed := by
  suffices key : ∀ m : Automaton, m.WellFormed → (edits.foldl edit m).WellFormed from key ∅ wellFormed_empty
  induction edits with
  | nil => exact fun m h => h
  | cons e edits ih => exact fun m h => ih (m.edit e) (h.edit e)

theorem mem_acceptingStates {i : Nat} : i ∈ m.acceptingStates ↔ ∃ names, m.namesAt? i = some names := by
  rw [acceptingStates, OrderedMap.keys, List.mem_map]
  constructor
  · rintro ⟨⟨i, names⟩, he, rfl⟩
    exact ⟨names, OrderedMap.mem_toList_iff.1 he⟩
  · rintro ⟨names, hnames⟩
    exact ⟨(i, names), OrderedMap.mem_toList_iff.2 hnames, rfl⟩

theorem Consistent.nodup_labels (h : m.Consistent) : m.labels.toList.Nodup := by
  rw [List.Nodup, List.pairwise_iff_getElem]
  intro i j hi hj hij he
  have hlabel : ∀ {k : Nat} (hk : k < m.labels.toList.length), m.label? k = some m.labels.toList[k] := fun hk =>
    Array.getElem?_eq_getElem hk
  have heq := h.label?_inj (hlabel hi) (he ▸ hlabel hj)
  omega

/-- Whatever edits are made, and in whatever order, there is one row for each label, no label is repeated and the state
of a label is where the label is; arrows lead to states, states that accept are states and accept a pattern; and no row
has two arrows on one symbol, so a step is possible exactly along a transition, which is listed once. -/
theorem build_representation (edits : List Edit) :
    (build edits).table.size = (build edits).labels.size ∧
    (build edits).labels.toList.Nodup ∧
    (∀ label i, (build edits).stateOf? label = some i ↔ (build edits).label? i = some label) ∧
    (∀ x ∈ (build edits).transitions, x.2.target < (build edits).stateCount) ∧
    (∀ i ∈ (build edits).acceptingStates, i < (build edits).stateCount ∧
      ∃ names name, (build edits).namesAt? i = some names ∧ name ∈ names) ∧
    (∀ row ∈ (build edits).table.toList, (row.map (·.symbol)).Nodup) ∧
    ∀ state c target,
      ((build edits).next? state c = some target ↔ (state, ⟨c, target⟩) ∈ (build edits).transitions) ∧
      ((state, ⟨c, target⟩) ∈ (build edits).transitions →
        (build edits).transitions.count (state, ⟨c, target⟩) = 1) := by
  have h := wellFormed_build edits
  refine ⟨h.table_size, h.nodup_labels, fun label i => h.stateOf?_eq_some_iff, fun x hx => ?_, fun i hi => ?_,
    fun row hrow => ?_, fun state c target => ⟨h.deterministic.next?_eq_some_iff, fun hmem => ?_⟩⟩
  · obtain ⟨row, hrow, ha⟩ := mem_transitions.1 (show (x.1, x.2) ∈ _ from hx)
    exact h.target_lt hrow x.2 ha
  · obtain ⟨names, hnames⟩ := mem_acceptingStates.1 hi
    obtain ⟨hlt, name, hname⟩ := h.accepting hnames
    exact ⟨hlt, names, name, hnames, hname⟩
  · obtain ⟨i, hi⟩ := List.getElem?_of_mem hrow
    exact List.pairwise_map.2 (h.deterministic i row (by simpa using hi))
  · exact List.count_eq_one_of_mem h.deterministic.nodup_transitions hmem

/-- Edits that name unknown states are passed over. -/
example : (build [.connect 0 'a' 0, .intern .epsilonOnly, .accept 1 "p", .connect 0 'a' 1, .connect 1 'a' 0]) =
    build [.intern .epsilonOnly] := by
  decide

end Automaton

end PositionAutomaton
