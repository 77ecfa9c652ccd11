import PositionAutomaton.Automaton

/-!
# What building changes

The effect of every building operation on what can be asked of an automaton: its labels, its states, its rows and its
accepting states.  An automaton is `Consistent` if labels and states determine each other and every state has a row;
a new state keeps that (`Consistent.internState`), and the other operations change neither labels nor states.
-/

namespace PositionAutomaton

namespace Automaton

/-- Labels and states determine each other, and every state has a row of arrows. -/
structure Consistent (m : Automaton) : Prop where
  stateOf?_eq_some_iff : ∀ {label : Label} {i : Nat}, m.stateOf? label = some i ↔ m.label? i = some label
  table_size : m.table.size = m.stateCount

theorem consistent_empty : Consistent ∅ where
  stateOf?_eq_some_iff {label i} := by
    show (none : Option Nat) = some i ↔ (#[] : Array Label)[i]? = some label
    simp
  table_size := rfl

variable {m : Automaton}

theorem lt_stateCount_of_label? {i : Nat} {label : Label} (h : m.label? i = some label) : i < m.stateCount :=
  (Array.getElem?_eq_some_iff.1 h).1

theorem exists_label? {i : Nat} (h : i < m.stateCount) : ∃ label, m.label? i = some label :=
  ⟨m.labels[i], Array.getElem?_eq_getElem h⟩

/-- A step follows the first arrow on its character in the row of the state. -/
theorem next?_eq (m : Automaton) (i : Nat) (c : Char) :
    m.next? i c = m.table[i]?.bind fun row => (row.find? (·.symbol == c)).map (·.target) := by
  unfold next?
  cases m.table[i]? with
  | none => rfl
  | some row => exact (Option.map_eq_bind ..).symm

theorem Consistent.label?_inj (h : m.Consistent) {i j : Nat} {label : Label} (hi : m.label? i = some label)
    (hj : m.label? j = some label) : i = j :=
  Option.some.inj ((h.stateOf?_eq_some_iff.2 hi).symm.trans (h.stateOf?_eq_some_iff.2 hj))

/-! ### New states -/

theorem internState_of_some {label : Label} {i : Nat} (h : m.stateOf? label = some i) :
    m.internState label = (i, m) := by
  rw [internState, h]

theorem internState_of_none {label : Label} (h : m.stateOf? label = none) : m.internState label =
    (m.stateCount,
      { m with
        labels := m.labels.push label
        table := m.table.push []
        ids := m.ids.insert label m.stateCount }) := by
  rw [internState, h]
  rfl

/-- The label leads to the state that was given for it, and other labels lead where they led. -/
theorem stateOf?_internState (label label' : Label) : (m.internState label).2.stateOf? label' =
    if label' = label then some (m.internState label).1 else m.stateOf? label' := by
  cases h : m.stateOf? label with
  | some i =>
    rw [internState_of_some h]
    split
    · rename_i he
      rw [he, h]
    · rfl
  | none =>
    rw [internState_of_none h]
    exact OrderedMap.get?_insert ..

/-- A state that had a label keeps it, and one more may get the new label. -/
theorem label?_internState (label : Label) (i : Nat) : (m.internState label).2.label? i =
    if m.stateOf? label = none ∧ i = m.stateCount then some label else m.label? i := by
  cases h : m.stateOf? label with
  | some j =>
    rw [internState_of_some h, if_neg (by simp)]
  | none =>
    rw [internState_of_none h]
    simp only [label?, Array.getElem?_push, true_and]
    rfl

theorem label?_internState_of_some (label : Label) {i : Nat} {label' : Label} (h : m.label? i = some label') :
    (m.internState label).2.label? i = some label' := by
  rw [label?_internState, if_neg (fun hi => Nat.ne_of_lt (lt_stateCount_of_label? h) hi.2), h]

/-- Only the new state has a label that it did not have, and that is the new label. -/
theorem label?_internState_cases {label label' : Label} {i : Nat}
    (h : (m.internState label).2.label? i = some label') :
    i = m.stateCount ∧ label' = label ∨ m.label? i = some label' := by
  rw [label?_internState] at h
  split at h
  · rename_i hi
    exact Or.inl ⟨hi.2, (Option.some.inj h).symm⟩
  · exact Or.inr h

theorem stateOf?_internState_of_some (label : Label) {label' : Label} {i : Nat} (h : m.stateOf? label' = some i) :
    (m.internState label).2.stateOf? label' = some i := by
  rw [stateOf?_internState]
  split
  · rename_i he
    rw [he] at h
    rw [internState_of_some h]
  · exact h

theorem row_internState (hm : m.Consistent) (label : Label) (i : Nat) : (m.internState label).2.table[i]? =
    if m.stateOf? label = none ∧ i = m.stateCount then some [] else m.table[i]? := by
  cases h : m.stateOf? label with
  | some j =>
    rw [internState_of_some h, if_neg (by simp)]
  | none =>
    rw [internState_of_none h]
    simp only [Array.getElem?_push, true_and, hm.table_size]

theorem stateCount_internState (label : Label) : (m.internState label).2.stateCount =
    if m.stateOf? label = none then m.stateCount + 1 else m.stateCount := by
  cases h : m.stateOf? label with
  | some i =>
    rw [internState_of_some h, if_neg (by simp)]
  | none =>
    rw [internState_of_none h, if_pos rfl]
    exact Array.size_push ..

theorem start_internState (label : Label) : (m.internState label).2.start = m.start := by
  unfold internState
  split <;> rfl

theorem namesAt?_internState (label : Label) (i : Nat) : (m.internState label).2.namesAt? i = m.namesAt? i := by
  unfold internState
  split <;> rfl

theorem alphabet_internState (label : Label) : (m.internState label).2.alphabet = m.alphabet := by
  unfold internState
  split <;> rfl

theorem Consistent.internState (h : m.Consistent) (label : Label) : (m.internState label).2.Consistent where
  stateOf?_eq_some_iff {label' i} := by
    have hback : m.stateOf? label' = some i ↔ m.label? i = some label' := h.stateOf?_eq_some_iff
    rw [stateOf?_internState, label?_internState]
    cases hl : m.stateOf? label with
    | some j =>
      rw [internState_of_some hl, if_neg (show ¬ (some j = none ∧ i = m.stateCount) by simp), ← hback]
      split
      · rename_i he
        rw [he, hl]
      · rfl
    | none =>
      rw [internState_of_none hl]
      simp only [true_and]
      by_cases hlabel : label' = label
      · -- the new label leads to the new state, and no state had it before
        rw [if_pos hlabel]
        rw [hlabel, hl] at hback
        rw [hlabel]
        split
        · simp [*]
        · rename_i hi
          refine iff_of_false (fun he => hi (Option.some.inj he).symm) fun hc => ?_
          cases hback.2 hc
      · -- the new state has no other label
        rw [if_neg hlabel]
        split
        · rename_i hi
          have hfree : m.label? i = none := by
            rw [hi]
            exact Array.getElem?_size
          rw [hback, hfree]
          simp [Ne.symm hlabel]
        · exact hback
  table_size := by
    have hs := h.table_size
    unfold Automaton.internState
    split
    · exact hs
    · simpa [stateCount] using hs

/-! ### Marks and arrows -/

/-- A known state accepts one more pattern, and nothing else changes. -/
theorem markAccepting_of_lt {state : Nat} (h : state < m.stateCount) (name : String) : m.markAccepting state name =
    { m with accepting := m.accepting.insert state (((m.namesAt? state).getD ∅).insert name) } := by
  rw [markAccepting, show m.acceptFault? state = none from if_pos h]

/-- An unknown state is not marked. -/
theorem markAccepting_of_le {state : Nat} (h : m.stateCount ≤ state) (name : String) : m.markAccepting state name = m := by
  rw [markAccepting, show m.acceptFault? state = some (.accepting state) from if_neg (Nat.not_lt.2 h)]

theorem namesAt?_markAccepting {state : Nat} (h : state < m.stateCount) (name : String) (i : Nat) :
    (m.markAccepting state name).namesAt? i =
      if i = state then some (((m.namesAt? state).getD ∅).insert name) else m.namesAt? i := by
  rw [markAccepting_of_lt h]
  exact OrderedMap.get?_insert ..

/-- Between known states, an arrow is put into the row of its source, and nothing else changes. -/
theorem putTransition_of_lt {source target : Nat} (hs : source < m.table.size) (ht : target < m.stateCount)
    (symbol : Char) : m.putTransition source symbol target =
      { m with table := m.table.modify source (putArrow ⟨symbol, target⟩) } := by
  have htarget : ¬ m.labels.size ≤ target := Nat.not_le.2 ht
  rw [putTransition, transitionFault?, if_neg htarget, if_neg (Nat.not_le.2 hs)]

/-- An arrow from or to an unknown state is not put. -/
theorem putTransition_of_not_lt {source target : Nat} (h : ¬ (source < m.table.size ∧ target < m.stateCount))
    (symbol : Char) : m.putTransition source symbol target = m := by
  unfold putTransition transitionFault?
  by_cases htarget : m.labels.size ≤ target
  · rw [if_pos htarget]
  · have hsource : m.table.size ≤ source := Nat.not_lt.1 fun hs => h ⟨hs, Nat.not_le.1 htarget⟩
    rw [if_neg htarget, if_pos hsource]

theorem label?_putTransition (source : Nat) (symbol : Char) (target i : Nat) :
    (m.putTransition source symbol target).label? i = m.label? i := by
  unfold putTransition
  split <;> rfl

theorem stateCount_putTransition (source : Nat) (symbol : Char) (target : Nat) :
    (m.putTransition source symbol target).stateCount = m.stateCount := by
  unfold putTransition
  split <;> rfl

theorem putArrow_of_forall_ne {arrow : Arrow} {row : List Arrow} (h : ∀ a ∈ row, a.symbol ≠ arrow.symbol) :
    putArrow arrow row = row ++ [arrow] := by
  induction row with
  | nil => rfl
  | cons a row ih =>
    rw [putArrow, if_neg (h a List.mem_cons_self), ih fun b hb => h b (List.mem_cons_of_mem _ hb)]
    rfl

theorem eq_or_mem_of_mem_putArrow {arrow a : Arrow} {row : List Arrow} (h : a ∈ putArrow arrow row) :
    a = arrow ∨ a ∈ row := by
  induction row with
  | nil => exact Or.inl (List.mem_singleton.1 h)
  | cons b row ih =>
    rw [putArrow] at h
    split at h
    · rcases List.mem_cons.1 h with h | h
      · exact Or.inl h
      · exact Or.inr (List.mem_cons_of_mem b h)
    · rcases List.mem_cons.1 h with rfl | h
      · exact Or.inr List.mem_cons_self
      · exact (ih h).imp_right (List.mem_cons_of_mem b)

/-- Where no two arrows are on the same symbol, there are no two after one more is put. -/
theorem pairwise_putArrow (arrow : Arrow) {row : List Arrow} (h : row.Pairwise fun a b => a.symbol ≠ b.symbol) :
    (putArrow arrow row).Pairwise fun a b => a.symbol ≠ b.symbol := by
  induction row with
  | nil => exact List.pairwise_singleton ..
  | cons a row ih =>
    obtain ⟨ha, hrow⟩ := List.pairwise_cons.1 h
    rw [putArrow]
    split
    · rename_i heq
      exact List.pairwise_cons.2 ⟨fun b hb => heq ▸ ha b hb, hrow⟩
    · rename_i hne
      refine List.pairwise_cons.2 ⟨fun b hb => ?_, ih hrow⟩
      rcases eq_or_mem_of_mem_putArrow hb with rfl | hb
      · exact hne
      · exact ha b hb

theorem Consistent.of_labels {m' : Automaton} (h : m.Consistent) (hlabels : m'.labels = m.labels)
    (hids : m'.ids = m.ids) (htable : m'.table.size = m.table.size) : m'.Consistent where
  stateOf?_eq_some_iff {label i} := by
    rw [show m'.stateOf? label = m.stateOf? label from congrArg (·.get? label) hids,
      show m'.label? i = m.label? i from congrArg (·[i]?) hlabels]
    exact h.stateOf?_eq_some_iff
  table_size := by
    rw [htable, h.table_size, stateCount, stateCount, hlabels]

end Automaton

end PositionAutomaton
