import PositionAutomaton.Proofs.Automaton.Building

/-!
# Transitions and walks

`Automaton.transitions` lists the arrows state by state.  It holds the arrows of the rows (`mem_transitions`).  Where no
symbol is repeated in a row, it says where every step leads (`Deterministic.next?_eq_some_iff`), by one transition of a
state on a character (`Deterministic.transitionsOn_eq`), and where the symbols ascend in every row, it is in order
(`Sorted.pairwise_transitions`).  A new state adds nothing to the list (`transitions_internState`), and an arrow put
behind all others comes last (`transitions_putTransition`).  Walks follow the transitions of a word one by one.
-/

namespace PositionAutomaton

/-- In every row the symbols strictly ascend. -/
def Automaton.Sorted (m : Automaton) : Prop :=
  ∀ (i : Nat) (row : List Arrow), m.table[i]? = some row → row.Pairwise fun a b => a.symbol < b.symbol

/-- In every row there is at most one arrow on a symbol. -/
def Automaton.Deterministic (m : Automaton) : Prop :=
  ∀ (i : Nat) (row : List Arrow), m.table[i]? = some row → row.Pairwise fun a b => a.symbol ≠ b.symbol

/-- The order of transitions by the state that is left, and then by the symbol. -/
def Precedes (x y : Nat × Arrow) : Prop :=
  x.1 < y.1 ∨ x.1 = y.1 ∧ x.2.symbol < y.2.symbol

namespace Automaton

variable {m : Automaton}

theorem transitions_eq (m : Automaton) : m.transitions = m.table.toList.zipIdx.flatMap fun x => x.1.map (x.2, ·) :=
  rfl

theorem mem_transitions {i : Nat} {arrow : Arrow} :
    (i, arrow) ∈ m.transitions ↔ ∃ row, m.table[i]? = some row ∧ arrow ∈ row := by
  rw [transitions, List.mem_flatMap]
  constructor
  · intro h
    obtain ⟨⟨row, j⟩, hrow, hmem⟩ := h
    obtain ⟨a, ha, heq⟩ := List.mem_map.1 hmem
    obtain ⟨rfl, rfl⟩ := Prod.mk.inj heq
    exact ⟨row, by simpa using List.mem_zipIdx_iff_getElem?.1 hrow, ha⟩
  · intro h
    obtain ⟨row, hrow, ha⟩ := h
    exact ⟨(row, i), List.mem_zipIdx_iff_getElem?.2 (by simpa using hrow), List.mem_map.2 ⟨arrow, ha, rfl⟩⟩

/-- What holds between the arrows of each row holds between the transitions that leave the same state. -/
theorem pairwise_transitions {R : Arrow → Arrow → Prop}
    (h : ∀ (i : Nat) (row : List Arrow), m.table[i]? = some row → row.Pairwise R) :
    m.transitions.Pairwise fun x y => x.1 < y.1 ∨ x.1 = y.1 ∧ R x.2 y.2 := by
  rw [transitions, List.pairwise_flatMap]
  constructor
  · intro x hx
    have hrow := h x.2 x.1 (by simpa using List.mem_zipIdx_iff_getElem?.1 hx)
    exact List.pairwise_map.2 (hrow.imp fun hab => Or.inr ⟨rfl, hab⟩)
  · have hstates : (m.table.toList.zipIdx.map Prod.snd).Pairwise (· < ·) := by
      rw [List.zipIdx_map_snd]
      exact List.pairwise_lt_range' 1
    refine (List.pairwise_map.1 hstates).imp fun hlt x hx y hy => ?_
    obtain ⟨a, -, rfl⟩ := List.mem_map.1 hx
    obtain ⟨b, -, rfl⟩ := List.mem_map.1 hy
    exact Or.inl hlt

/-- Rows in order make up a list in order. -/
theorem Sorted.pairwise_transitions (h : m.Sorted) : m.transitions.Pairwise Precedes :=
  Automaton.pairwise_transitions h

theorem Sorted.deterministic (h : m.Sorted) : m.Deterministic :=
  fun i row hrow => (h i row hrow).imp Char.ne_of_lt

theorem Deterministic.nodup_transitions (h : m.Deterministic) : m.transitions.Nodup := by
  refine (pairwise_transitions h).imp fun {x y} hxy => ?_
  rintro rfl
  rcases hxy with hlt | ⟨-, hne⟩
  · exact Nat.lt_irrefl _ hlt
  · exact hne rfl

/-- With one arrow on a symbol at most, each step follows the transition of its symbol. -/
theorem Deterministic.next?_eq_some_iff (h : m.Deterministic) {i target : Nat} {c : Char} :
    m.next? i c = some target ↔ (i, ⟨c, target⟩) ∈ m.transitions := by
  rw [mem_transitions, next?_eq]
  cases hrow : m.table[i]? with
  | none => simp
  | some row =>
    rw [Option.bind_some, Option.map_eq_some_iff]
    simp only [Option.some.injEq, exists_eq_left']
    constructor
    · intro hfind
      obtain ⟨a, ha, rfl⟩ := hfind
      have hsymbol : a.symbol = c := by simpa using List.find?_some ha
      rw [← hsymbol]
      exact List.mem_of_find?_eq_some ha
    · intro hmem
      -- the arrows before it have other symbols
      obtain ⟨before, after, rfl⟩ := List.append_of_mem hmem
      have hbefore := (List.pairwise_append.1 (h i _ hrow)).2.2
      refine ⟨⟨c, target⟩, List.find?_eq_some_iff_append.2 ⟨by simp, before, after, rfl, fun a ha => ?_⟩, rfl⟩
      simpa using hbefore a ha ⟨c, target⟩ List.mem_cons_self

theorem Sorted.next?_eq_some_iff (h : m.Sorted) {i target : Nat} {c : Char} :
    m.next? i c = some target ↔ (i, ⟨c, target⟩) ∈ m.transitions :=
  h.deterministic.next?_eq_some_iff

/-- The transitions that leave a state on a character. -/
def transitionsOn (m : Automaton) (i : Nat) (c : Char) : List (Nat × Arrow) :=
  m.transitions.filter fun x => x.1 = i ∧ x.2.symbol = c

/-- With one arrow on a symbol at most, the transition that a step follows is the only one. -/
theorem Deterministic.transitionsOn_eq (h : m.Deterministic) (i : Nat) (c : Char) :
    m.transitionsOn i c = ((m.next? i c).map fun target => (i, ⟨c, target⟩)).toList := by
  have hmem : ∀ x, x ∈ m.transitionsOn i c ↔ ∃ target, m.next? i c = some target ∧ x = (i, ⟨c, target⟩) := by
    rintro ⟨j, d, target⟩
    simp only [transitionsOn, List.mem_filter, decide_eq_true_eq, h.next?_eq_some_iff, Prod.mk.injEq, Arrow.mk.injEq]
    grind
  cases hnext : m.next? i c with
  | none => exact List.eq_nil_iff_forall_not_mem.2 fun x hx => by simp [hmem, hnext] at hx
  | some target =>
    refine List.perm_singleton.1 ((List.perm_ext_iff_of_nodup (h.nodup_transitions.filter _) (by simp)).2 fun x => ?_)
    rw [← transitionsOn, hmem, hnext]
    simp

/-! ### Walks -/

@[simp]
theorem run?_singleton (i : Nat) (c : Char) : m.run? i [c] = m.next? i c := by
  simp [run?]

theorem run?_append (i : Nat) (v w : List Char) : m.run? i (v ++ w) = (m.run? i v).bind fun j => m.run? j w := by
  induction v generalizing i with
  | nil => rfl
  | cons c v ih =>
    rw [List.cons_append, run?, run?]
    cases m.next? i c with
    | none => rfl
    | some j => exact ih j

/-- A walk accepts if it reads the whole word and ends in an accepting state. -/
theorem walkFrom_snd_iff (i : Nat) (w : List Char) :
    (m.walkFrom i w).2 = true ↔ ∃ j, m.run? i w = some j ∧ m.isFinal j = true := by
  induction w generalizing i with
  | nil => simp [walkFrom, run?]
  | cons c w ih =>
    rw [walkFrom, run?]
    cases m.next? i c with
    | none => simp
    | some j => exact ih j

theorem accepts_iff {start : Nat} (h : m.start = some start) (w : List Char) :
    m.accepts w = true ↔ ∃ j, m.run? start w = some j ∧ m.isFinal j = true := by
  rw [accepts, walk, h]
  exact walkFrom_snd_iff start w

/-! ### Building -/

theorem transitions_internState (label : Label) : (m.internState label).2.transitions = m.transitions := by
  unfold internState
  split
  · rfl
  · simp [transitions, List.zipIdx_append]

/-- Behind the last arrow of the last row that has any, a new arrow is the last transition. -/
theorem transitions_putTransition {source target : Nat} {c : Char} {row : List Arrow}
    (hrow : m.table[source]? = some row) (htarget : target < m.stateCount) (hfresh : ∀ a ∈ row, a.symbol ≠ c)
    (hlast : ∀ i r, source < i → m.table[i]? = some r → r = []) :
    (m.putTransition source c target).transitions = m.transitions ++ [(source, ⟨c, target⟩)] := by
  have hsource : source < m.table.toList.length := (Array.getElem?_eq_some_iff.1 hrow).1
  obtain ⟨before, r, after, htable, hlength, hmodify⟩ := List.exists_of_modify (putArrow ⟨c, target⟩) hsource
  rw [← Array.getElem?_toList, htable, ← hlength] at hrow
  obtain rfl : r = row := by simpa using hrow
  have hafter : ∀ k, ((after.zipIdx k).flatMap fun x => x.1.map (x.2, ·)) = [] := by
    intro k
    rw [List.flatMap_eq_nil_iff]
    rintro ⟨r', j⟩ hj
    obtain ⟨i, hi⟩ := List.getElem?_of_mem (List.fst_mem_of_mem_zipIdx hj)
    have hempty := hlast (source + 1 + i) r' (by omega)
    rw [← Array.getElem?_toList, htable, ← hlength] at hempty
    rw [hempty (by simpa [List.getElem?_append_right, Nat.add_assoc, Nat.add_comm 1] using hi)]
    rfl
  rw [putTransition_of_lt hsource htarget, transitions_eq, transitions_eq, Array.toList_modify, hmodify, htable,
    putArrow_of_forall_ne hfresh]
  simp [List.zipIdx_append, List.zipIdx_cons, hafter, hlength]

end Automaton

end PositionAutomaton
