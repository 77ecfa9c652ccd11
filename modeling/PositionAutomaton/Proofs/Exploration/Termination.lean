import Mathlib.Data.Finset.Powerset
import PositionAutomaton.Proofs.Exploration.Invariant

/-!
# The exploration ends

The states of an exploration are different sets of positions, none of them empty.  So there are fewer than `2 ^ n` of
them when all positions are among `n` (`Explored.stateCount_lt`).  Each step expands a state that was not expanded
before, so the steps come to an end when every state has been taken once (`Explored.exists_halts`), and a run with as
many steps at hand as there are states gets there (`Halts.run_eq`).
-/

namespace PositionAutomaton

namespace OrderedSet

variable {α : Type} [Ord α] [Std.LawfulEqOrd α]

/-- The elements of an ordered set, whatever their order. -/
def toFinset (s : OrderedSet α) : Finset α :=
  ⟨s.toList, s.nodup⟩

theorem mem_toFinset {s : OrderedSet α} {x : α} : x ∈ s.toFinset ↔ x ∈ s :=
  Iff.rfl

theorem toFinset_injective [Std.TransOrd α] : Function.Injective (toFinset : OrderedSet α → Finset α) := by
  intro s t h
  ext x
  rw [← mem_toFinset, h, mem_toFinset]

end OrderedSet

/-- The positions in the label of a state. -/
def Automaton.setAt (m : Automaton) (i : Nat) : PositionSet :=
  (m.label? i).elim ∅ Label.positionSet

namespace Exploration

variable {arena : Arena} {endMarker : PositionId} {name : String} {firstpos : PositionSet} {alphabet : OrderedSet Char}
variable {taken : Nat} {followed : Nat → List Char} {e : Exploration}

theorem Explored.label?_setAt (h : Explored arena endMarker name firstpos alphabet taken followed e) {i : Nat}
    (hi : i < e.automaton.stateCount) : e.automaton.label? i = some (.positions (e.automaton.setAt i)) := by
  obtain ⟨label, hlabel⟩ := Automaton.exists_label? hi
  obtain ⟨set, rfl, -, -⟩ := h.origin hlabel
  rw [Automaton.setAt, hlabel]
  rfl

variable {positions : Finset PositionId}

/-- The label of a state holds positions that may begin a word or come after another position. -/
theorem Explored.setAt_subset (h : Explored arena endMarker name firstpos alphabet taken followed e)
    (hfirst : ∀ q ∈ firstpos, q ∈ positions) (hnext : ∀ set c, ∀ q ∈ arena.successor set c, q ∈ positions) {i : Nat}
    (hi : i < e.automaton.stateCount) : (e.automaton.setAt i).toFinset ⊆ positions := by
  intro q hq
  have hlabel := h.label?_setAt hi
  rw [OrderedSet.mem_toFinset] at hq
  rcases Nat.eq_zero_or_pos i with rfl | h0
  · have : e.automaton.setAt 0 = firstpos := by simpa using hlabel.symm.trans h.label_zero
    exact hfirst q (this ▸ hq)
  · obtain ⟨set, hset, -, hfound⟩ := h.origin hlabel
    obtain ⟨_, s, c, -, -, rfl⟩ := hfound h0
    obtain hset : e.automaton.setAt i = arena.successor s c := by simpa using hset
    exact hnext s c q (hset ▸ hq)

theorem Explored.setAt_ne_empty (h : Explored arena endMarker name firstpos alphabet taken followed e) {i : Nat}
    (hi : i < e.automaton.stateCount) : (e.automaton.setAt i).toFinset ≠ ∅ := by
  obtain ⟨set, hset, hne, -⟩ := h.origin (h.label?_setAt hi)
  obtain rfl : e.automaton.setAt i = set := by simpa using hset
  intro hempty
  have : e.automaton.setAt i = ∅ := OrderedSet.toFinset_injective hempty
  simp [OrderedSet.isEmpty_iff.2 this] at hne

/-- There are fewer states than sets of positions. -/
theorem Explored.stateCount_lt (h : Explored arena endMarker name firstpos alphabet taken followed e)
    (hfirst : ∀ q ∈ firstpos, q ∈ positions) (hnext : ∀ set c, ∀ q ∈ arena.successor set c, q ∈ positions) :
    e.automaton.stateCount < 2 ^ positions.card := by
  -- states with the same set would have the same label, so they are as many as their sets at most
  have hcard : (Finset.range e.automaton.stateCount).card ≤ (positions.powerset.erase ∅).card := by
    refine Finset.card_le_card_of_injOn (fun i => (e.automaton.setAt i).toFinset) ?_ ?_
    · intro i hi
      have hi := Finset.mem_range.1 hi
      have hsubset := h.setAt_subset hfirst hnext hi
      exact Finset.mem_erase.2 ⟨h.setAt_ne_empty hi, Finset.mem_powerset.2 hsubset⟩
    · intro i hi j hj hij
      have hi := h.label?_setAt (Finset.mem_range.1 hi)
      have hj := h.label?_setAt (Finset.mem_range.1 hj)
      rw [← OrderedSet.toFinset_injective hij] at hj
      exact h.consistent.label?_inj hi hj
  rw [Finset.card_range, Finset.card_erase_of_mem (Finset.empty_mem_powerset _), Finset.card_powerset] at hcard
  have := Nat.two_pow_pos positions.card
  omega

/-! ### The end -/

/-- Taking steps from the first exploration leads to the last, where no state waits any more.  The states that are
taken from the queue are `taken`, in this order, and each of them is expanded: none was expanded before. -/
inductive Halts (arena : Arena) (endMarker : PositionId) (name : String) : Exploration → List Nat → Exploration → Prop
  | stop {e : Exploration} (hstep : e.step? arena endMarker name = none) : Halts arena endMarker name e [] e
  | step {e e' x : Exploration} {source : Nat} {set : PositionSet} {pending : List (Nat × PositionSet)}
      {taken : List Nat} (hpending : e.pending = (source, set) :: pending) (hnew : source ∉ e.expanded)
      (hstep : e.step? arena endMarker name = some e') (hrest : Halts arena endMarker name e' taken x) :
      Halts arena endMarker name e (source :: taken) x

/-- With enough steps at hand, an exploration that halts runs to its end. -/
theorem Halts.run_eq {taken : List Nat} {x : Exploration} (h : Halts arena endMarker name e taken x) {fuel : Nat}
    (hfuel : taken.length ≤ fuel) : run arena endMarker name fuel e = x := by
  induction h generalizing fuel with
  | stop hstep =>
    cases fuel with
    | zero => rfl
    | succ fuel => rw [run, hstep]
  | step _ _ hstep _ ih =>
    rw [List.length_cons] at hfuel
    cases fuel with
    | zero => omega
    | succ fuel =>
      rw [run, hstep]
      exact ih (by omega)

/-- The exploration halts when all states are expanded, each of them once. -/
theorem Explored.exists_halts
    (h : Explored arena endMarker name firstpos alphabet taken (followedBelow alphabet taken) e)
    (hfirst : ∀ q ∈ firstpos, q ∈ positions) (hnext : ∀ set c, ∀ q ∈ arena.successor set c, q ∈ positions) :
    ∃ count x, taken + count = x.automaton.stateCount ∧
      Halts arena endMarker name e (List.range' taken count) x ∧
      Explored arena endMarker name firstpos alphabet (taken + count) (followedBelow alphabet (taken + count)) x := by
  -- all states are fewer than `2 ^ positions.card`, so after each step fewer can still be taken
  induction hleft : 2 ^ positions.card - taken generalizing taken e with
  | zero =>
    have hlt := h.stateCount_lt hfirst hnext
    have hle := h.taken_le
    omega
  | succ left ih =>
    rcases h.step with ⟨hstep, hcount⟩ | ⟨set, pending, e', hpending, hnew, hstep, h'⟩
    · exact ⟨0, e, hcount.symm, .stop hstep, h⟩
    · obtain ⟨count, x, hcount, hhalts, hx⟩ := ih h' (by omega)
      rw [Nat.add_right_comm, Nat.add_assoc] at hcount hx
      exact ⟨count + 1, x, hcount, .step hpending hnew hstep hhalts, hx⟩

end Exploration

end PositionAutomaton
