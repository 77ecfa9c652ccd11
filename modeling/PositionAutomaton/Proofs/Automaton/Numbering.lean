import Mathlib.Data.Char
import Mathlib.Data.List.Induction
import Mathlib.Data.List.Shortlex
import PositionAutomaton.Proofs.Automaton.Transitions

/-!
# The numbers of the states

`Finds` says of a list of transitions that, read from the state 0 on, they find the states in the order of their
numbers.  Where the transitions of an automaton do, and stand in order, the numbers follow the words: before a word
that leads to a state stands, in the order by length and then by characters, a word to each smaller state
(`Automaton.exists_run?_of_lt`).  So the least words of the states are in the order of the states, and the numbers are
determined by the walks (`Automaton.canonical_of_finds`).
-/

namespace PositionAutomaton

/-- Read one after the other from the state 0 on, the transitions leave states that were found before, and the states
that they find get the next numbers. -/
inductive Finds : List (Nat × Arrow) → Nat → Prop where
  | start : Finds [] 1
  | step {xs : List (Nat × Arrow)} {n : Nat} {x : Nat × Arrow} :
    Finds xs n → x.1 < n → x.2.target ≤ n → Finds (xs ++ [x]) (max n (x.2.target + 1))

namespace Finds

variable {xs : List (Nat × Arrow)} {n j : Nat}

theorem pos (h : Finds xs n) : 0 < n := by
  cases h <;> omega

/-- Every state but the first is the target of a transition. -/
theorem exists_target (h : Finds xs n) (h0 : 0 < j) (hj : j < n) : ∃ x ∈ xs, x.2.target = j := by
  induction h with
  | start => omega
  | @step xs n x _ _ _ ih =>
    by_cases hjx : x.2.target = j
    · exact ⟨x, by simp, hjx⟩
    · obtain ⟨y, hy, hyj⟩ := ih (by omega)
      exact ⟨y, List.mem_append_left _ hy, hyj⟩

/-- Before a transition to a state stand transitions to all smaller states but the first. -/
theorem exists_target_before {us vs : List (Nat × Arrow)} {x : Nat × Arrow} (h : Finds (us ++ x :: vs) n) (h0 : 0 < j)
    (hj : j < x.2.target) : ∃ y ∈ us, y.2.target = j := by
  generalize hsplit : us ++ x :: vs = xs at h
  induction h generalizing vs with
  | start => simp at hsplit
  | @step xs n z hxs _ _ ih =>
    -- the transition is the last one, or it stands before the last one
    rcases List.eq_nil_or_concat vs with rfl | ⟨vs, v, rfl⟩
    · obtain ⟨rfl, hxz⟩ := List.append_inj' hsplit rfl
      obtain rfl : x = z := by simpa using hxz
      exact hxs.exists_target h0 (by omega)
    · rw [List.concat_eq_append, ← List.cons_append, ← List.append_assoc] at hsplit
      exact ih (List.append_inj' hsplit rfl).1

end Finds

/-! ### Words in order -/

/-- The order of words by their length, and of words of one length by the first character in which they differ. -/
abbrev ShorterOrLess : List Char → List Char → Prop :=
  List.Shortlex (· < ·)

theorem shortlex_concat {v w : List Char} (h : ShorterOrLess v w) (c d : Char) :
    ShorterOrLess (v ++ [c]) (w ++ [d]) := by
  rcases List.shortlex_def.1 h with hlength | ⟨hlength, hlex⟩
  · exact List.Shortlex.of_length_lt (by simpa using hlength)
  · refine List.Shortlex.of_lex (by simpa using hlength) ?_
    -- of two words of one length, neither begins the other
    induction hlex with
    | nil => simp at hlength
    | rel hab => exact .rel hab
    | cons _ ih => exact .cons (ih (.of_lex (by simpa using hlength) ‹_›) (by simpa using hlength))

theorem shortlex_trans {u v w : List Char} (h : ShorterOrLess u v) (h' : ShorterOrLess v w) : ShorterOrLess u w := by
  have hlex : List.Lex (· < ·) u v → List.Lex (· < ·) v w → List.Lex (· < ·) u w := lt_trans (α := List Char)
  simp only [ShorterOrLess, List.shortlex_def] at h h' ⊢
  grind

theorem wellFounded_shorterOrLess : WellFounded ShorterOrLess :=
  List.Shortlex.wf (InvImage.wf Char.toNat Nat.lt_wfRel.wf)

namespace Automaton

/-- The first word that leads from the state 0 to the state `i`. -/
def LeastWord (m : Automaton) (i : Nat) (w : List Char) : Prop :=
  m.run? 0 w = some i ∧ ∀ v, m.run? 0 v = some i → v = w ∨ ShorterOrLess w v

/-- The states are numbered from the start on in the order of their least words, no two of them have one label, and the
arrows of each state are in the order of their symbols. -/
structure Canonical (m : Automaton) : Prop where
  start_eq : m.start = some 0
  stateCount_pos : 0 < m.stateCount
  exists_leastWord : ∀ i < m.stateCount, ∃ w, m.LeastWord i w
  leastWord_lt : ∀ i j v w, i < j → m.LeastWord i v → m.LeastWord j w → ShorterOrLess v w
  label?_inj : ∀ i j label, m.label? i = some label → m.label? j = some label → i = j
  sorted : m.Sorted

variable {m : Automaton}

/-- Every state that is found is the end of a walk. -/
theorem exists_run?_of_finds {xs : List (Nat × Arrow)} {n : Nat} (h : Finds xs n)
    (hxs : ∀ x ∈ xs, m.next? x.1 x.2.symbol = some x.2.target) {i : Nat} (hi : i < n) :
    ∃ w, m.run? 0 w = some i := by
  induction h generalizing i with
  | start =>
    obtain rfl : i = 0 := by omega
    exact ⟨[], rfl⟩
  | @step xs n x _ hsource _ ih =>
    have ih : ∀ {j}, j < n → ∃ w, m.run? 0 w = some j := ih fun y hy => hxs y (List.mem_append_left _ hy)
    by_cases hin : i < n
    · exact ih hin
    · obtain ⟨w, hw⟩ := ih hsource
      refine ⟨w ++ [x.2.symbol], ?_⟩
      rw [run?_append, hw, Option.bind_some, run?_singleton, hxs x (by simp)]
      congr 1
      omega

/-- Before a word that leads to a state stands a word to each smaller state. -/
theorem exists_run?_of_lt (hsorted : m.Sorted) {n : Nat} (hfinds : Finds m.transitions n) {w : List Char} {i j : Nat}
    (hw : m.run? 0 w = some j) (hij : i < j) : ∃ v, m.run? 0 v = some i ∧ ShorterOrLess v w := by
  -- by induction on the word from its end: an earlier transition leads to the smaller state
  induction w using List.reverseRecOn generalizing i j with
  | nil =>
    obtain rfl : 0 = j := Option.some.inj hw
    omega
  | append_singleton w c ih =>
    rw [run?_append, Option.bind_eq_some_iff] at hw
    obtain ⟨source, hsource, hnext⟩ := hw
    rw [run?_singleton] at hnext
    rcases Nat.eq_zero_or_pos i with rfl | h0
    · exact ⟨[], rfl, List.Shortlex.of_length_lt (by simp)⟩
    · obtain ⟨us, vs, hsplit⟩ := List.append_of_mem (hsorted.next?_eq_some_iff.1 hnext)
      have hpairwise := hsorted.pairwise_transitions
      rw [hsplit] at hfinds hpairwise
      obtain ⟨y, hy, rfl⟩ := hfinds.exists_target_before h0 hij
      have hstep : ∀ {v}, m.run? 0 v = some y.1 → m.run? 0 (v ++ [y.2.symbol]) = some y.2.target := by
        intro v hv
        rw [run?_append, hv, Option.bind_some, run?_singleton, hsorted.next?_eq_some_iff, hsplit]
        exact List.mem_append_left _ hy
      rcases (List.pairwise_append.1 hpairwise).2.2 y hy _ List.mem_cons_self with hlt | ⟨heq, hlt⟩
      · obtain ⟨v, hv, hvw⟩ := ih hsource hlt
        exact ⟨v ++ [y.2.symbol], hstep hv, shortlex_concat hvw _ _⟩
      · have hlast := (List.shortlex_singleton_iff y.2.symbol c).2 hlt
        exact ⟨w ++ [y.2.symbol], hstep (hsource.trans (congrArg some heq.symm)), hlast.append_left w⟩

/-- A state that is the end of a walk is the end of a least one. -/
theorem exists_leastWord {i : Nat} (h : ∃ w, m.run? 0 w = some i) : ∃ w, m.LeastWord i w := by
  obtain ⟨w, hw, hmin⟩ := wellFounded_shorterOrLess.has_min {w | m.run? 0 w = some i} h
  refine ⟨w, hw, fun v hv => ?_⟩
  rcases Std.Trichotomous.rel_or_eq_or_rel_swap (r := ShorterOrLess) (a := v) (b := w) with hlt | heq | hgt
  · exact absurd hlt (hmin v hv)
  · exact Or.inl heq
  · exact Or.inr hgt

/-- Transitions in order that find the states in order number them by their least words. -/
theorem canonical_of_finds (hstart : m.start = some 0) (hconsistent : m.Consistent) (hsorted : m.Sorted)
    (hfinds : Finds m.transitions m.stateCount) : m.Canonical where
  start_eq := hstart
  stateCount_pos := hfinds.pos
  exists_leastWord i hi :=
    exists_leastWord (exists_run?_of_finds hfinds (fun _ hx => hsorted.next?_eq_some_iff.2 hx) hi)
  leastWord_lt i j v w hij hv hw := by
    obtain ⟨u, hu, huw⟩ := exists_run?_of_lt hsorted hfinds hw.1 hij
    rcases hv.2 u hu with rfl | hvu
    · exact huw
    · exact shortlex_trans hvu huw
  label?_inj i j label hi hj := hconsistent.label?_inj hi hj
  sorted := hsorted

end Automaton

end PositionAutomaton
