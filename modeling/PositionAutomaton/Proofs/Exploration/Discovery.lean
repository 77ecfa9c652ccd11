import PositionAutomaton.Proofs.Automaton.Numbering
import PositionAutomaton.Proofs.Exploration.Invariant

/-!
# The order of discovery

What following a character keeps is kept by a whole exploration (`Explored.run_induction`).  The states are expanded
in the order of their numbers and the characters are followed in ascending order, so each transition comes behind all
earlier ones; hence the transitions find the states in the order of their numbers (`Explored.finds_run`), and they
stand in order (`Explored.sorted`).
-/

namespace PositionAutomaton

namespace Exploration

variable {arena : Arena} {endMarker : PositionId} {name : String} {firstpos : PositionSet} {alphabet : OrderedSet Char}
variable {taken : Nat} {followed : Nat → List Char} {e : Exploration}

/-! ### What a run keeps -/

section Induction

variable {P : Exploration → Prop}

/-- What following one character from the last taken state keeps is kept by following several. -/
theorem Explored.followAll_induction {source : Nat} {set : PositionSet}
    (follow : ∀ {followed e c}, Explored arena endMarker name firstpos alphabet (source + 1) followed e →
      e.automaton.label? source = some (.positions set) → c ∉ followed source → P e →
      P (Exploration.follow arena source set e c))
    {cs : List Char} (h : Explored arena endMarker name firstpos alphabet (source + 1) followed e)
    (hlabel : e.automaton.label? source = some (.positions set)) (hcs : (followed source ++ cs).Nodup) (h0 : P e) :
    P (cs.foldl (Exploration.follow arena source set) e) := by
  induction cs generalizing followed e with
  | nil => exact h0
  | cons c cs ih =>
    have hc : c ∉ followed source := fun hc => (List.nodup_append.1 hcs).2.2 c hc c List.mem_cons_self rfl
    exact ih (h.follow (Nat.lt_succ_self _) hlabel hc) (label?_follow c hlabel) (by simpa using hcs)
      (follow h hlabel hc h0)

/-- What taking a state from the queue and following a character keep is kept by any number of steps. -/
theorem Explored.run_induction
    (take : ∀ {e : Exploration} (accepting pending expanded), P e →
      P { e with automaton := { e.automaton with accepting }, pending, expanded })
    (follow : ∀ {source set followed e c}, Explored arena endMarker name firstpos alphabet (source + 1) followed e →
      e.automaton.label? source = some (.positions set) → c ∉ followed source → P e →
      P (Exploration.follow arena source set e c))
    (h : Explored arena endMarker name firstpos alphabet taken (followedBelow alphabet taken) e) (h0 : P e)
    (fuel : Nat) : P (run arena endMarker name fuel e) := by
  induction fuel generalizing taken e with
  | zero => exact h0
  | succ fuel ih =>
    rw [run, step?]
    cases hpending : e.pending with
    | nil => exact h0
    | cons w pending =>
      obtain ⟨source, set⟩ := w
      obtain ⟨hnew, hexpanded⟩ := h.expand hpending
      obtain ⟨rfl, accepting, e', rfl, h', hlabel, hexpand⟩ := h.exists_taken hpending
      have hcs : (followedBelow alphabet source source ++ alphabet.toList).Nodup := by
        rw [followedBelow, if_neg (Nat.lt_irrefl _)]
        exact alphabet.nodup
      simp only [if_neg hnew]
      refine ih hexpanded ?_
      rw [hexpand]
      exact h'.followAll_induction follow hlabel hcs (take accepting pending _ h0)

end Induction

/-! ### Transitions in order -/

/-- A row behind those that are taken has no arrows yet. -/
theorem Explored.row_eq_nil (h : Explored arena endMarker name firstpos alphabet taken followed e) {i : Nat}
    (hi : taken ≤ i) {row : List Arrow} (hrow : e.automaton.table[i]? = some row) : row = [] := by
  have hlt : i < e.automaton.stateCount := h.consistent.table_size ▸ (Array.getElem?_eq_some_iff.1 hrow).1
  obtain ⟨label, hlabel⟩ := Automaton.exists_label? hlt
  obtain ⟨set, rfl, -, -⟩ := h.origin hlabel
  rw [h.row hlabel, h.unfollowed hi] at hrow
  exact (Option.some.inj hrow).symm

/-- An arrow out of the last taken state comes behind all other transitions. -/
theorem Explored.transitions_connect {source target : Nat} {set : PositionSet} {c : Char}
    (h : Explored arena endMarker name firstpos alphabet (source + 1) followed e)
    (hlabel : e.automaton.label? source = some (.positions set)) (hc : c ∉ followed source)
    (htarget : target < e.automaton.stateCount) :
    (e.connect source c target).automaton.transitions = e.automaton.transitions ++ [(source, ⟨c, target⟩)] :=
  Automaton.transitions_putTransition (h.row hlabel) htarget (Automaton.symbol_ne_of_notMem hc)
    fun _ _ hi hr => h.row_eq_nil hi hr

/-- Following one more character adds nothing, or a transition behind all others: to a state that was found before, or
to a new one, which is reported first. -/
theorem Explored.follow_cases {source : Nat} {set : PositionSet} {c : Char}
    (h : Explored arena endMarker name firstpos alphabet (source + 1) followed e)
    (hlabel : e.automaton.label? source = some (.positions set)) (hc : c ∉ followed source) {e' : Exploration}
    (he' : e' = Exploration.follow arena source set e c) :
    e' = e ∨ ∃ m target, e'.automaton = m.putTransition source c target ∧
      e'.automaton.transitions = m.transitions ++ [(source, ⟨c, target⟩)] ∧
      (m = e.automaton ∧ target < e.automaton.stateCount ∧ e'.events = e.events.push (.transition source c target) ∨
        ∃ next, e.automaton.stateOf? (.positions next) = none ∧ m = (e.automaton.internState (.positions next)).2 ∧
          target = e.automaton.stateCount ∧
          e'.events = (e.events.push (.newState target next)).push (.transition source c target)) := by
  unfold Exploration.follow at he'
  extract_lets next at he'
  split at he'
  · exact Or.inl he'
  · rename_i hnext
    have hne : next.isEmpty = false := by simpa using hnext
    refine Or.inr ?_
    split at he'
    · rename_i target htarget
      have hlt := Automaton.lt_stateCount_of_label? (h.consistent.stateOf?_eq_some_iff.1 htarget)
      rw [he']
      exact ⟨_, target, rfl, h.transitions_connect hlabel hc hlt, Or.inl ⟨rfl, hlt, rfl⟩⟩
    · rename_i hnew
      have hcount := Automaton.stateCount_internState (m := e.automaton) (.positions next)
      have hkept := Automaton.label?_internState_of_some (.positions next) hlabel
      have hintern := h.intern hlabel hne hnew (e.events.push (.newState e.automaton.stateCount next))
      rw [if_pos hnew] at hcount
      have hlt := Nat.lt_of_lt_of_eq (Nat.lt_succ_self e.automaton.stateCount) hcount.symm
      have htransitions := hintern.transitions_connect hkept hc hlt
      rw [Automaton.internState_of_none hnew] at he' htransitions
      rw [he']
      exact ⟨_, _, rfl, htransitions, Or.inr ⟨next, hnew, by rw [Automaton.internState_of_none hnew], rfl, rfl⟩⟩

/-- The transitions of a run find the states in the order of their numbers. -/
theorem Explored.finds_run (h : Explored arena endMarker name firstpos alphabet taken (followedBelow alphabet taken) e)
    (h0 : Finds e.automaton.transitions e.automaton.stateCount) (fuel : Nat) :
    Finds (run arena endMarker name fuel e).automaton.transitions
      (run arena endMarker name fuel e).automaton.stateCount := by
  refine h.run_induction (P := fun e => Finds e.automaton.transitions e.automaton.stateCount)
    (fun _ _ _ h => h) ?_ h0 fuel
  intro source set followed e c h hlabel hc hfinds
  generalize he' : Exploration.follow arena source set e c = e'
  rcases h.follow_cases hlabel hc he'.symm with rfl | ⟨m, target, hm, htransitions, hcases⟩
  · exact hfinds
  · have hstep := hfinds.step (x := (source, ⟨c, target⟩)) (Automaton.lt_stateCount_of_label? hlabel)
    rw [htransitions, hm, Automaton.stateCount_putTransition]
    rcases hcases with ⟨rfl, hlt, -⟩ | ⟨next, hnew, rfl, rfl, -⟩
    · simpa [Nat.max_eq_left (show target + 1 ≤ e.automaton.stateCount from hlt)] using hstep hlt.le
    · rw [Automaton.transitions_internState, Automaton.stateCount_internState, if_pos hnew]
      simpa using hstep (Nat.le_refl _)

/-- The rows are in the order of the characters that were followed. -/
theorem Explored.sorted (h : Explored arena endMarker name firstpos alphabet taken followed e)
    (hfollowed : ∀ i, (followed i).Pairwise (· < ·)) : e.automaton.Sorted := by
  intro i row hrow
  have hlt : i < e.automaton.stateCount := h.consistent.table_size ▸ (Array.getElem?_eq_some_iff.1 hrow).1
  obtain ⟨label, hlabel⟩ := Automaton.exists_label? hlt
  obtain ⟨set, rfl, -, -⟩ := h.origin hlabel
  obtain rfl : _ = row := Option.some.inj ((h.row hlabel).symm.trans hrow)
  refine List.pairwise_filterMap.2 ((hfollowed i).imp fun hcd a ha b hb => ?_)
  rwa [Automaton.symbol_of_arrow? ha, Automaton.symbol_of_arrow? hb]

theorem Explored.sorted_of_followedBelow
    (h : Explored arena endMarker name firstpos alphabet taken (followedBelow alphabet taken) e) :
    e.automaton.Sorted := by
  refine h.sorted fun i => ?_
  rw [followedBelow]
  split
  · exact alphabet.ascending.imp compare_lt_iff_lt.1
  · exact List.Pairwise.nil

end Exploration

end PositionAutomaton
