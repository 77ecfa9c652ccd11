import PositionAutomaton.Proofs.Exploration.Discovery
import PositionAutomaton.Proofs.Regex.Words

/-!
# Replaying the events

`Automaton.replay?` does again what the events of an exploration report.  `Logged` says that this gives the labels and
the transitions of an automaton, that the transitions are reported in the order in which they stand, and each new state
right before the first transition to it.  A transition to a known state keeps that (`Logged.connect`), and so does one to
a new state (`Logged.intern`), so the events of any run of an exploration replay it (`logged_run`).
-/

namespace PositionAutomaton

/-- What an event reports, done again; none if a new state gets another number than the one that is reported. -/
def Automaton.redo? (m : Automaton) : CompileEvent → Option Automaton
  | .newState id set =>
    let (state, m) := m.internState (.positions set)
    if state = id then some m else none
  | .transition source symbol target => some (m.putTransition source symbol target)
  | .emptyPattern _ | .noTree _ | .finished .. => some m

/-- What the events report, done again one after the other. -/
def Automaton.replay? (m : Automaton) (events : List CompileEvent) : Option Automaton :=
  events.foldlM Automaton.redo? m

/-- The labels and the transitions, with no start, no accepting states and no alphabet. -/
def Automaton.skeleton (m : Automaton) : Automaton :=
  { m with start := none, accepting := ∅, alphabet := ∅ }

namespace CompileEvent

/-- The report of a transition. -/
def ofTransition (x : Nat × Arrow) : CompileEvent :=
  .transition x.1 x.2.symbol x.2.target

/-- The number of a state that is reported as new. -/
def foundState? : CompileEvent → Option Nat
  | .newState id _ => some id
  | _ => none

end CompileEvent

/-- Each new state is reported directly before a transition to it, and no earlier transition leads there. -/
def Announced (events : List CompileEvent) : Prop :=
  ∀ before id set later, events = before ++ .newState id set :: later →
    (∃ source symbol rest, later = .transition source symbol id :: rest) ∧
    ∀ source symbol, .transition source symbol id ∉ before

/-! ### Replaying -/

namespace Automaton

variable {m m' : Automaton}

theorem internState_skeleton (m : Automaton) (label : Label) :
    m.skeleton.internState label = ((m.internState label).1, (m.internState label).2.skeleton) := by
  unfold internState
  rw [show m.skeleton.stateOf? label = m.stateOf? label from rfl]
  split <;> rfl

theorem putTransition_skeleton (m : Automaton) (source : Nat) (symbol : Char) (target : Nat) :
    m.skeleton.putTransition source symbol target = (m.putTransition source symbol target).skeleton := by
  unfold putTransition
  rw [show m.skeleton.transitionFault? source target = m.transitionFault? source target from rfl]
  split <;> rfl

theorem replay?_concat {events : List CompileEvent} (h : m.replay? events = some m') (event : CompileEvent) :
    m.replay? (events ++ [event]) = m'.redo? event := by
  rw [replay?, List.foldlM_append, ← replay?, h]
  exact bind_pure (m'.redo? event)

end Automaton

/-! ### Announcements -/

variable {events : List CompileEvent}

theorem announced_nil : Announced [] := by
  intro before id set later h
  simp at h

/-- Another report than that of a new state may always follow. -/
theorem Announced.concat (h : Announced events) {event : CompileEvent} (hevent : event.foundState? = none) :
    Announced (events ++ [event]) := by
  intro before id set later hsplit
  rcases append_cons_eq_append hsplit.symm with ⟨later, rfl, rfl⟩ | ⟨rest, -, hlast⟩
  · obtain ⟨⟨source, symbol, rest, rfl⟩, hbefore⟩ := h before id set later rfl
    exact ⟨⟨source, symbol, rest ++ [event], rfl⟩, hbefore⟩
  · have hmem : .newState id set ∈ [event] := hlast ▸ List.mem_append_right rest List.mem_cons_self
    rw [← List.mem_singleton.1 hmem] at hevent
    cases hevent

/-- A new state may be reported if no transition leads to it yet and the next one does. -/
theorem Announced.found (h : Announced events) {source id : Nat} {symbol : Char} {set : PositionSet}
    (hfresh : ∀ source symbol, .transition source symbol id ∉ events) :
    Announced (events ++ [.newState id set, .transition source symbol id]) := by
  intro before id' set' later hsplit
  rcases append_cons_eq_append hsplit.symm with ⟨later, rfl, rfl⟩ | ⟨rest, rfl, hlast⟩
  · obtain ⟨⟨source', symbol', rest, rfl⟩, hbefore⟩ := h before id' set' later rfl
    exact ⟨⟨source', symbol', _, rfl⟩, hbefore⟩
  · cases rest with
    | nil =>
      obtain ⟨hstate, rfl⟩ := List.cons.inj hlast
      cases hstate
      exact ⟨⟨source, symbol, [], rfl⟩, by simpa using hfresh⟩
    | cons event rest =>
      -- the last report is none of a new state
      obtain ⟨-, hlast⟩ := List.cons.inj hlast
      have hmem : .newState id' set' ∈ [CompileEvent.transition source symbol id] :=
        hlast ▸ List.mem_append_right rest List.mem_cons_self
      simp at hmem

/-! ### Logs -/

/-- The events report how the automaton was made from a first state for `firstpos`. -/
structure Logged (firstpos : PositionSet) (m : Automaton) (events : List CompileEvent) : Prop where
  pos : 0 < m.stateCount
  replay : ((∅ : Automaton).internState (.positions firstpos)).2.replay? events = some m.skeleton
  traced : events.filter (·.level = .trace) = m.transitions.map .ofTransition
  found : events.filterMap CompileEvent.foundState? = List.range' 1 (m.stateCount - 1)
  announced : Announced events
  target_lt : ∀ {source symbol target}, .transition source symbol target ∈ events → target < m.stateCount

namespace Logged

variable {firstpos : PositionSet} {m m' : Automaton} {source target : Nat} {symbol : Char}

/-- Only the labels and the transitions are reported. -/
theorem of_skeleton (h : Logged firstpos m events) (hm : m'.skeleton = m.skeleton) : Logged firstpos m' events := by
  have hcount : m'.stateCount = m.stateCount :=
    show m'.skeleton.stateCount = m.skeleton.stateCount from congrArg _ hm
  have htransitions : m'.transitions = m.transitions :=
    show m'.skeleton.transitions = m.skeleton.transitions from congrArg _ hm
  exact
    { pos := hcount ▸ h.pos
      replay := hm ▸ h.replay
      traced := htransitions ▸ h.traced
      found := hcount ▸ h.found
      announced := h.announced
      target_lt := hcount ▸ h.target_lt }

/-- A transition to a known state, behind all others. -/
theorem connect (h : Logged firstpos m events) (htarget : target < m.stateCount)
    (htransitions : (m.putTransition source symbol target).transitions = m.transitions ++ [(source, ⟨symbol, target⟩)]) :
    Logged firstpos (m.putTransition source symbol target) (events ++ [.transition source symbol target]) := by
  have hcount := m.stateCount_putTransition source symbol target
  refine ⟨hcount ▸ h.pos, ?_, ?_, ?_, h.announced.concat rfl, ?_⟩
  · rw [Automaton.replay?_concat h.replay, Automaton.redo?, Automaton.putTransition_skeleton]
  · rw [List.filter_append, h.traced, htransitions, List.map_append]
    rfl
  · rw [List.filterMap_append, h.found, hcount]
    exact List.append_nil _
  · intro source' symbol' target' hmem
    rw [hcount]
    rcases List.mem_append.1 hmem with hmem | hmem
    · exact h.target_lt hmem
    · cases List.mem_singleton.1 hmem
      exact htarget

/-- A transition to a new state, behind all others. -/
theorem intern (h : Logged firstpos m events) {set : PositionSet} (hnew : m.stateOf? (.positions set) = none)
    (hm : m' = (m.internState (.positions set)).2)
    (htransitions : (m'.putTransition source symbol m.stateCount).transitions =
      m'.transitions ++ [(source, ⟨symbol, m.stateCount⟩)]) :
    Logged firstpos (m'.putTransition source symbol m.stateCount)
      (events ++ [.newState m.stateCount set, .transition source symbol m.stateCount]) := by
  have hcount : (m'.putTransition source symbol m.stateCount).stateCount = m.stateCount + 1 := by
    rw [Automaton.stateCount_putTransition, hm, Automaton.stateCount_internState, if_pos hnew]
  have hpos := h.pos
  refine ⟨by omega, ?_, ?_, ?_, ?_, ?_⟩
  · have hstate : m.skeleton.redo? (.newState m.stateCount set) = some m'.skeleton := by
      rw [Automaton.redo?, Automaton.internState_skeleton, hm, Automaton.internState_of_none hnew]
      exact if_pos rfl
    have hreplay := (Automaton.replay?_concat h.replay _).trans hstate
    rw [List.append_cons, Automaton.replay?_concat hreplay, Automaton.redo?, Automaton.putTransition_skeleton]
  · rw [List.filter_append, h.traced, htransitions, hm, Automaton.transitions_internState, List.map_append]
    rfl
  · have hlast : 1 + 1 * (m.stateCount - 1) = m.stateCount := by omega
    rw [List.filterMap_append, h.found, hcount, show m.stateCount + 1 - 1 = m.stateCount - 1 + 1 by omega,
      List.range'_concat, hlast]
    rfl
  · exact h.announced.found fun source' symbol' hmem => Nat.lt_irrefl _ (h.target_lt hmem)
  · intro source' symbol' target' hmem
    rw [hcount]
    rcases List.mem_append.1 hmem with hmem | hmem
    · exact Nat.lt_succ_of_lt (h.target_lt hmem)
    · simp at hmem
      omega

/-- The report of the end changes nothing. -/
theorem finish (h : Logged firstpos m events) (name : String) (positions states accepting : Nat) :
    Logged firstpos m (events ++ [.finished name positions states accepting]) where
  pos := h.pos
  replay := Automaton.replay?_concat h.replay _
  traced := by
    rw [List.filter_append, h.traced]
    exact List.append_nil _
  found := by
    rw [List.filterMap_append, h.found]
    exact List.append_nil _
  announced := h.announced.concat rfl
  target_lt hmem := h.target_lt (by simpa using hmem)

end Logged

/-! ### Explorations -/

namespace Exploration

variable {arena : Arena} {endMarker : PositionId} {name : String} {firstpos : PositionSet} {alphabet : OrderedSet Char}
variable {taken : Nat} {followed : Nat → List Char} {e : Exploration}

theorem logged_start (firstpos : PositionSet) (alphabet : OrderedSet Char) :
    Logged firstpos (start firstpos alphabet).automaton [] where
  pos := Nat.one_pos
  replay := rfl
  traced := rfl
  found := rfl
  announced := announced_nil
  target_lt hmem := absurd hmem List.not_mem_nil

theorem Explored.logged_follow {source : Nat} {set : PositionSet} {c : Char}
    (h : Explored arena endMarker name firstpos alphabet (source + 1) followed e)
    (hlabel : e.automaton.label? source = some (.positions set)) (hc : c ∉ followed source)
    (hlogged : Logged firstpos e.automaton e.events.toList) :
    Logged firstpos (Exploration.follow arena source set e c).automaton
      (Exploration.follow arena source set e c).events.toList := by
  generalize he' : Exploration.follow arena source set e c = e'
  rcases h.follow_cases hlabel hc he'.symm with rfl | ⟨m, target, hm, htransitions, hcases⟩
  · exact hlogged
  · rw [hm] at htransitions ⊢
    rcases hcases with ⟨rfl, hlt, hevents⟩ | ⟨next, hnew, hm', rfl, hevents⟩
    · rw [hevents, Array.toList_push]
      exact hlogged.connect hlt htransitions
    · rw [hevents, Array.toList_push, Array.toList_push, List.append_assoc]
      exact hlogged.intern hnew hm' htransitions

/-- Any number of steps from the start is reported. -/
theorem logged_run (hfirst : firstpos.isEmpty = false) (fuel : Nat) :
    Logged firstpos (run arena endMarker name fuel (start firstpos alphabet)).automaton
      (run arena endMarker name fuel (start firstpos alphabet)).events.toList := by
  have hstart : Explored arena endMarker name firstpos alphabet 0 (fun _ => []) (start firstpos alphabet) :=
    explored_start hfirst
  exact hstart.run_induction (P := fun e => Logged firstpos e.automaton e.events.toList)
    (fun _ _ _ h => h.of_skeleton rfl) (fun h hlabel hc hlogged => h.logged_follow hlabel hc hlogged)
    (logged_start firstpos alphabet) fuel

end Exploration

end PositionAutomaton
