import PositionAutomaton.Automaton.Label
import PositionAutomaton.OrderedMap

/-!
# Deterministic automata

States are numbered in the order in which their labels appear.  A transition that is missing rejects, so no dead
state is kept.  The fields of an automaton are independent: one that was read from bytes may name states that it does
not have, and every operation says which field decides.
-/

namespace PositionAutomaton

/-- A transition, without the state it leaves. -/
structure Arrow where
  symbol : Char
  target : Nat
deriving DecidableEq, Inhabited

/-- A deterministic automaton whose states have labels. -/
structure Automaton where
  /-- For each state the arrows that leave it. -/
  table : Array (List Arrow) := #[]
  labels : Array Label := #[]
  /-- The number of the state with a label. -/
  ids : OrderedMap Label Nat := ∅
  start : Option Nat := none
  /-- The accepting states, each with the names of the patterns it accepts. -/
  accepting : OrderedMap Nat (OrderedSet String) := ∅
  alphabet : OrderedSet Char := ∅
deriving DecidableEq, Inhabited

namespace Automaton

def empty : Automaton := {}

instance : EmptyCollection Automaton :=
  ⟨empty⟩

/-! ### Views -/

def stateCount (m : Automaton) : Nat :=
  m.labels.size

def label? (m : Automaton) (state : Nat) : Option Label :=
  m.labels[state]?

def stateOf? (m : Automaton) (label : Label) : Option Nat :=
  m.ids.get? label

def isFinal (m : Automaton) (state : Nat) : Bool :=
  m.accepting.contains state

def namesAt? (m : Automaton) (state : Nat) : Option (OrderedSet String) :=
  m.accepting.get? state

/-- The accepting states in ascending order. -/
def acceptingStates (m : Automaton) : List Nat :=
  m.accepting.keys

/-- The target of the first arrow of `state` on `c`. -/
def next? (m : Automaton) (state : Nat) (c : Char) : Option Nat := do
  let row ← m.table[state]?
  let arrow ← row.find? (·.symbol == c)
  return arrow.target

/-- Every arrow with the state it leaves, state by state. -/
def transitions (m : Automaton) : List (Nat × Arrow) :=
  m.table.toList.zipIdx.flatMap fun (row, state) => row.map (state, ·)

/-! ### Walks -/

/-- The states passed on a word from `state`, up to the first missing transition, and whether the whole word was read
and the last state accepts. -/
def walkFrom (m : Automaton) (state : Nat) : List Char → List Nat × Bool
  | [] => ([state], m.isFinal state)
  | c :: w =>
    match m.next? state c with
    | none => ([state], false)
    | some target =>
      let (states, accepted) := m.walkFrom target w
      (state :: states, accepted)

/-- The walk from the start state; without one no state is passed and nothing is accepted. -/
def walk (m : Automaton) (w : List Char) : List Nat × Bool :=
  match m.start with
  | none => ([], false)
  | some state => m.walkFrom state w

/-- The state reached on a word from `state`. -/
def run? (m : Automaton) (state : Nat) : List Char → Option Nat
  | [] => some state
  | c :: w => (m.next? state c).bind fun target => m.run? target w

/-- Whether the walk on the word ends in an accepting state. -/
def accepts (m : Automaton) (w : List Char) : Bool :=
  (m.walk w).2

/-! ### Building -/

/-- The state with a label, a new one if the label was not seen before. -/
def internState (m : Automaton) (label : Label) : Nat × Automaton :=
  match m.stateOf? label with
  | some id => (id, m)
  | none =>
    let id := m.labels.size
    (id, { m with labels := m.labels.push label, table := m.table.push [], ids := m.ids.insert label id })

/-- Why a change names a state that the automaton does not have. -/
inductive UnknownState where
  | accepting (state : Nat)
  | target (state : Nat)
  | source (state : Nat)
deriving DecidableEq

def UnknownState.warning : UnknownState → String
  | .accepting state => s!"ignoring accept mark for unknown state {state}"
  | .target state => s!"ignoring transition to unknown state {state}"
  | .source state => s!"ignoring transition from unknown state {state}"

/-- Only labelled states can be marked. -/
def acceptFault? (m : Automaton) (state : Nat) : Option UnknownState :=
  if state < m.labels.size then none else some (.accepting state)

/-- An arrow leads to a labelled state and leaves a state with a row in the table. -/
def transitionFault? (m : Automaton) (source target : Nat) : Option UnknownState :=
  if m.labels.size ≤ target then
    some (.target target)
  else if m.table.size ≤ source then
    some (.source source)
  else
    none

/-- Lets `state` accept the pattern `name`, besides those it accepts already.  An unknown state changes nothing. -/
def markAccepting (m : Automaton) (state : Nat) (name : String) : Automaton :=
  match m.acceptFault? state with
  | some _ => m
  | none =>
    let names := (m.namesAt? state).getD ∅
    { m with accepting := m.accepting.insert state (names.insert name) }

/-- The row with its first arrow on the same symbol replaced, or with the arrow as its last. -/
def putArrow (arrow : Arrow) : List Arrow → List Arrow
  | [] => [arrow]
  | a :: row => if a.symbol = arrow.symbol then arrow :: row else a :: putArrow arrow row

/-- Leads `source` on `symbol` to `target`, in place of an earlier transition.  An unknown state changes nothing. -/
def putTransition (m : Automaton) (source : Nat) (symbol : Char) (target : Nat) : Automaton :=
  match m.transitionFault? source target with
  | some _ => m
  | none => { m with table := m.table.modify source (putArrow ⟨symbol, target⟩) }

/-- Any number may be the start, also one that is no state. -/
def withStart (m : Automaton) (state : Nat) : Automaton :=
  { m with start := some state }

def withAlphabet (m : Automaton) (alphabet : OrderedSet Char) : Automaton :=
  { m with alphabet }

end Automaton

end PositionAutomaton
