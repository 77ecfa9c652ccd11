import PositionAutomaton.Arena
import PositionAutomaton.Automaton
import PositionAutomaton.CompileError
import PositionAutomaton.Compilation.Event
import PositionAutomaton.PatternTree

/-!
# Exploring sets of positions

A state stands for the set of positions that may come next.  The first is the set that begins a word; the set
after a character is what follows the positions of the old set that match it.  States are expanded in the order in
which they are found, so their numbers go up with the distance from the start.
-/

namespace PositionAutomaton

/-- The positions that may come next after a position of `set` has matched `c`. -/
def Arena.successor (arena : Arena) (set : PositionSet) (c : Char) : PositionSet :=
  .unions ((set.toList.filter fun p => arena.symbol? p == some (.char c)).filterMap arena.followpos?)

/-- An automaton in the making: states that are not expanded yet wait in the order in which they were found. -/
structure Exploration where
  automaton : Automaton
  pending : List (Nat × PositionSet)
  expanded : OrderedSet Nat := ∅
  events : Array CompileEvent := #[]

namespace Exploration

/-- One state, the start, with the positions that begin a word. -/
def start (firstpos : PositionSet) (alphabet : OrderedSet Char) : Exploration :=
  let (id, automaton) := Automaton.empty.internState (.positions firstpos)
  { automaton := (automaton.withStart id).withAlphabet alphabet, pending := [(id, firstpos)] }

/-- Adds a transition and reports it. -/
def connect (e : Exploration) (source : Nat) (symbol : Char) (target : Nat) : Exploration :=
  { e with
    automaton := e.automaton.putTransition source symbol target
    events := e.events.push (.transition source symbol target) }

/-- Adds the transition on `c`, to a new state if its set was not seen before, and none to the empty set. -/
def follow (arena : Arena) (source : Nat) (set : PositionSet) (e : Exploration) (c : Char) : Exploration :=
  let next := arena.successor set c
  if next.isEmpty then
    e
  else
    match e.automaton.stateOf? (.positions next) with
    | some target => e.connect source c target
    | none =>
      let (target, automaton) := e.automaton.internState (.positions next)
      let found : Exploration :=
        { e with
          automaton
          pending := e.pending ++ [(target, next)]
          events := e.events.push (.newState target next) }
      found.connect source c target

/-- Marks a state that holds the end marker as accepting and adds its transitions, character by character. -/
def expand (e : Exploration) (arena : Arena) (endMarker : PositionId) (name : String) (source : Nat)
    (set : PositionSet) : Exploration :=
  let e := { e with expanded := e.expanded.insert source }
  let e := if endMarker ∈ set then { e with automaton := e.automaton.markAccepting source name } else e
  e.automaton.alphabet.toList.foldl (follow arena source set) e

/-- Takes the first waiting state and expands it if that was not done before; none when no state waits. -/
def step? (arena : Arena) (endMarker : PositionId) (name : String) (e : Exploration) : Option Exploration :=
  match e.pending with
  | [] => none
  | (source, set) :: pending =>
    let e := { e with pending }
    some (if source ∈ e.expanded then e else e.expand arena endMarker name source set)

/-- Takes steps until no state waits, at most `fuel` of them. -/
def run (arena : Arena) (endMarker : PositionId) (name : String) : Nat → Exploration → Exploration
  | 0, e => e
  | fuel + 1, e =>
    match e.step? arena endMarker name with
    | none => e
    | some e => run arena endMarker name fuel e

end Exploration

/-- The automaton of a pattern without positions to begin with: it accepts at most the empty word. -/
def Automaton.withoutPositions (nullable : Bool) (alphabet : OrderedSet Char) (name : String) : Automaton :=
  let (id, automaton) := Automaton.empty.internState (if nullable then .epsilonOnly else .emptyLanguage)
  let automaton := automaton.withStart id
  let automaton := if nullable then automaton.markAccepting id name else automaton
  automaton.withAlphabet alphabet

/-- The automaton of a linked arena, from the attributes of the root of its tree.  Each state is a different set of
positions, so no more than `2 ^ arena.size` states are expanded. -/
def determinize (root : Attributes) (arena : Arena) (name : String) :
    Except CompileError (Automaton × Array CompileEvent) :=
  let alphabet := arena.alphabet
  if root.firstpos.isEmpty then
    .ok (.withoutPositions root.nullable alphabet name, #[])
  else
    match arena.firstMatching? .endMarker with
    | none => .error (.positionNotFound .endMarker)
    | some endMarker =>
      let e := (Exploration.start root.firstpos alphabet).run arena endMarker name (Nat.pow 2 arena.size)
      .ok (e.automaton, e.events)

end PositionAutomaton
