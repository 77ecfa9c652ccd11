import PositionAutomaton.Position

/-!
# Compilation events

What a compilation reports while it runs, as values; `CompileEvent.text` is their wording.
-/

namespace PositionAutomaton

/-- Something that happened during a compilation. -/
inductive CompileEvent where
  | emptyPattern (name : String)
  | noTree (name : String)
  | newState (id : Nat) (set : PositionSet)
  | transition (source : Nat) (symbol : Char) (target : Nat)
  | finished (name : String) (positions states accepting : Nat)
deriving DecidableEq

namespace CompileEvent

/-- How detailed a report an event belongs to. -/
inductive Level where
  | debug
  | trace
deriving DecidableEq

/-- Transitions are many and are reported at the finest level. -/
def level : CompileEvent → Level
  | .transition .. => .trace
  | _ => .debug

/-- Each number under the name of its type, between braces. -/
def setText (s : PositionSet) : String :=
  "\x7b" ++ ", ".intercalate (s.toList.map fun p => s!"PositionId({p.toNat})") ++ "\x7d"

def text : CompileEvent → String
  | .emptyPattern name => s!"pattern {name}: empty regex"
  | .noTree name => s!"pattern {name}: no syntax tree"
  | .newState id set => s!"new state {id} for " ++ setText set
  | .transition source symbol target => s!"{source} --{symbol}--> {target}"
  | .finished name positions states accepting =>
    s!"pattern {name}: {positions} positions, {states} states, {accepting} accepting"

end CompileEvent

end PositionAutomaton
