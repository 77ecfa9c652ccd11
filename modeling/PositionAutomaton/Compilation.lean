import PositionAutomaton.Compilation.Exploration
import PositionAutomaton.PatternTree.Links
import PositionAutomaton.PatternTree.Parser
import PositionAutomaton.Token.Lexer

/-!
# Compiling a pattern

A pattern is read into tokens and these into a tree with attributes; the tree links its positions, and the sets
of positions become the states of the automaton.
-/

namespace PositionAutomaton

/-- All that a compilation produces. -/
structure Compilation where
  automaton : Automaton
  /-- The tree with its attributes, none for a pattern without tokens. -/
  tree : Option PatternTree := none
  arena : Arena := ∅
  events : Array CompileEvent := #[]

/-- Compiles tokens that are augmented already. -/
def compileTokens (tokens : List Token) (name : String) : Except CompileError Compilation :=
  match PatternTree.parse tokens ∅ with
  | (.error e, _) => .error e
  | (.ok none, arena) => .ok { automaton := ∅, arena, events := #[.noTree name] }
  | (.ok (some tree), arena) => do
    let tree ← tree.withAttributes
    let arena ← tree.linkPositions arena
    let (automaton, events) ← determinize (← tree.attributes) arena name
    let finished := .finished name arena.size automaton.stateCount automaton.acceptingStates.length
    return { automaton, tree := some tree, arena, events := events.push finished }

/-- The automaton of the empty pattern: one state, which accepts. -/
def Automaton.ofEmptyPattern (name : String) : Automaton :=
  let (id, automaton) := Automaton.empty.internState .epsilonOnly
  (automaton.withStart id).markAccepting id name

/-- Compiles a pattern; its accepting states carry `name`. -/
def compile (pattern name : String) : Except CompileError Compilation :=
  if pattern.isEmpty then
    .ok { automaton := .ofEmptyPattern name, events := #[.emptyPattern name] }
  else do
    compileTokens (← Token.scanAugmented pattern) name

/-- The automaton of a pattern. -/
def Automaton.ofPattern (pattern name : String) : Except CompileError Automaton :=
  (compile pattern name).map (·.automaton)

end PositionAutomaton
