import PositionAutomaton.Automaton

/-!
# Drawings of automata

The automaton as a directed graph in the dot format: a line for each state, one for the start, and one for each
transition.
-/

namespace PositionAutomaton

namespace Automaton

/-- A character inside the quotes of a label; a quote and a backslash are escaped. -/
def graphvizLabel : Char → String
  | '"' => "\\\""
  | '\\' => "\\\\"
  | c => String.singleton c

def graphvizPreamble : List String :=
  ["digraph \x7b",
    "rankdir = LR;",
    "ranksep = .75;",
    "    node [shape=circle style=filled]",
    "    start [shape=none, label=\"start\", style=\"\"]"]

/-- Accepting states have a double border, and the label shows as a tooltip. -/
def graphvizState (m : Automaton) (state : Nat) (label : Label) : String :=
  let shape := if m.isFinal state then "doublecircle" else "circle"
  toString state ++ " [shape=" ++ shape ++ " tooltip=\"" ++ label.text ++ "\"]"

def graphvizArrow (state : Nat) (arrow : Arrow) : String :=
  toString state ++ " -> " ++ toString arrow.target ++ " [label=\"" ++ graphvizLabel arrow.symbol ++ "\"]"

def graphvizLines (m : Automaton) : List String :=
  graphvizPreamble
    ++ m.labels.toList.zipIdx.map (fun (label, state) => m.graphvizState state label)
    ++ m.start.toList.map (fun state => "start->" ++ toString state)
    ++ m.transitions.map (fun (state, arrow) => graphvizArrow state arrow)
    ++ ["\x7d"]

/-- The lines with line feeds between them and none at the end. -/
def graphviz (m : Automaton) : String :=
  "\n".intercalate m.graphvizLines

end Automaton

end PositionAutomaton
