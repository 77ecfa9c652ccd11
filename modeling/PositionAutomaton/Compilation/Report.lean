import PositionAutomaton.Compilation
import PositionAutomaton.PatternTree.Printer

/-!
# The report on a compilation

The tree of the pattern, then each position with the positions that may follow it.
-/

namespace PositionAutomaton

/-- The line of a position: its number, what it matches and what may follow it. -/
def Position.followLine (p : Position) : String :=
  "  " ++ toString p.id.toNat ++ " " ++ p.symbol.text ++ " -> " ++ PositionSet.text p.followpos ++ "\n"

def Arena.followTable (arena : Arena) : String :=
  "followpos:\n" ++ String.join (arena.toList.map Position.followLine)

/-- The tree, an empty line and the links, unless printing the tree breaks off. -/
def Compilation.report (widest : Option Nat) (c : Compilation) : Printout :=
  let tree :=
    match c.tree with
    | some t => t.print widest
    | none => .whole "(no syntax tree for an empty pattern)\n"
  tree.append ("\n" ++ c.arena.followTable)

end PositionAutomaton
