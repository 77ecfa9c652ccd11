import PositionAutomaton.PatternTree

/-!
# The printed tree

One line for each node, in the order of `PatternTree.nodes`, indented by two spaces for each level of depth.

An indentation is padding to a width that is known only when the line is printed, and a formatting library may take such
widths up to a bound only: 65535 where it keeps them in 16 bits, and no bound where it keeps them in a machine word.  So
the bound is a parameter here, `widest`, and none stands for no bound.  At a line that is indented further printing
breaks off, and the lines before it have been printed.
-/

namespace PositionAutomaton

/-- What is printed: a whole text, or what comes before the place where printing breaks off. -/
structure Printout where
  text : String
  isWhole : Bool
deriving DecidableEq

namespace Printout

def whole (text : String) : Printout :=
  { text, isWhole := true }

/-- A text is printed behind a whole one only. -/
def append (p : Printout) (text : String) : Printout :=
  if p.isWhole then whole (p.text ++ text) else p

def whole? (p : Printout) : Option String :=
  if p.isWhole then some p.text else none

end Printout

/-- As it stands after the name of a node. -/
def Attributes.text (a : Attributes) : String :=
  s!" nullable={a.nullable} firstpos=" ++ a.firstpos.text ++ " lastpos=" ++ a.lastpos.text

namespace PatternTree

/-- The name of a node, with the letter and the number of a leaf. -/
def heading : PatternTree → String
  | .leaf _ id (.char c) => s!"Literal '{c}' @" ++ toString id.toNat
  | .leaf _ id .endMarker => "EndMarker @" ++ toString id.toNat
  | .epsilon _ => "Epsilon"
  | .concat .. => "Concat"
  | .union .. => "Union"
  | .star .. => "Star"

/-- The line of a node, without indentation and without the lines of its children. -/
def line (t : PatternTree) : String :=
  t.heading ++ (t.attributes?.map Attributes.text).getD "" ++ "\n"

/-- The line of a node at a depth, where its indentation is not too wide. -/
def indentedLine (depth : Nat) (t : PatternTree) : String :=
  String.ofList (List.replicate (2 * depth) ' ') ++ t.line

/-- The indentation at a depth is not too wide. -/
def fits (widest : Option Nat) (depth : Nat) : Bool :=
  widest.all (2 * depth ≤ ·)

/-- Prints the lines of all nodes, up to the first that cannot be indented. -/
def print (widest : Option Nat) (t : PatternTree) : Printout :=
  let nodes := t.nodes
  let printed := nodes.takeWhile fun (depth, _) => fits widest depth
  { text := String.join (printed.map fun (depth, node) => node.indentedLine depth)
    isWhole := nodes.all fun (depth, _) => fits widest depth }

/-- The text of a tree where indentations have no bound. -/
def text (t : PatternTree) : String :=
  (t.print none).text

/-- The text of a tree, none if printing it breaks off. -/
def text? (widest : Option Nat) (t : PatternTree) : Option String :=
  (t.print widest).whole?

end PatternTree

end PositionAutomaton
