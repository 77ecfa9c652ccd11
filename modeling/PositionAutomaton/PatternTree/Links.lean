import PositionAutomaton.Arena
import PositionAutomaton.PatternTree.Annotation

/-!
# Links between positions

A position follows another where a concatenation joins the end of its left side to the beginning of its right side,
and where a star goes round from the end of its child to the beginning.  Linking can fail at any node, and the arena
keeps the links that were made before; which these are depends on the order of the nodes (`PatternTree.linkOrder`).
-/

namespace PositionAutomaton

/-- Lets each of the listed positions be followed by all of `next`, up to the first that is not in the arena. -/
def Arena.link (next : PositionSet) (arena : Arena) : List PositionId → Except CompileError Unit × Arena
  | [] => (.ok (), arena)
  | p :: ps =>
    match arena.addFollowers? p next with
    | some arena => arena.link next ps
    | none => (.error (.brokenInvariant .positionNotAllocated), arena)

namespace PatternTree

/-- The positions that one node links, and those that follow them; the links of its children are their own. -/
def ownLinks : PatternTree → Except CompileError (List PositionId × PositionSet)
  | .concat _ left right => do
    let l ← left.attributes
    let r ← right.attributes
    return (l.lastpos.toList, r.firstpos)
  | .star _ child => do
    let c ← child.attributes
    return (c.lastpos.toList, c.firstpos)
  | .leaf .. | .epsilon _ | .union .. => .ok ([], ∅)

def linkNode (t : PatternTree) (arena : Arena) : Except CompileError Unit × Arena :=
  match t.ownLinks with
  | .ok (ps, next) => arena.link next ps
  | .error e => (.error e, arena)

/-- The links of the listed nodes, one node after the other up to the first that fails. -/
def linkNodes (arena : Arena) : List PatternTree → Except CompileError Unit × Arena
  | [] => (.ok (), arena)
  | t :: ts =>
    match t.linkNode arena with
    | (.ok (), arena) => linkNodes arena ts
    | (.error e, arena) => (.error e, arena)

/-- The nodes of the waiting subtrees, every node before its children and the right child before the left one. -/
def linkWalk : List PatternTree → List PatternTree
  | [] => []
  | t :: waiting => t :: linkWalk (t.children.reverse ++ waiting)
termination_by waiting => totalSize (waiting.map (0, ·))
decreasing_by
  cases t <;>
    simp only [children, List.reverse_nil, List.reverse_cons, List.nil_append, List.cons_append, List.map_cons,
      totalSize, size] <;>
    omega

theorem linkWalk_nil : linkWalk [] = [] := by
  rw [linkWalk]

theorem linkWalk_cons (t : PatternTree) (waiting : List PatternTree) :
    linkWalk (t :: waiting) = t :: linkWalk (t.children.reverse ++ waiting) := by
  rw [linkWalk]

/-- All nodes in the order in which they are linked. -/
def linkOrder (t : PatternTree) : List PatternTree :=
  linkWalk [t]

/-- Adds the links of all nodes of an annotated tree to the positions in the arena. -/
def link (t : PatternTree) (arena : Arena) : Except CompileError Unit × Arena :=
  linkNodes arena t.linkOrder

/-- The linked arena, if linking does not fail. -/
def linkPositions (t : PatternTree) (arena : Arena) : Except CompileError Arena :=
  let (result, arena) := t.link arena
  result.map fun () => arena

end PatternTree

end PositionAutomaton
