import PositionAutomaton.Position

/-!
# Syntax trees

The tree of a pattern, with a position at every letter.  A node has no attributes until they are computed
(`PatternTree.withAttributes`).  Trees of long patterns are deep, so the passes over a tree keep a list of the
subtrees still to visit instead of calling themselves on each child; `PatternTree.nodes` is that walk, and it visits
the nodes as the recursion does (`nodes_eq_preorder`).
-/

namespace PositionAutomaton

/-- What a subtree says of its language: whether the empty word belongs to it, and which positions begin and end
its other words. -/
structure Attributes where
  nullable : Bool
  firstpos : PositionSet
  lastpos : PositionSet
deriving DecidableEq

/-- The tree of a pattern.  A leaf is a position, and every node has room for its attributes. -/
inductive PatternTree where
  | leaf (attributes : Option Attributes) (id : PositionId) (symbol : Symbol)
  | epsilon (attributes : Option Attributes)
  | concat (attributes : Option Attributes) (left right : PatternTree)
  | union (attributes : Option Attributes) (left right : PatternTree)
  | star (attributes : Option Attributes) (child : PatternTree)
deriving DecidableEq

namespace PatternTree

instance : Inhabited PatternTree :=
  ⟨.epsilon none⟩

/-- The attributes of the root, none before they are computed. -/
def attributes? : PatternTree → Option Attributes
  | .leaf a _ _ | .epsilon a | .concat a _ _ | .union a _ _ | .star a _ => a

/-- The children of a node from left to right. -/
def children : PatternTree → List PatternTree
  | .leaf .. | .epsilon _ => []
  | .concat _ left right | .union _ left right => [left, right]
  | .star _ child => [child]

/-- The number of nodes. -/
def size : PatternTree → Nat
  | .leaf .. | .epsilon _ => 1
  | .concat _ left right | .union _ left right => left.size + right.size + 1
  | .star _ child => child.size + 1

/-- The number of nodes of waiting subtrees. -/
def totalSize : List (Nat × PatternTree) → Nat
  | [] => 0
  | (_, t) :: waiting => t.size + totalSize waiting

/-- The nodes of the waiting subtrees, each with its depth, every node before its children. -/
def walk : List (Nat × PatternTree) → List (Nat × PatternTree)
  | [] => []
  | (depth, t) :: waiting => (depth, t) :: walk (t.children.map (depth + 1, ·) ++ waiting)
termination_by waiting => totalSize waiting
decreasing_by
  cases t <;>
    simp only [children, List.map_cons, List.map_nil, List.cons_append, List.nil_append, totalSize, size] <;>
    omega

/-- All nodes with their depths, a node before its children and the left child before the right one. -/
def nodes (t : PatternTree) : List (Nat × PatternTree) :=
  walk [(0, t)]

/-- The nodes of a subtree by recursion. -/
def preorder (depth : Nat) : PatternTree → List (Nat × PatternTree)
  | .leaf a id symbol => [(depth, .leaf a id symbol)]
  | .epsilon a => [(depth, .epsilon a)]
  | .concat a left right =>
    (depth, .concat a left right) :: (left.preorder (depth + 1) ++ right.preorder (depth + 1))
  | .union a left right =>
    (depth, .union a left right) :: (left.preorder (depth + 1) ++ right.preorder (depth + 1))
  | .star a child => (depth, .star a child) :: child.preorder (depth + 1)

theorem walk_cons (depth : Nat) (t : PatternTree) (waiting : List (Nat × PatternTree)) :
    walk ((depth, t) :: waiting) = t.preorder depth ++ walk waiting := by
  induction t generalizing depth waiting with
  | leaf => rw [walk]; rfl
  | epsilon => rw [walk]; rfl
  | concat a left right ihl ihr => rw [walk]; simp [children, preorder, ihl, ihr]
  | union a left right ihl ihr => rw [walk]; simp [children, preorder, ihl, ihr]
  | star a child ih => rw [walk]; simp [children, preorder, ih]

theorem nodes_eq_preorder (t : PatternTree) : t.nodes = t.preorder 0 := by
  rw [nodes, walk_cons, walk, List.append_nil]

end PatternTree

end PositionAutomaton
