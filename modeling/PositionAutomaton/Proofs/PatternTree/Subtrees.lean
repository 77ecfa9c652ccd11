import PositionAutomaton.PatternTree.Language
import PositionAutomaton.PatternTree.Parser

/-!
# The nodes of a tree

All subtrees of a tree, a node before its children (`PatternTree.subtrees`), with an equation for each constructor.  A
node is the leaf of a token, with a position or without, or the node of an operator.
-/

namespace PositionAutomaton

namespace PatternTree

/-- The token that a leaf stands for. -/
def leafToken? : PatternTree → Option Token
  | .leaf _ _ (.char c) => some (.literal c)
  | .leaf _ _ .endMarker => some .endMarker
  | .epsilon _ => some .epsilon
  | _ => none

/-- The number and the symbol of a leaf that has a position. -/
def position? : PatternTree → Option (PositionId × Symbol)
  | .leaf _ id symbol => some (id, symbol)
  | _ => none

def operator? : PatternTree → Option Operator
  | .concat .. => some .concat
  | .union .. => some .union
  | .star .. => some .star
  | _ => none

theorem leafToken?_of_operator? {t : PatternTree} {op : Operator} (h : t.operator? = some op) : t.leafToken? = none := by
  cases t <;> cases h <;> rfl

/-- The nodes without their depths. -/
def subtrees (t : PatternTree) : List PatternTree :=
  t.nodes.map Prod.snd

theorem map_snd_preorder (depth : Nat) (t : PatternTree) : (t.preorder depth).map Prod.snd = t.subtrees := by
  rw [subtrees, nodes_eq_preorder]
  generalize 0 = depth'
  induction t generalizing depth depth' with
  | leaf | epsilon => rfl
  | concat a left right ihl ihr =>
    simp only [preorder, List.map_cons, List.map_append, ihl _ (depth' + 1), ihr _ (depth' + 1)]
  | union a left right ihl ihr =>
    simp only [preorder, List.map_cons, List.map_append, ihl _ (depth' + 1), ihr _ (depth' + 1)]
  | star a child ih => simp only [preorder, List.map_cons, ih _ (depth' + 1)]

variable (a : Option Attributes) (left right child : PatternTree)

@[simp]
theorem subtrees_leaf (id : PositionId) (symbol : Symbol) : subtrees (.leaf a id symbol) = [.leaf a id symbol] :=
  (map_snd_preorder 0 _).symm

@[simp]
theorem subtrees_epsilon : subtrees (.epsilon a) = [.epsilon a] :=
  (map_snd_preorder 0 _).symm

@[simp]
theorem subtrees_concat :
    subtrees (.concat a left right) = .concat a left right :: (left.subtrees ++ right.subtrees) := by
  rw [← map_snd_preorder 0, preorder, List.map_cons, List.map_append, map_snd_preorder, map_snd_preorder]

@[simp]
theorem subtrees_union :
    subtrees (.union a left right) = .union a left right :: (left.subtrees ++ right.subtrees) := by
  rw [← map_snd_preorder 0, preorder, List.map_cons, List.map_append, map_snd_preorder, map_snd_preorder]

@[simp]
theorem subtrees_star : subtrees (.star a child) = .star a child :: child.subtrees := by
  rw [← map_snd_preorder 0, preorder, List.map_cons, map_snd_preorder]

/-- The letters of the expression are the leaves with a position. -/
theorem letters_regex (t : PatternTree) : t.regex.letters = t.subtrees.filterMap position? := by
  induction t with
  | leaf a id symbol => rw [subtrees_leaf]; rfl
  | epsilon a => rw [subtrees_epsilon]; rfl
  | concat a left right ihl ihr =>
    rw [subtrees_concat, List.filterMap_cons_none rfl, List.filterMap_append, ← ihl, ← ihr]
    rfl
  | union a left right ihl ihr =>
    rw [subtrees_union, List.filterMap_cons_none rfl, List.filterMap_append, ← ihl, ← ihr]
    rfl
  | star a child ih =>
    rw [subtrees_star, List.filterMap_cons_none rfl, ← ih]
    rfl

end PatternTree

end PositionAutomaton
