import PositionAutomaton.Proofs.PatternTree.Attributes

/-!
# Trees with other numbers

`PatternTree.renumber` replaces the numbers of the positions in a tree by a function, in the leaves and in the
attributes of every node.  The words over the numbers are replaced letter by letter (`idRegex_renumber`), and the
attribute pass gives the renumbered tree the renumbered attributes (`annotated_renumber`).  The attributes of a tree
hold no other numbers than its leaves (`mem_letters_of_mem_numbers`).
-/

namespace PositionAutomaton

variable (f : PositionId → PositionId)

/-! ### Sets and attributes -/

/-- The set of the new numbers. -/
def PositionSet.renumber (s : PositionSet) : PositionSet :=
  .ofList (s.toList.map f)

namespace PositionSet

theorem mem_renumber {s : PositionSet} {q : PositionId} : q ∈ s.renumber f ↔ ∃ p ∈ s, f p = q := by
  rw [renumber, OrderedSet.mem_ofList, List.mem_map]
  rfl

@[simp]
theorem renumber_empty : renumber f ∅ = ∅ :=
  rfl

theorem renumber_union (s t : PositionSet) : renumber f (s ∪ t) = s.renumber f ∪ t.renumber f := by
  ext q
  simp only [OrderedSet.mem_union, mem_renumber, or_and_right, exists_or]

end PositionSet

/-- The attributes of the renumbered subtree. -/
def Attributes.renumber (a : Attributes) : Attributes where
  nullable := a.nullable
  firstpos := a.firstpos.renumber f
  lastpos := a.lastpos.renumber f

/-- The numbers in both sets. -/
def Attributes.numbers (a : Attributes) : List PositionId :=
  a.firstpos.toList ++ a.lastpos.toList

namespace Attributes

theorem renumber_concat (l r : Attributes) : (concat l r).renumber f = concat (l.renumber f) (r.renumber f) := by
  simp only [renumber, concat, apply_ite (PositionSet.renumber f), PositionSet.renumber_union]
  rfl

theorem renumber_union (l r : Attributes) : (union l r).renumber f = union (l.renumber f) (r.renumber f) := by
  simp only [renumber, union, PositionSet.renumber_union]

theorem renumber_star (c : Attributes) : (star c).renumber f = star (c.renumber f) :=
  rfl

end Attributes

/-! ### Trees -/

namespace PatternTree

/-- The tree with new numbers in its leaves and in the attributes of its nodes. -/
def renumber : PatternTree → PatternTree
  | .leaf a id symbol => .leaf (a.map (·.renumber f)) (f id) symbol
  | .epsilon a => .epsilon (a.map (·.renumber f))
  | .concat a left right => .concat (a.map (·.renumber f)) left.renumber right.renumber
  | .union a left right => .union (a.map (·.renumber f)) left.renumber right.renumber
  | .star a child => .star (a.map (·.renumber f)) child.renumber

theorem idRegex_renumber (t : PatternTree) : (t.renumber f).idRegex = t.idRegex.map f := by
  induction t with
  | leaf | epsilon => rfl
  | concat a left right ihl ihr =>
    show Regex.concat (left.renumber f).idRegex (right.renumber f).idRegex = _
    rw [ihl, ihr]
    rfl
  | union a left right ihl ihr =>
    show Regex.union (left.renumber f).idRegex (right.renumber f).idRegex = _
    rw [ihl, ihr]
    rfl
  | star a child ih =>
    show Regex.star (child.renumber f).idRegex = _
    rw [ih]
    rfl

theorem rootAttributes_renumber (t : PatternTree) : (t.renumber f).rootAttributes = t.rootAttributes.renumber f := by
  induction t with
  | leaf | epsilon => rfl
  | concat a left right ihl ihr => rw [renumber, rootAttributes, rootAttributes, ihl, ihr, Attributes.renumber_concat]
  | union a left right ihl ihr => rw [renumber, rootAttributes, rootAttributes, ihl, ihr, Attributes.renumber_union]
  | star a child ih => rw [renumber, rootAttributes, rootAttributes, ih, Attributes.renumber_star]

/-- Every node of the renumbered tree gets the renumbered attributes. -/
theorem annotated_renumber (t : PatternTree) : (t.renumber f).annotated = t.annotated.renumber f := by
  induction t with
  | leaf | epsilon => rfl
  | concat a left right ihl ihr =>
    simp only [renumber, annotated, Option.map_some, rootAttributes_renumber, ihl, ihr, Attributes.renumber_concat]
  | union a left right ihl ihr =>
    simp only [renumber, annotated, Option.map_some, rootAttributes_renumber, ihl, ihr, Attributes.renumber_union]
  | star a child ih =>
    simp only [renumber, annotated, Option.map_some, rootAttributes_renumber, ih, Attributes.renumber_star]

/-! ### All numbers of a tree -/

/-- The numbers in the leaves and in the attributes of the nodes. -/
def numbers : PatternTree → List PositionId
  | .leaf a id _ => id :: a.elim [] Attributes.numbers
  | .epsilon a => a.elim [] Attributes.numbers
  | .concat a left right | .union a left right => a.elim [] Attributes.numbers ++ (left.numbers ++ right.numbers)
  | .star a child => a.elim [] Attributes.numbers ++ child.numbers

theorem mem_letters_of_mem_attributes {t : PatternTree} {p : PositionId} (hp : p ∈ t.rootAttributes.numbers) :
    p ∈ t.idRegex.letters := by
  rcases List.mem_append.1 hp with hp | hp
  · obtain ⟨v, hv⟩ := t.mem_firstpos_rootAttributes.1 hp
    exact Regex.Matches.letter_mem (u := []) hv
  · rw [letters_idRegex]
    exact mem_letters_of_mem_lastpos hp

/-- The attributes hold no other numbers than the leaves. -/
theorem mem_letters_of_mem_numbers {t : PatternTree} {p : PositionId} (hp : p ∈ t.annotated.numbers) :
    p ∈ t.idRegex.letters := by
  induction t with
  | leaf a id symbol =>
    rcases List.mem_cons.1 hp with rfl | hp
    · exact List.mem_cons_self
    · exact mem_letters_of_mem_attributes hp
  | epsilon a => exact mem_letters_of_mem_attributes hp
  | concat a left right ihl ihr =>
    rcases List.mem_append.1 hp with hp | hp
    · exact mem_letters_of_mem_attributes hp
    · exact List.mem_append.2 ((List.mem_append.1 hp).imp ihl ihr)
  | union a left right ihl ihr =>
    rcases List.mem_append.1 hp with hp | hp
    · exact mem_letters_of_mem_attributes hp
    · exact List.mem_append.2 ((List.mem_append.1 hp).imp ihl ihr)
  | star a child ih =>
    rcases List.mem_append.1 hp with hp | hp
    · exact mem_letters_of_mem_attributes hp
    · exact ih hp

end PatternTree

end PositionAutomaton
