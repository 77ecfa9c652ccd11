import PositionAutomaton.PatternTree.Annotation
import PositionAutomaton.PatternTree.Language
import PositionAutomaton.Proofs.Regex.Locality

/-!
# What the attributes say

The attributes of a node are facts about the words of its subtree over the numbers of its positions: whether the empty
word is one of them (`nullable_rootAttributes`), and which numbers begin and end the other words
(`mem_firstpos_rootAttributes`, `mem_lastpos_rootAttributes`).
-/

namespace PositionAutomaton

namespace PatternTree

/-- The tree as an expression over the numbers of its positions. -/
def idRegex (t : PatternTree) : Regex PositionId :=
  t.regex.map Prod.fst

theorem matches_iff {t : PatternTree} {w : List PositionId} : t.Matches w ↔ t.idRegex.Matches w :=
  Iff.rfl

theorem letters_idRegex (t : PatternTree) : t.idRegex.letters = t.regex.letters.map Prod.fst :=
  Regex.letters_map ..

/-- The empty word is in the language exactly if the node is nullable. -/
theorem nullable_rootAttributes (t : PatternTree) : t.rootAttributes.nullable = true ↔ t.Matches [] := by
  rw [matches_iff]
  induction t with
  | leaf a id symbol =>
    show false = true ↔ Regex.Matches (.letter id) []
    simp [Regex.matches_letter_iff]
  | epsilon a =>
    show true = true ↔ Regex.Matches .epsilon []
    simp [Regex.matches_epsilon_iff]
  | concat a left right ihl ihr =>
    show (left.rootAttributes.nullable && right.rootAttributes.nullable) = true ↔
      Regex.Matches (.concat left.idRegex right.idRegex) []
    rw [Bool.and_eq_true, ihl, ihr, Regex.matches_concat_iff]
    constructor
    · intro h
      obtain ⟨hl, hr⟩ := h
      exact ⟨[], [], rfl, hl, hr⟩
    · intro h
      obtain ⟨u, v, huv, hl, hr⟩ := h
      obtain ⟨rfl, rfl⟩ := List.append_eq_nil_iff.1 huv.symm
      exact ⟨hl, hr⟩
  | union a left right ihl ihr =>
    show (left.rootAttributes.nullable || right.rootAttributes.nullable) = true ↔
      Regex.Matches (.union left.idRegex right.idRegex) []
    rw [Bool.or_eq_true, ihl, ihr, Regex.matches_union_iff]
  | star a child ih =>
    show true = true ↔ Regex.Matches (.star child.idRegex) []
    exact iff_of_true rfl .starNil

/-- `firstpos` holds the numbers that begin a word. -/
theorem mem_firstpos_rootAttributes (t : PatternTree) {q : PositionId} :
    q ∈ t.rootAttributes.firstpos ↔ t.idRegex.Begins q := by
  induction t with
  | leaf a id symbol =>
    show q ∈ ({id} : PositionSet) ↔ Regex.Begins (.letter id) q
    rw [OrderedSet.mem_singleton, Regex.begins_letter]
  | epsilon a =>
    show q ∈ (∅ : PositionSet) ↔ Regex.Begins .epsilon q
    exact iff_of_false OrderedSet.not_mem_empty Regex.not_begins_epsilon
  | concat a left right ihl ihr =>
    show q ∈ (if left.rootAttributes.nullable then left.rootAttributes.firstpos ∪ right.rootAttributes.firstpos
      else left.rootAttributes.firstpos) ↔ Regex.Begins (.concat left.idRegex right.idRegex) q
    rw [Regex.begins_concat, ← ihl, ← ihr, ← matches_iff, ← nullable_rootAttributes]
    split
    · simp [*]
    · simp [*]
  | union a left right ihl ihr =>
    show q ∈ left.rootAttributes.firstpos ∪ right.rootAttributes.firstpos ↔
      Regex.Begins (.union left.idRegex right.idRegex) q
    rw [Regex.begins_union, ← ihl, ← ihr, OrderedSet.mem_union]
  | star a child ih =>
    show q ∈ child.rootAttributes.firstpos ↔ Regex.Begins (.star child.idRegex) q
    rw [Regex.begins_star, ih]

/-- `lastpos` holds the numbers that end a word. -/
theorem mem_lastpos_rootAttributes (t : PatternTree) {q : PositionId} :
    q ∈ t.rootAttributes.lastpos ↔ t.idRegex.Ends q := by
  induction t with
  | leaf a id symbol =>
    show q ∈ ({id} : PositionSet) ↔ Regex.Ends (.letter id) q
    rw [OrderedSet.mem_singleton, Regex.ends_letter]
  | epsilon a =>
    show q ∈ (∅ : PositionSet) ↔ Regex.Ends .epsilon q
    exact iff_of_false OrderedSet.not_mem_empty Regex.not_ends_epsilon
  | concat a left right ihl ihr =>
    show q ∈ (if right.rootAttributes.nullable then right.rootAttributes.lastpos ∪ left.rootAttributes.lastpos
      else right.rootAttributes.lastpos) ↔ Regex.Ends (.concat left.idRegex right.idRegex) q
    rw [Regex.ends_concat, ← ihl, ← ihr, ← matches_iff, ← nullable_rootAttributes]
    split
    · simp [*]
    · simp [*]
  | union a left right ihl ihr =>
    show q ∈ left.rootAttributes.lastpos ∪ right.rootAttributes.lastpos ↔
      Regex.Ends (.union left.idRegex right.idRegex) q
    rw [Regex.ends_union, ← ihl, ← ihr, OrderedSet.mem_union]
  | star a child ih =>
    show q ∈ child.rootAttributes.lastpos ↔ Regex.Ends (.star child.idRegex) q
    rw [Regex.ends_star, ih]

/-- A tree whose words begin with no position has the empty word, for it has some word. -/
theorem nullable_of_isEmpty {t : PatternTree} (h : t.rootAttributes.firstpos.isEmpty = true) :
    t.rootAttributes.nullable = true := by
  obtain ⟨w, hw⟩ := t.idRegex.exists_matches
  cases w with
  | nil => exact t.nullable_rootAttributes.2 hw
  | cons q w =>
    have hq := t.mem_firstpos_rootAttributes.2 ⟨w, hw⟩
    rw [OrderedSet.isEmpty_iff.1 h] at hq
    exact absurd hq OrderedSet.not_mem_empty

/-- Trees with the same words have the same attributes at the root. -/
theorem rootAttributes_eq {t u : PatternTree} (h : ∀ w, t.Matches w ↔ u.Matches w) :
    t.rootAttributes = u.rootAttributes := by
  have hnullable : t.rootAttributes.nullable = u.rootAttributes.nullable := by
    rw [Bool.eq_iff_iff, nullable_rootAttributes, nullable_rootAttributes, h]
  have hfirst : t.rootAttributes.firstpos = u.rootAttributes.firstpos := by
    ext q
    rw [mem_firstpos_rootAttributes, mem_firstpos_rootAttributes]
    exact exists_congr fun v => h (q :: v)
  have hlast : t.rootAttributes.lastpos = u.rootAttributes.lastpos := by
    ext q
    rw [mem_lastpos_rootAttributes, mem_lastpos_rootAttributes]
    exact exists_congr fun v => h (v ++ [q])
  cases ht : t.rootAttributes
  cases hu : u.rootAttributes
  simp_all

theorem mem_letters_of_mem_lastpos {t : PatternTree} {q : PositionId} (h : q ∈ t.rootAttributes.lastpos) :
    q ∈ t.regex.letters.map Prod.fst := by
  obtain ⟨u, hu⟩ := t.mem_lastpos_rootAttributes.1 h
  exact t.letters_idRegex ▸ hu.letter_mem

end PatternTree

end PositionAutomaton
