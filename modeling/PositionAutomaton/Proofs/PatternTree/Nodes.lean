import PositionAutomaton.Proofs.PatternTree.Attributes

/-!
# The attributes of every node

The attribute pass gives every node the attributes that the words of its subtree call for, and changes nothing else
(`withAttributes_nodes`).  Every node of the result is a subtree with the attributes of the plain recursion
(`exists_eq_annotated`), so what is known of the root of a tree is known of all its nodes.
-/

namespace PositionAutomaton

namespace PatternTree

@[simp]
theorem regex_annotated (t : PatternTree) : t.annotated.regex = t.regex := by
  induction t with
  | leaf | epsilon => rfl
  | concat a left right ihl ihr =>
    show Regex.concat left.annotated.regex right.annotated.regex = Regex.concat left.regex right.regex
    rw [ihl, ihr]
  | union a left right ihl ihr =>
    show Regex.union left.annotated.regex right.annotated.regex = Regex.union left.regex right.regex
    rw [ihl, ihr]
  | star a child ih => exact congrArg Regex.star ih

@[simp]
theorem rootAttributes_annotated (t : PatternTree) : t.annotated.rootAttributes = t.rootAttributes := by
  induction t with
  | leaf | epsilon => rfl
  | concat a left right ihl ihr =>
    show Attributes.concat left.annotated.rootAttributes right.annotated.rootAttributes = Attributes.concat left.rootAttributes right.rootAttributes
    rw [ihl, ihr]
  | union a left right ihl ihr =>
    show Attributes.union left.annotated.rootAttributes right.annotated.rootAttributes = Attributes.union left.rootAttributes right.rootAttributes
    rw [ihl, ihr]
  | star a child ih => exact congrArg Attributes.star ih

@[simp]
theorem annotated_annotated (t : PatternTree) : t.annotated.annotated = t.annotated := by
  induction t with
  | leaf | epsilon => rfl
  | concat a left right ihl ihr =>
    simp only [annotated, rootAttributes_annotated, ihl, ihr]
  | union a left right ihl ihr =>
    simp only [annotated, rootAttributes_annotated, ihl, ihr]
  | star a child ih => simp only [annotated, rootAttributes_annotated, ih]

/-- Every node of an annotated tree is an annotated subtree. -/
theorem exists_eq_annotated {t n : PatternTree} {depth k : Nat} (h : (k, n) ∈ t.annotated.preorder depth) :
    ∃ s : PatternTree, n = s.annotated := by
  induction t generalizing depth with
  | leaf a id symbol => exact ⟨.leaf a id symbol, (Prod.mk.inj (List.mem_singleton.1 h)).2⟩
  | epsilon a => exact ⟨.epsilon a, (Prod.mk.inj (List.mem_singleton.1 h)).2⟩
  | concat a left right ihl ihr =>
    rcases List.mem_cons.1 h with h | h
    · exact ⟨.concat a left right, (Prod.mk.inj h).2⟩
    · rcases List.mem_append.1 h with h | h
      · exact ihl h
      · exact ihr h
  | union a left right ihl ihr =>
    rcases List.mem_cons.1 h with h | h
    · exact ⟨.union a left right, (Prod.mk.inj h).2⟩
    · rcases List.mem_append.1 h with h | h
      · exact ihl h
      · exact ihr h
  | star a child ih =>
    rcases List.mem_cons.1 h with h | h
    · exact ⟨.star a child, (Prod.mk.inj h).2⟩
    · exact ih h

theorem attributes?_annotated (t : PatternTree) : t.annotated.attributes? = some t.annotated.rootAttributes := by
  rw [rootAttributes_annotated]
  cases t <;> rfl

/-- Whatever attributes a tree has, the pass succeeds, and so does the recursion that it stands for; the tree stays as
it was apart from its attributes, every node has those that its words call for, and a second pass changes nothing. -/
theorem withAttributes_nodes (t : PatternTree) :
    ∃ t', t.withAttributes = .ok t' ∧ t' = t.annotated ∧ t'.regex = t.regex ∧
      (∀ depth n, (depth, n) ∈ t'.nodes → ∃ a, n.attributes? = some a ∧ (a.nullable = true ↔ n.Matches []) ∧
        (∀ q, q ∈ a.firstpos ↔ ∃ v, n.Matches (q :: v)) ∧ ∀ q, q ∈ a.lastpos ↔ ∃ u, n.Matches (u ++ [q])) ∧
      t'.withAttributes = .ok t' := by
  refine ⟨t.annotated, t.withAttributes_eq, rfl, t.regex_annotated, fun depth n hn => ?_, ?_⟩
  · rw [nodes_eq_preorder] at hn
    obtain ⟨s, rfl⟩ := exists_eq_annotated hn
    refine ⟨_, s.attributes?_annotated, s.annotated.nullable_rootAttributes, fun q => ?_, fun q => ?_⟩
    · exact s.annotated.mem_firstpos_rootAttributes
    · exact s.annotated.mem_lastpos_rootAttributes
  · rw [withAttributes_eq, annotated_annotated]

/-- Attributes from before, which are wrong, are replaced. -/
theorem withAttributes_nodes_stale : ∃ t t' n : PatternTree,
    t = .concat none (.star (some .epsilon) (.leaf none 1 (.char 'a'))) (.leaf (some (.leaf 5)) 2 .endMarker) ∧
    t.withAttributes = .ok t' ∧ (1, n) ∈ t'.nodes ∧
    ∃ a, n.attributes? = some a ∧ a = ⟨true, {1}, {1}⟩ ∧ (∀ q, q ∈ a.firstpos ↔ ∃ v, n.Matches (q :: v)) ∧
      ∀ q, q ∈ a.lastpos ↔ ∃ u, n.Matches (u ++ [q]) := by
  let t : PatternTree :=
    .concat none (.star (some .epsilon) (.leaf none 1 (.char 'a'))) (.leaf (some (.leaf 5)) 2 .endMarker)
  obtain ⟨t', ht, rfl, -, hnodes, -⟩ := withAttributes_nodes t
  have hn : (1, .star (some ⟨true, {1}, {1}⟩) (.leaf (some (.leaf 1)) 1 (.char 'a'))) ∈ t.annotated.nodes := by
    rw [nodes_eq_preorder]
    exact List.mem_cons_of_mem _ List.mem_cons_self
  obtain ⟨a, ha, -, hfirst, hlast⟩ := hnodes 1 _ hn
  exact ⟨t, _, _, rfl, ht, hn, a, ha, (Option.some.inj ha).symm, hfirst, hlast⟩

end PatternTree

end PositionAutomaton
