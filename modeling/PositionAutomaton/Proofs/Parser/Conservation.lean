import PositionAutomaton.Proofs.Parser.Errors
import PositionAutomaton.Proofs.PatternTree.Subtrees

/-!
# Every token once

The parser keeps the tokens that it reads: the leaves of the operands on its stack are the tokens that are leaves, in
order, and each operator is a node of them or still waits (`Nodes`).  The arena gets a position for each literal and each
end marker that is read, whatever is wrong with the tokens (`parse_conserves`).
-/

namespace PositionAutomaton

namespace ParseStacks

open PatternTree

/-! ### The nodes on the stack -/

/-- The nodes of the operands, the operand on top last. -/
def nodesOf (operands : List PatternTree) : List PatternTree :=
  operands.reverse.flatMap subtrees

theorem nodesOf_cons (t : PatternTree) (operands : List PatternTree) :
    nodesOf (t :: operands) = nodesOf operands ++ t.subtrees := by
  simp [nodesOf]

/-- One reduction puts a node of the operator before the nodes of the operands that it takes. -/
theorem exists_nodesOf_apply {op : Operator} {operands operands' : List PatternTree}
    (h : op.apply operands = .ok operands') : ∃ front back root, nodesOf operands = front ++ back ∧
      nodesOf operands' = front ++ root :: back ∧ root.operator? = some op := by
  unfold Operator.apply at h
  split at h <;> cases h
  · rename_i child operands
    exact ⟨nodesOf operands, child.subtrees, _, nodesOf_cons _ _, by rw [nodesOf_cons, subtrees_star], rfl⟩
  · rename_i right left operands
    refine ⟨nodesOf operands, left.subtrees ++ right.subtrees, _, ?_, by rw [nodesOf_cons, subtrees_concat], rfl⟩
    rw [nodesOf_cons, nodesOf_cons, List.append_assoc]
  · rename_i right left operands
    refine ⟨nodesOf operands, left.subtrees ++ right.subtrees, _, ?_, by rw [nodesOf_cons, subtrees_union], rfl⟩
    rw [nodesOf_cons, nodesOf_cons, List.append_assoc]

/-- After the tokens `ts`: the leaves of the operands are the tokens that are leaves, and the operators are nodes of the
operands or wait. -/
structure Nodes (ts : List Token) (s : ParseStacks) : Prop where
  leaves : (nodesOf s.operands).filterMap leafToken? = ts.filter Token.isLeaf
  operators : ∀ op, (nodesOf s.operands).countP (·.operator? = some op) + s.operators.count (.operator op) =
    ts.count op.token

theorem nodes_nil : Nodes [] {} where
  leaves := rfl
  operators _ := rfl

theorem Nodes.reduce {ts : List Token} {s s' : ParseStacks} {p : Nat} (h : Nodes ts s)
    (hr : reduce p s.operands s.operators = .ok s') : Nodes ts s' := by
  refine reduce_induction (P := Nodes ts) ?_ hr h
  intro op operands operands' operators ha h
  obtain ⟨front, back, root, hbefore, hafter, hroot⟩ := exists_nodesOf_apply ha
  have hleaves := h.leaves
  have hops := h.operators
  simp only [hbefore, List.filterMap_append, List.countP_append, List.count_cons] at hleaves hops
  refine ⟨?_, fun op' => ?_⟩
  · rw [hafter, List.filterMap_append, List.filterMap_cons_none (leafToken?_of_operator? hroot), hleaves]
  · rw [hafter, List.countP_append, List.countP_cons, hroot, ← hops op']
    simp only [beq_iff_eq, Waiting.operator.injEq, Option.some.injEq, decide_eq_true_eq]
    omega

theorem Nodes.pushOperand {ts : List Token} {t : Token} {leaf : PatternTree} {s : ParseStacks} (h : Nodes ts s)
    (hnodes : leaf.subtrees = [leaf]) (hleaf : leaf.leafToken? = some t) (ht : t.isLeaf = true) :
    Nodes (ts ++ [t]) (s.pushOperand leaf) where
  leaves := by
    rw [ParseStacks.pushOperand, nodesOf_cons, List.filterMap_append, h.leaves, hnodes, List.filterMap_cons_some hleaf,
      List.filter_append, List.filter_cons_of_pos ht]
    rfl
  operators op := by
    have hop : leaf.operator? ≠ some op := by
      intro hop
      rw [leafToken?_of_operator? hop] at hleaf
      cases hleaf
    have hne : t ≠ op.token := by
      rintro rfl
      cases op <;> cases ht
    rw [ParseStacks.pushOperand, nodesOf_cons, List.countP_append, hnodes, List.count_append, ← h.operators op,
      List.countP_cons_of_neg (by simpa using hop), List.count_cons_of_ne hne]
    rfl

/-- A token that is no leaf leaves the nodes as they are; if it is an operator, it waits. -/
theorem Nodes.concat {ts : List Token} {t : Token} {s s' : ParseStacks} (h : Nodes ts s)
    (hoperands : s'.operands = s.operands)
    (hoperators : ∀ op, s'.operators.count (.operator op) = s.operators.count (.operator op) + [t].count op.token)
    (ht : t.isLeaf = false) : Nodes (ts ++ [t]) s' where
  leaves := by
    rw [hoperands, h.leaves, List.filter_append, List.filter_cons_of_neg (by simp [ht])]
    exact (List.append_nil _).symm
  operators op := by
    rw [hoperands, hoperators, List.count_append, ← h.operators op, Nat.add_assoc]

theorem Nodes.read {arena arena' : Arena} {ts : List Token} {t : Token} {s s' : ParseStacks} (h : Nodes ts s)
    (hr : Reads s arena t s' arena') : Nodes (ts ++ [t]) s' := by
  cases hr with
  | leaf ht => cases t <;> cases ht <;> exact h.pushOperand (subtrees_leaf ..) rfl rfl
  | epsilon => exact h.pushOperand (subtrees_epsilon none) rfl rfl
  | openParen => exact h.concat rfl (fun op => by cases op <;> simp [Operator.token]) rfl
  | closeParen hr => exact (h.reduce hr).concat rfl (fun op => by cases op <;> simp [Operator.token]) rfl
  | operator op hr =>
    refine (h.reduce hr).concat rfl (fun op' => ?_) (by cases op <;> rfl)
    rw [List.count_cons, List.count_singleton]
    cases op <;> cases op' <;> rfl

theorem nodes_of_readAll {ts : List Token} {arena arena' : Arena} {s : ParseStacks}
    (h : ParseStacks.readAll {} arena 0 ts = (.ok s, arena')) : Nodes ts s :=
  readAll_induction (P := fun ts s _ => Nodes ts s) (fun hr h => h.read hr) h nodes_nil

end ParseStacks

/-- The leaves of the tree are the tokens that are leaves, in order, those with a position have the numbers and the
symbols of the positions, and there is one node for each operator among the tokens. -/
structure PatternTree.BuiltFrom (t : PatternTree) (ts : List Token) (positions : List Position) : Prop where
  leaves : t.subtrees.filterMap leafToken? = ts.filter Token.isLeaf
  positions : t.subtrees.filterMap position? = positions.map fun p => (p.id, p.symbol)
  operators : ∀ op : Operator, t.subtrees.countP (·.operator? = some op) = ts.count op.token

open ParseStacks

variable {ts : List Token} {arena : Arena}

theorem builtFrom_of_parse {t : PatternTree} {arena' : Arena}
    (h : PatternTree.parse ts arena = (.ok (some t), arena')) : t.BuiltFrom ts (arena'.toList.drop arena.size) := by
  obtain ⟨s, hs, hr⟩ := PatternTree.parse_eq_some_iff.1 h
  obtain ⟨hletters, rfl⟩ := letters_of_parse h
  have hnodes : Nodes ts ⟨[t], []⟩ := (nodes_of_readAll hs).reduce hr
  have hsubtrees : nodesOf [t] = t.subtrees := List.append_nil _
  have hleaves := hnodes.leaves
  have hops := hnodes.operators
  simp only [hsubtrees, List.count_nil, Nat.add_zero] at hleaves hops
  refine ⟨hleaves, ?_, hops⟩
  rw [← PatternTree.letters_regex, hletters, Arena.drop_allocateAll, List.map_map]
  exact (List.map_id'' (fun _ => rfl) _).symm

theorem extendedBy_of_readAll {s : ParseStacks} {arena' : Arena}
    (hsize : arena.size + (Token.symbols ts).length ≤ 2 ^ 32 - 1)
    (h : ParseStacks.readAll {} arena 0 ts = (.ok s, arena')) : arena.ExtendedBy (Token.symbols ts) arena' := by
  obtain ⟨rfl, -⟩ := leaves_of_readAll h
  exact Arena.extendedBy_allocateAll hsize

/-- Whatever the tokens are, the arena gets a position for each literal and each end marker: for all of them if there is
a tree or the end of the input is rejected, and for those before the token that is rejected.  In a tree every leaf and
every operator of the tokens is one node. -/
theorem parse_conserves (hts : ts ≠ []) (hsize : arena.size + (Token.symbols ts).length ≤ 2 ^ 32 - 1) :
    (∃ t arena', PatternTree.parse ts arena = (.ok (some t), arena') ∧
      arena.ExtendedBy (Token.symbols ts) arena' ∧ t.BuiltFrom ts (arena'.toList.drop arena.size)) ∨
    (∃ e s arena', PatternTree.parse ts arena = (.error e, arena') ∧
      ParseStacks.readAll {} arena 0 ts = (.ok s, arena') ∧ result s.operands s.operators = .error e ∧
      arena.ExtendedBy (Token.symbols ts) arena') ∨
    ∃ before t after e s arena', PatternTree.parse ts arena = (.error e, arena') ∧ ts = before ++ t :: after ∧
      ParseStacks.readAll {} arena 0 before = (.ok s, arena') ∧
      s.read arena' before.length t = (.error e, arena') ∧ arena.ExtendedBy (Token.symbols before) arena' := by
  rcases hparse : PatternTree.parse ts arena with ⟨e | _ | t, arena'⟩
  · rcases error_cases_of_parse hparse with hread | ⟨s, hread, hresult⟩
    · obtain ⟨before, t, after, s, rfl, hbefore, herror⟩ := exists_read_error_of_readAll hread
      rw [Nat.zero_add] at herror
      have hle : arena.size + (Token.symbols before).length ≤ 2 ^ 32 - 1 := by
        rw [Token.symbols_append, List.length_append] at hsize
        omega
      exact Or.inr (Or.inr ⟨before, t, after, e, s, arena', rfl, rfl, hbefore, herror,
        extendedBy_of_readAll hle hbefore⟩)
    · exact Or.inr (Or.inl ⟨e, s, arena', rfl, hread, hresult, extendedBy_of_readAll hsize hread⟩)
  · exact absurd (PatternTree.eq_nil_of_parse hparse) hts
  · obtain ⟨s, hread, -⟩ := PatternTree.parse_eq_some_iff.1 hparse
    exact Or.inl ⟨t, arena', rfl, extendedBy_of_readAll hsize hread, builtFrom_of_parse hparse⟩

/-- Both operators behind all operands. -/
def operatorsLast : List Token :=
  [.literal 'a', .epsilon, .endMarker, .concat, .union]

/-- They are read into an arena that has a position already. -/
theorem parse_conserves_operatorsLast : operatorsLast ≠ [] ∧
    ((∅ : Arena).allocateAll [.char 'x']).size + (Token.symbols operatorsLast).length ≤ 2 ^ 32 - 1 ∧
    ∃ t arena', PatternTree.parse operatorsLast ((∅ : Arena).allocateAll [.char 'x']) = (.ok (some t), arena') ∧
      ((∅ : Arena).allocateAll [.char 'x']).ExtendedBy [.char 'a', .endMarker] arena' ∧
      t.BuiltFrom operatorsLast (arena'.toList.drop 1) := by
  have hts : operatorsLast ≠ [] := List.cons_ne_nil _ _
  have hsize : ((∅ : Arena).allocateAll [.char 'x']).size + (Token.symbols operatorsLast).length ≤ 2 ^ 32 - 1 := by
    decide
  refine ⟨hts, hsize, ?_⟩
  rcases parse_conserves hts hsize with ⟨t, arena', h, hextended, hbuilt⟩ | ⟨_, _, _, h, -⟩ | ⟨_, _, _, _, _, _, h, -⟩
  · exact ⟨t, arena', h, hextended, hbuilt⟩
  · cases h
  · cases h

end PositionAutomaton
