import PositionAutomaton.Proofs.Arena.Appending
import PositionAutomaton.Proofs.Parser.Reduction

/-!
# Parsing behind other positions

The parser does not look at the numbers of the positions: a reduction of renumbered operands is the renumbered reduction
(`ParseStacks.reduce_renumber`).  So in an arena that has positions already, a list of tokens gets the same error or the
same tree with its numbers moved on, and the new positions come behind the old ones (`parse_followedBy`).
-/

namespace PositionAutomaton

namespace ParseStacks

variable (f : PositionId → PositionId)

/-- The stacks with new numbers in their trees. -/
def renumber (s : ParseStacks) : ParseStacks :=
  { s with operands := s.operands.map (·.renumber f) }

/-! ### Reductions -/

theorem apply_renumber (op : Operator) (operands : List PatternTree) :
    op.apply (operands.map (·.renumber f)) = (op.apply operands).map (List.map (·.renumber f)) := by
  cases op with
  | star => rcases operands with _ | ⟨child, operands⟩ <;> rfl
  | concat => rcases operands with _ | ⟨right, _ | ⟨left, operands⟩⟩ <;> rfl
  | union => rcases operands with _ | ⟨right, _ | ⟨left, operands⟩⟩ <;> rfl

theorem reduce_renumber (p : Nat) (operands : List PatternTree) (operators : List Waiting) :
    reduce p (operands.map (·.renumber f)) operators = (reduce p operands operators).map (renumber f) := by
  induction operators generalizing operands with
  | nil => rfl
  | cons w operators ih =>
    cases w with
    | openParen => rfl
    | operator op =>
      by_cases hop : op.precedence < p
      · rw [reduce, if_pos hop, reduce, if_pos hop]
        rfl
      · rw [reduce_operator (by omega), reduce_operator (by omega), apply_renumber]
        cases op.apply operands with
        | error e => rfl
        | ok operands => exact ih operands

theorem pushOperator_renumber (op : Operator) (s : ParseStacks) :
    pushOperator op (s.renumber f).operands s.operators =
      (pushOperator op s.operands s.operators).map (renumber f) := by
  rw [pushOperator_eq, pushOperator_eq, renumber, reduce_renumber]
  cases reduce op.precedence s.operands s.operators <;> rfl

theorem closeGroup_renumber (tokenIndex : Nat) (s : ParseStacks) :
    closeGroup tokenIndex (s.renumber f).operands s.operators =
      (closeGroup tokenIndex s.operands s.operators).map (renumber f) := by
  rw [closeGroup_eq, closeGroup_eq, renumber, reduce_renumber]
  cases reduce 0 s.operands s.operators with
  | error e => rfl
  | ok r => rcases r with ⟨operands, _ | ⟨_ | op, operators⟩⟩ <;> rfl

theorem result_renumber (s : ParseStacks) :
    result (s.renumber f).operands s.operators = (result s.operands s.operators).map (·.renumber f) := by
  rw [result_eq, result_eq s.operands, renumber, reduce_renumber]
  cases h : reduce 0 s.operands s.operators with
  | error e => rfl
  | ok r =>
    -- no operator is left, so the end of the input looks at a parenthesis or at what remains
    rcases r with ⟨operands, _ | ⟨_ | op, operators⟩⟩
    · rcases operands with _ | ⟨t, _ | ⟨u, operands⟩⟩ <;> simp [Except.bind, result, renumber, Except.map]
    · rfl
    · exact absurd (blocks_of_reduce h) (Nat.not_lt_zero _)

/-! ### Reading tokens -/

section

variable (a : Arena)

theorem pushLeaf_followedBy (s : ParseStacks) (symbol : Symbol) (b : Arena) :
    (s.renumber a.shift).pushLeaf symbol (a.followedBy b) =
      ((s.pushLeaf symbol b).1.renumber a.shift, a.followedBy (s.pushLeaf symbol b).2) := by
  rw [pushLeaf, Arena.allocate_followedBy]
  rfl

theorem read_followedBy (s : ParseStacks) (b : Arena) (tokenIndex : Nat) (t : Token) :
    (s.renumber a.shift).read (a.followedBy b) tokenIndex t =
      ((s.read b tokenIndex t).1.map (renumber a.shift), a.followedBy (s.read b tokenIndex t).2) := by
  cases t with
  | literal c =>
    rw [read, pushLeaf_followedBy]
    rfl
  | endMarker =>
    rw [read, pushLeaf_followedBy]
    rfl
  | closeParen => exact Prod.ext (closeGroup_renumber a.shift tokenIndex s) rfl
  | star => exact Prod.ext (pushOperator_renumber a.shift .star s) rfl
  | concat => exact Prod.ext (pushOperator_renumber a.shift .concat s) rfl
  | union => exact Prod.ext (pushOperator_renumber a.shift .union s) rfl
  | epsilon | openParen | positiveClosure | optional => rfl

theorem readAll_followedBy (s : ParseStacks) (b : Arena) (tokenIndex : Nat) (tokens : List Token) :
    (s.renumber a.shift).readAll (a.followedBy b) tokenIndex tokens =
      ((s.readAll b tokenIndex tokens).1.map (renumber a.shift), a.followedBy (s.readAll b tokenIndex tokens).2) := by
  induction tokens generalizing s b tokenIndex with
  | nil => rfl
  | cons t tokens ih =>
    rw [readAll, readAll, read_followedBy]
    rcases s.read b tokenIndex t with ⟨_ | s', b'⟩
    · rfl
    · exact ih s' b' (tokenIndex + 1)

end

end ParseStacks

/-- Behind the positions of another arena, tokens get the same error or the same tree with its numbers moved on. -/
theorem parse_followedBy (a b : Arena) (tokens : List Token) :
    PatternTree.parse tokens (a.followedBy b) =
      ((PatternTree.parse tokens b).1.map (Option.map (·.renumber a.shift)),
        a.followedBy (PatternTree.parse tokens b).2) := by
  unfold PatternTree.parse
  cases tokens with
  | nil => rfl
  | cons t tokens =>
    have hread := ParseStacks.readAll_followedBy a {} b 0 (t :: tokens)
    rw [if_neg (by simp), if_neg (by simp)]
    change ParseStacks.readAll {} (a.followedBy b) 0 (t :: tokens) = _ at hread
    rw [hread]
    rcases ParseStacks.readAll {} b 0 (t :: tokens) with ⟨e | s, b'⟩
    · rfl
    · show ((ParseStacks.result (s.renumber a.shift).operands s.operators).map some, a.followedBy b') =
        (((ParseStacks.result s.operands s.operators).map some).map _, a.followedBy b')
      rw [ParseStacks.result_renumber]
      cases ParseStacks.result s.operands s.operators <;> rfl

end PositionAutomaton
