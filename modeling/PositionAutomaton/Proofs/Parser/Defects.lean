import PositionAutomaton.Proofs.Parser.Conservation

/-!
# What an error says of the tokens

Every error of the parser reports a defect of the tokens, at the first place that has it (`Token.Defect`).  The counts
and the nodes that the parser keeps tell what the defect is: where it stops there, before the token that it rejects
(`defect_of_fails`) or at the end of the input (`defect_of_result`).  Tokens whose counts do not match are never parsed
(`parse_defects`).
-/

namespace PositionAutomaton

/-- What is wrong with the tokens, for each of the errors that report it. -/
inductive Token.Defect (ts : List Token) : CompileError → Prop where
  | unmatchedCloseParen {i : Nat} : ts[i]? = some .closeParen →
    (ts.take (i + 1)).count .openParen < (ts.take (i + 1)).count .closeParen →
    (∀ j ≤ i, (ts.take j).count .closeParen ≤ (ts.take j).count .openParen) → Defect ts (.unmatchedCloseParen i)
  | unsupportedOperator {i : Nat} {t : Token} : ts[i]? = some t → t.isShorthand = true →
    (∀ u ∈ ts.take i, u.isShorthand = false) → Defect ts (.unsupportedOperator t.char i)
  | unclosedOpenParen : (∀ t ∈ ts, t.isShorthand = false) →
    (∀ j, (ts.take j).count .closeParen ≤ (ts.take j).count .openParen) →
    ts.count .closeParen < ts.count .openParen → Defect ts .unclosedOpenParen
  | missingOperand {op : Operator} : op.token ∈ ts → Defect ts (.missingOperand op.token.char)
  | invalidExpression {n : Nat} : Closes 0 ts → n ≠ 1 → n + ts.countP isBinary = ts.countP isLeaf →
    Defect ts (.invalidExpression n)

namespace ParseStacks

variable {ts : List Token} {s : ParseStacks} {e : CompileError}

theorem Counts.isShorthand_eq_false (h : Counts ts s) : ∀ t ∈ ts, t.isShorthand = false := by
  obtain ⟨hpos, hopt⟩ := h.supported
  intro t ht
  cases t <;> first | rfl | contradiction

theorem Counts.take_le (h : Counts ts s) (j : Nat) : (ts.take j).count .closeParen ≤ (ts.take j).count .openParen :=
  h.prefix_le _ (List.take_prefix j ts)

/-- An operator that waits has been read. -/
theorem Nodes.token_mem (h : Nodes ts s) {op : Operator} (hop : .operator op ∈ s.operators) : op.token ∈ ts := by
  have hwaits := List.count_pos_iff.2 hop
  have hops := h.operators op
  exact List.count_pos_iff.1 (by omega)

/-- The token that is rejected is the first defect, or lets one appear that was there before. -/
theorem defect_of_fails {t : Token} (hcounts : Counts ts s) (hnodes : Nodes ts s) (h : Fails s ts.length t e)
    (after : List Token) : Token.Defect (ts ++ t :: after) e := by
  have hget : (ts ++ t :: after)[ts.length]? = some t := by simp
  cases h with
  | missingOperand ht hop => exact .missingOperand (List.mem_append_left _ (hnodes.token_mem hop))
  | unmatchedCloseParen hr =>
    -- no group is open, so as many are closed as were opened
    have hdepth := (hcounts.reduce hr).depth_eq
    rw [List.count_nil, Nat.add_zero] at hdepth
    refine .unmatchedCloseParen hget ?_ fun j hj => ?_
    · rw [List.take_length_add_append]
      simp [hdepth]
    · rw [List.take_append_of_le_length hj]
      exact hcounts.take_le j
  | unsupportedOperator ht =>
    refine .unsupportedOperator hget ht ?_
    rw [List.take_left]
    exact hcounts.isShorthand_eq_false

theorem defect_of_result (hcounts : Counts ts s) (hnodes : Nodes ts s)
    (h : result s.operands s.operators = .error e) : Token.Defect ts e := by
  rcases error_of_result h with ⟨op, hop, rfl⟩ | ⟨r, hr, hopen, rfl⟩ | ⟨us, hr, hne, rfl⟩
  · exact .missingOperand (hnodes.token_mem hop)
  · have hdepth := (hcounts.reduce hr).depth_eq
    have hwaits := List.count_pos_iff.2 hopen
    exact .unclosedOpenParen hcounts.isShorthand_eq_false hcounts.take_le (by omega)
  · have hrest : Counts ts ⟨us, []⟩ := hcounts.reduce hr
    have hops := hrest.operands_eq
    have hdepth := hrest.depth_eq
    rw [List.countP_nil, Nat.add_zero] at hops
    rw [List.count_nil, Nat.add_zero] at hdepth
    exact .invalidExpression ⟨by simpa using hrest.prefix_le, by omega⟩ hne hops

end ParseStacks

open ParseStacks

variable {ts : List Token} {arena arena' : Arena} {e : CompileError}

theorem defect_of_parse (h : PatternTree.parse ts arena = (.error e, arena')) : Token.Defect ts e := by
  rcases error_cases_of_parse h with hread | ⟨s, hread, hresult⟩
  · obtain ⟨before, t, after, s, arena₁, rfl, hbefore, hfails⟩ := exists_fails_of_readAll hread
    rw [Nat.zero_add] at hfails
    exact defect_of_fails (counts_of_readAll hbefore) (nodes_of_readAll hbefore) hfails after
  · exact defect_of_result (counts_of_readAll hread) (nodes_of_readAll hread) hresult

/-- Some tokens that have no tree are rejected. -/
theorem exists_error_of_parse (hts : ts ≠ []) (h : ∀ t arena', PatternTree.parse ts arena ≠ (.ok (some t), arena')) :
    ∃ e arena', PatternTree.parse ts arena = (.error e, arena') := by
  rcases hparse : PatternTree.parse ts arena with ⟨e | _ | t, arena'⟩
  · exact ⟨e, arena', rfl⟩
  · exact absurd (PatternTree.eq_nil_of_parse hparse) hts
  · exact absurd hparse (h t arena')

/-- Every error reports a defect of the tokens.  Where an operator without nodes is, the parentheses do not match, or the
operands are not one more than the binary operators, there is an error. -/
theorem parse_defects (ts : List Token) (arena : Arena) :
    (∀ e arena', PatternTree.parse ts arena = (.error e, arena') → Token.Defect ts e) ∧
    (ts ≠ [] →
      ((∃ t ∈ ts, t.isShorthand = true) ∨ ¬ Token.Closes 0 ts ∨
        ts.countP Token.isLeaf ≠ ts.countP Token.isBinary + 1) →
      ∃ e arena', PatternTree.parse ts arena = (.error e, arena')) := by
  refine ⟨fun e arena' h => defect_of_parse h, fun hts hdefect => exists_error_of_parse hts fun t arena' h => ?_⟩
  obtain ⟨hone, hcloses, -⟩ := counts_of_parse h
  obtain ⟨s, hread, -⟩ := PatternTree.parse_eq_some_iff.1 h
  rcases hdefect with ⟨t, ht, hshorthand⟩ | hopen | hne
  · rw [(counts_of_readAll hread).isShorthand_eq_false t ht] at hshorthand
    cases hshorthand
  · exact hopen hcloses
  · exact hne hone

/-- Of two defects the first one is reported. -/
theorem parse_defects_closeParen :
    (∃ e arena', PatternTree.parse [.literal 'a', .closeParen, .optional] ∅ = (.error e, arena')) ∧
    Token.Defect [.literal 'a', .closeParen, .optional] (.unmatchedCloseParen 1) := by
  obtain ⟨hsound, hcomplete⟩ := parse_defects [.literal 'a', .closeParen, .optional] ∅
  exact ⟨hcomplete (List.cons_ne_nil _ _) (Or.inl ⟨.optional, by decide, rfl⟩), hsound _ _ rfl⟩

end PositionAutomaton
