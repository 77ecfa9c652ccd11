import PositionAutomaton.Proofs.Parser.Soundness

/-!
# Errors of the parser

What the parser rejects, it rejects at a token or at the end of the input.  `Fails` says why reading a token fails, and
`error_of_result` why the end of the input does; so a list of tokens is rejected for what it is and never with a defect
(`error_of_parse`).  The first operator that trees have no nodes for is rejected if no token before it is
(`parse_of_isShorthand`).  Where a concatenation stands between any two operands side by side and the last token is an
operand, no operands are left over (`ne_invalidExpression_of_parse`).
-/

namespace PositionAutomaton

/-- The operators that a syntax tree has no nodes for. -/
def Token.isShorthand : Token → Bool
  | .positiveClosure | .optional => true
  | _ => false

namespace ParseStacks

variable {operands : List PatternTree} {operators : List Waiting} {e : CompileError}

/-! ### Reductions that fail -/

/-- An operator that cannot be applied lacks an operand. -/
theorem error_of_apply {op : Operator} (h : op.apply operands = .error e) : e = .missingOperand op.token.char := by
  unfold Operator.apply at h
  split at h <;> cases h
  rfl

/-- A reduction fails at an operator that waits. -/
theorem error_of_reduce {p : Nat} (h : reduce p operands operators = .error e) :
    ∃ op, .operator op ∈ operators ∧ e = .missingOperand op.token.char := by
  induction operators generalizing operands with
  | nil => cases h
  | cons w operators ih =>
    cases w with
    | openParen => cases h
    | operator op =>
      by_cases hop : op.precedence < p
      · rw [reduce, if_pos hop] at h
        cases h
      · rw [reduce_operator (by omega)] at h
        rcases bind_eq_error_iff.1 h with h | ⟨operands', -, h⟩
        · exact ⟨op, List.mem_cons_self, error_of_apply h⟩
        · obtain ⟨op', hmem, he⟩ := ih h
          exact ⟨op', List.mem_cons_of_mem _ hmem, he⟩

/-- The end of the input is rejected for an operator that waits, for an open parenthesis, or for what remains. -/
theorem error_of_result (h : result operands operators = .error e) :
    (∃ op, .operator op ∈ operators ∧ e = .missingOperand op.token.char) ∨
    (∃ s, reduce 0 operands operators = .ok s ∧ .openParen ∈ s.operators ∧ e = .unclosedOpenParen) ∨
    ∃ ts, reduce 0 operands operators = .ok ⟨ts, []⟩ ∧ ts.length ≠ 1 ∧ e = .invalidExpression ts.length := by
  rw [result_eq] at h
  rcases bind_eq_error_iff.1 h with h | ⟨⟨ts, ws⟩, hs, h⟩
  · exact Or.inl (error_of_reduce h)
  · refine Or.inr ?_
    rcases ws with _ | ⟨_ | op, ws⟩
    · refine Or.inr ⟨ts, hs, ?_⟩
      unfold result at h
      split at h <;> cases h
      rename_i hne
      refine ⟨fun hone => ?_, rfl⟩
      obtain ⟨t, rfl⟩ := List.length_eq_one_iff.1 hone
      exact hne t rfl
    · cases h
      exact Or.inl ⟨_, hs, List.mem_cons_self, rfl⟩
    · exact absurd (blocks_of_reduce hs) (Nat.not_lt_zero _)

/-! ### Tokens that are rejected -/

/-- Why reading a token fails: an operator that waits has too few operands, no group is open, or no tree has a node for
the token. -/
inductive Fails (s : ParseStacks) (tokenIndex : Nat) : Token → CompileError → Prop where
  | missingOperand {t : Token} {op : Operator} : t.isShorthand = false → .operator op ∈ s.operators →
    Fails s tokenIndex t (.missingOperand op.token.char)
  | unmatchedCloseParen {operands : List PatternTree} : reduce 0 s.operands s.operators = .ok ⟨operands, []⟩ →
    Fails s tokenIndex .closeParen (.unmatchedCloseParen tokenIndex)
  | unsupportedOperator {t : Token} : t.isShorthand = true →
    Fails s tokenIndex t (.unsupportedOperator t.char tokenIndex)

theorem fails_of_pushOperator (op : Operator) {s : ParseStacks} (tokenIndex : Nat)
    (h : pushOperator op s.operands s.operators = .error e) : Fails s tokenIndex op.token e := by
  rw [pushOperator_eq, map_eq_error_iff] at h
  obtain ⟨top, hmem, rfl⟩ := error_of_reduce h
  exact .missingOperand (by cases op <;> rfl) hmem

theorem fails_of_closeGroup {s : ParseStacks} {tokenIndex : Nat}
    (h : closeGroup tokenIndex s.operands s.operators = .error e) : Fails s tokenIndex .closeParen e := by
  rw [closeGroup_eq] at h
  rcases bind_eq_error_iff.1 h with h | ⟨⟨operands, operators⟩, hs, h⟩
  · obtain ⟨op, hmem, rfl⟩ := error_of_reduce h
    exact .missingOperand rfl hmem
  · rcases operators with _ | ⟨_ | op, operators⟩
    · cases h
      exact .unmatchedCloseParen hs
    · cases h
    · exact absurd (blocks_of_reduce hs) (Nat.not_lt_zero _)

theorem fails_of_read {s : ParseStacks} {arena arena' : Arena} {tokenIndex : Nat} {t : Token}
    (h : s.read arena tokenIndex t = (.error e, arena')) : Fails s tokenIndex t e := by
  cases t with
  | closeParen => exact fails_of_closeGroup (Prod.mk.inj h).1
  | star => exact fails_of_pushOperator .star tokenIndex (Prod.mk.inj h).1
  | concat => exact fails_of_pushOperator .concat tokenIndex (Prod.mk.inj h).1
  | union => exact fails_of_pushOperator .union tokenIndex (Prod.mk.inj h).1
  | positiveClosure | optional =>
    cases h
    exact .unsupportedOperator rfl
  | literal | endMarker | epsilon | openParen => cases h

/-- Only a leaf changes the arena, and a leaf is read. -/
theorem arena_of_read_error {s : ParseStacks} {arena arena' : Arena} {tokenIndex : Nat} {t : Token}
    (h : s.read arena tokenIndex t = (.error e, arena')) : arena' = arena := by
  cases t with
  | literal | endMarker => cases h
  | _ => exact (Prod.mk.inj h).2.symm

/-- A list of tokens is rejected at one of them, after those before it were read; the arena is left as they made it. -/
theorem exists_read_error_of_readAll {s : ParseStacks} {arena arena' : Arena} {tokenIndex : Nat} {ts : List Token}
    (h : s.readAll arena tokenIndex ts = (.error e, arena')) :
    ∃ before t after s', ts = before ++ t :: after ∧ s.readAll arena tokenIndex before = (.ok s', arena') ∧
      s'.read arena' (tokenIndex + before.length) t = (.error e, arena') := by
  induction ts generalizing s arena tokenIndex with
  | nil => cases h
  | cons t ts ih =>
    rw [readAll] at h
    rcases hr : s.read arena tokenIndex t with ⟨e' | s₁, arena₁⟩
    · rw [hr] at h
      cases h
      obtain rfl := arena_of_read_error hr
      exact ⟨[], t, ts, s, rfl, rfl, hr⟩
    · rw [hr] at h
      obtain ⟨before, u, after, s', rfl, hread, herror⟩ := ih h
      refine ⟨t :: before, u, after, s', rfl, ?_, ?_⟩
      · rw [readAll, hr]
        exact hread
      · rw [Nat.add_right_comm] at herror
        exact herror

theorem exists_fails_of_readAll {s : ParseStacks} {arena arena' : Arena} {tokenIndex : Nat} {ts : List Token}
    (h : s.readAll arena tokenIndex ts = (.error e, arena')) :
    ∃ before t after s' arena₁, ts = before ++ t :: after ∧ s.readAll arena tokenIndex before = (.ok s', arena₁) ∧
      Fails s' (tokenIndex + before.length) t e := by
  obtain ⟨before, t, after, s', rfl, hread, herror⟩ := exists_read_error_of_readAll h
  exact ⟨before, t, after, s', arena', rfl, hread, fails_of_read herror⟩

/-! ### Operands that remain -/

theorem operands_ne_nil_of_reduce {p : Nat} {s : ParseStacks} (h : reduce p operands operators = .ok s)
    (hne : operands ≠ []) : s.operands ≠ [] := by
  refine reduce_induction (P := fun s => s.operands ≠ []) (fun op ts us _ ha _ => ?_) h hne
  unfold Operator.apply at ha
  split at ha <;> cases ha <;> exact List.cons_ne_nil _ _

/-- Behind a leaf there is an operand. -/
theorem operands_ne_nil_of_readAll {s s' : ParseStacks} {arena arena' : Arena} {tokenIndex : Nat} {ts : List Token}
    {t : Token} (ht : t.isLeaf = true) (h : s.readAll arena tokenIndex (ts ++ [t]) = (.ok s', arena')) :
    s'.operands ≠ [] := by
  rw [readAll_append] at h
  split at h
  · cases t <;> cases ht <;> cases h <;> exact List.cons_ne_nil _ _
  · cases h

end ParseStacks

open ParseStacks

variable {ts : List Token} {arena arena' : Arena} {e : CompileError}

/-- A list of tokens has no tree because a token is rejected or because the end of the input is. -/
theorem error_cases_of_parse (h : PatternTree.parse ts arena = (.error e, arena')) :
    ParseStacks.readAll {} arena 0 ts = (.error e, arena') ∨
      ∃ s, ParseStacks.readAll {} arena 0 ts = (.ok s, arena') ∧ result s.operands s.operators = .error e := by
  unfold PatternTree.parse at h
  split at h
  · cases h
  · split at h
    · rename_i s arena₁ hread
      obtain ⟨hresult, rfl⟩ := Prod.mk.inj h
      exact Or.inr ⟨s, hread, map_eq_error_iff.1 hresult⟩
    · rename_i hread
      cases h
      exact Or.inl hread

/-- Tokens without a tree are rejected for their parentheses, for an operator without an operand, for an operator
without nodes, or for operands that are left over. -/
theorem error_of_parse (h : PatternTree.parse ts arena = (.error e, arena')) :
    (∃ i, e = .unmatchedCloseParen i) ∨ e = .unclosedOpenParen ∨ (∃ c, e = .missingOperand c) ∨
      (∃ c i, e = .unsupportedOperator c i) ∨ ∃ n, e = .invalidExpression n := by
  rcases error_cases_of_parse h with h | ⟨s, -, h⟩
  · obtain ⟨before, t, after, s, arena₁, rfl, -, hfails⟩ := exists_fails_of_readAll h
    cases hfails <;> simp
  · rcases error_of_result h with ⟨op, -, rfl⟩ | ⟨s, -, -, rfl⟩ | ⟨ts, -, -, rfl⟩ <;> simp

theorem isDefect_of_parse (h : PatternTree.parse ts arena = (.error e, arena')) : e.isDefect = false := by
  rcases error_of_parse h with ⟨_, rfl⟩ | rfl | ⟨_, rfl⟩ | ⟨_, _, rfl⟩ | ⟨_, rfl⟩ <;> rfl

theorem parse_of_readAll_error (h : ParseStacks.readAll {} arena 0 ts = (.error e, arena')) :
    PatternTree.parse ts arena = (.error e, arena') := by
  cases ts with
  | nil => cases h
  | cons t ts =>
    rw [PatternTree.parse, if_neg (by simp), h]

theorem read_of_isShorthand {t : Token} (ht : t.isShorthand = true) (s : ParseStacks) (tokenIndex : Nat) :
    s.read arena tokenIndex t = (.error (.unsupportedOperator t.char tokenIndex), arena) := by
  cases t <;> cases ht <;> rfl

/-- The first operator without nodes is rejected, unless a token before it is. -/
theorem parse_of_isShorthand (arena : Arena) (h : ∃ t ∈ ts, t.isShorthand = true) :
    ∃ before t after, ts = before ++ t :: after ∧ t.isShorthand = true ∧ (∀ u ∈ before, u.isShorthand = false) ∧
      ((∃ s arena', ParseStacks.readAll {} arena 0 before = (.ok s, arena') ∧
          PatternTree.parse ts arena = (.error (.unsupportedOperator t.char before.length), arena')) ∨
        ∃ e arena', ParseStacks.readAll {} arena 0 before = (.error e, arena') ∧
          PatternTree.parse ts arena = (.error e, arena') ∧
          ((∃ i, e = .unmatchedCloseParen i) ∨ ∃ c, e = .missingOperand c)) := by
  obtain ⟨t, hfind⟩ := Option.isSome_iff_exists.1 (List.find?_isSome.2 h)
  obtain ⟨ht, before, after, rfl, hbefore⟩ := List.find?_eq_some_iff_append.1 hfind
  have hbefore : ∀ u ∈ before, u.isShorthand = false := fun u hu => by simpa using hbefore u hu
  refine ⟨before, t, after, rfl, ht, hbefore, ?_⟩
  have happend := readAll_append {} arena 0 before (t :: after)
  rcases hread : ParseStacks.readAll {} arena 0 before with ⟨e | s, arena'⟩
  · rw [hread] at happend
    refine Or.inr ⟨e, arena', rfl, parse_of_readAll_error happend, ?_⟩
    obtain ⟨_, u, _, _, _, rfl, -, hfails⟩ := exists_fails_of_readAll hread
    cases hfails with
    | missingOperand => exact Or.inr ⟨_, rfl⟩
    | unmatchedCloseParen => exact Or.inl ⟨_, rfl⟩
    | unsupportedOperator hu => cases (hbefore u (by simp)).symm.trans hu
  · rw [hread] at happend
    refine Or.inl ⟨s, arena', rfl, parse_of_readAll_error ?_⟩
    rw [happend]
    show s.readAll arena' (0 + before.length) (t :: after) = _
    rw [ParseStacks.readAll, read_of_isShorthand ht, Nat.zero_add]

/-- Where a concatenation stands between any two operands side by side and the last token is an operand, no operands are
left over. -/
theorem ne_invalidExpression_of_parse {t : Token} (hts : .concat ∉ ts ++ [t]) (ht : t.isLeaf = true)
    (h : PatternTree.parse (Token.insertConcats (ts ++ [t])) arena = (.error e, arena')) (n : Nat) :
    e ≠ .invalidExpression n := by
  rintro rfl
  rw [Token.insertConcats_eq_joinAfter] at h
  rcases error_cases_of_parse h with h | ⟨s, hread, h⟩
  · obtain ⟨before, u, after, s, arena₁, -, -, hfails⟩ := exists_fails_of_readAll h
    cases hfails
  · rcases error_of_result h with ⟨op, -, he⟩ | ⟨s, -, -, he⟩ | ⟨us, hr, hne, -⟩
    · cases he
    · cases he
    · -- there is at most one operand more than binary operators, and the last token leaves one at least
      have hcounts : Counts _ ⟨us, []⟩ := (counts_of_readAll hread).reduce hr
      have hops := hcounts.operands_eq
      have hw := Token.isWritten_of_notMem hts hcounts.supported
      obtain ⟨hle, -⟩ := placed_of_counts false hw
      rw [Token.joinAfter_append, Token.joinAfter, ← List.append_assoc] at hread
      have hlast := operands_ne_nil_of_reduce hr (operands_ne_nil_of_readAll ht hread)
      have hpos : 0 < us.length := List.length_pos_iff.2 hlast
      simp only [List.countP_nil, Bool.toNat_false] at hops hle
      omega

end PositionAutomaton
