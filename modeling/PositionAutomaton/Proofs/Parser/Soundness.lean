import PositionAutomaton.Proofs.Parser.Completeness

/-!
# What is parsed

For any list of tokens that is parsed, the leaves of the tree are the tokens that have a position, in order and numbered
on from the arena (`letters_of_parse`), and the tokens have one operand more than binary operators, matched parentheses
and no unsupported operator (`counts_of_parse`).  Where a concatenation stands between any two operands side by side,
one missing operand already shows in these counts (`placed_of_counts`), so what is parsed then is a pattern
(`parse_insertConcats_iff`).
-/

namespace PositionAutomaton

def Token.isBinary : Token → Bool
  | .concat | .union => true
  | _ => false

def Waiting.isBinary : Waiting → Bool
  | .operator .concat | .operator .union => true
  | _ => false

namespace ParseStacks

/-- The leaves of the complete subtrees, from left to right. -/
def frontier (operands : List PatternTree) : List (PositionId × Symbol) :=
  operands.reverse.flatMap fun t => t.regex.letters

theorem frontier_cons (t : PatternTree) (operands : List PatternTree) :
    frontier (t :: operands) = frontier operands ++ t.regex.letters := by
  simp [frontier]

/-- What one reduction keeps: the leaves, and the operands in excess of the binary operators that wait. -/
theorem apply_spec {op : Operator} {operands operands' : List PatternTree} (h : op.apply operands = .ok operands') :
    frontier operands' = frontier operands ∧
      operands.length = operands'.length + [Waiting.operator op].countP Waiting.isBinary := by
  cases op with
  | star =>
    rcases operands with _ | ⟨child, operands⟩
    · cases h
    · cases h
      exact ⟨by simp only [frontier_cons, PatternTree.regex, Regex.letters], rfl⟩
  | concat =>
    rcases operands with _ | ⟨right, _ | ⟨left, operands⟩⟩
    · cases h
    · cases h
    · cases h
      exact ⟨by simp only [frontier_cons, PatternTree.regex, Regex.letters, List.append_assoc], rfl⟩
  | union =>
    rcases operands with _ | ⟨right, _ | ⟨left, operands⟩⟩
    · cases h
    · cases h
    · cases h
      exact ⟨by simp only [frontier_cons, PatternTree.regex, Regex.letters, List.append_assoc], rfl⟩

/-! ### Leaves -/

/-- After the tokens `ts`, the leaves on the stack are their positions, which the arena got. -/
def Leaves (arena₀ : Arena) (ts : List Token) (s : ParseStacks) (arena : Arena) : Prop :=
  arena = arena₀.allocateAll (Token.symbols ts) ∧
    frontier s.operands = numbered arena₀.nextId (Token.symbols ts)

theorem leaves_nil (arena : Arena) : Leaves arena [] {} arena :=
  ⟨rfl, rfl⟩

theorem frontier_reduce {p : Nat} {operands : List PatternTree} {operators : List Waiting} {s : ParseStacks}
    (h : reduce p operands operators = .ok s) : frontier s.operands = frontier operands :=
  reduce_induction (P := fun s => frontier s.operands = frontier operands)
    (fun _ _ _ _ ha h => (apply_spec ha).1.trans h) h rfl

theorem Leaves.read {arena₀ arena arena' : Arena} {ts : List Token} {t : Token} {s s' : ParseStacks}
    (h : Leaves arena₀ ts s arena) (hr : Reads s arena t s' arena') : Leaves arena₀ (ts ++ [t]) s' arena' := by
  obtain ⟨rfl, hf⟩ := h
  rw [Leaves, Token.symbols_append, Token.symbols_cons]
  cases hr with
  | @leaf _ symbol ht =>
    rw [ht, numbered_append, ← Arena.nextId_allocateAll, ← hf]
    exact ⟨(Arena.allocateAll_append _ _ [symbol]).symm, frontier_cons _ _⟩
  | epsilon =>
    refine ⟨by simp [Token.symbol?, Token.symbols], ?_⟩
    rw [pushOperand, frontier_cons, hf]
    simp [PatternTree.regex, Regex.letters, Token.symbol?, Token.symbols]
  | openParen => exact ⟨by simp [Token.symbol?, Token.symbols], by simpa [Token.symbol?, Token.symbols] using hf⟩
  | closeParen hr =>
    rw [← frontier_reduce hr] at hf
    exact ⟨by simp [Token.symbol?, Token.symbols], by simpa [Token.symbol?, Token.symbols] using hf⟩
  | operator op hr =>
    rw [← frontier_reduce hr] at hf
    cases op <;> exact ⟨by simp [Operator.token, Token.symbol?, Token.symbols],
      by simpa [Operator.token, Token.symbol?, Token.symbols] using hf⟩

/-! ### Counts -/

/-- After the tokens `ts`: one operand for each leaf less one for each binary operator that does not wait, one open
parenthesis for each that waits, none closed that was not open, and no unsupported operator. -/
structure Counts (ts : List Token) (s : ParseStacks) : Prop where
  operands_eq : s.operands.length + ts.countP Token.isBinary =
    ts.countP Token.isLeaf + s.operators.countP Waiting.isBinary
  depth_eq : ts.count .openParen = ts.count .closeParen + s.operators.count .openParen
  prefix_le : ∀ p, p <+: ts → p.count .closeParen ≤ p.count .openParen
  supported : .positiveClosure ∉ ts ∧ .optional ∉ ts

theorem counts_nil : Counts [] {} where
  operands_eq := rfl
  depth_eq := rfl
  prefix_le p hp := by simp [List.prefix_nil.1 hp]
  supported := by simp

theorem Counts.reduce {ts : List Token} {s s' : ParseStacks} {p : Nat} (h : Counts ts s)
    (hr : reduce p s.operands s.operators = .ok s') : Counts ts s' := by
  refine reduce_induction (P := Counts ts) ?_ hr h
  intro op operands operands' operators ha h
  have hl := (apply_spec ha).2
  have hops := h.operands_eq
  have hdepth := h.depth_eq
  simp only [List.countP_cons, List.countP_nil] at hops hl
  rw [List.count_cons_of_ne (by simp)] at hdepth
  refine ⟨?_, hdepth, h.prefix_le, h.supported⟩
  dsimp only at hops ⊢
  omega

/-- The conditions on one more token, besides the equations. -/
private theorem Counts.concat {ts : List Token} {t : Token} {s s' : ParseStacks} (h : Counts ts s)
    (hops : s'.operands.length + (ts ++ [t]).countP Token.isBinary =
      (ts ++ [t]).countP Token.isLeaf + s'.operators.countP Waiting.isBinary)
    (hdepth : (ts ++ [t]).count .openParen = (ts ++ [t]).count .closeParen + s'.operators.count .openParen)
    (ht : t ≠ .positiveClosure ∧ t ≠ .optional) : Counts (ts ++ [t]) s' where
  operands_eq := hops
  depth_eq := hdepth
  prefix_le p hp := by
    rcases List.prefix_concat_iff.1 hp with rfl | hp
    · omega
    · exact h.prefix_le p hp
  supported := by simpa [h.supported, eq_comm] using ht

theorem Counts.read {arena arena' : Arena} {ts : List Token} {t : Token} {s s' : ParseStacks}
    (h : Counts ts s) (hr : Reads s arena t s' arena') : Counts (ts ++ [t]) s' := by
  have hops := h.operands_eq
  have hdepth := h.depth_eq
  -- parentheses and operators are counted after their reduction, which keeps the counts
  cases hr with
  | leaf ht =>
    cases t <;> cases ht <;> refine h.concat ?_ ?_ (by simp) <;>
      simp [pushOperand, Token.isBinary, Token.isLeaf] <;> omega
  | epsilon =>
    refine h.concat ?_ ?_ (by simp) <;> simp [pushOperand, Token.isBinary, Token.isLeaf] <;> omega
  | openParen =>
    refine h.concat ?_ ?_ (by simp) <;> simp [Token.isBinary, Token.isLeaf, Waiting.isBinary] <;> omega
  | closeParen hr =>
    have h := h.reduce hr
    have hops := h.operands_eq
    have hdepth := h.depth_eq
    refine h.concat ?_ ?_ (by simp) <;>
      simp [Token.isBinary, Token.isLeaf, Waiting.isBinary] at hops hdepth ⊢ <;> omega
  | operator op hr =>
    have h := h.reduce hr
    have hops := h.operands_eq
    have hdepth := h.depth_eq
    cases op <;> refine h.concat ?_ ?_ (by simp [Operator.token]) <;>
      simp [Operator.token, Token.isBinary, Token.isLeaf, Waiting.isBinary, List.countP_cons] <;> omega

end ParseStacks

open ParseStacks

/-! ### Lists of tokens that are parsed -/

theorem leaves_of_readAll {ts : List Token} {arena arena' : Arena} {s : ParseStacks}
    (h : ParseStacks.readAll {} arena 0 ts = (.ok s, arena')) : Leaves arena ts s arena' :=
  readAll_induction (P := Leaves arena) (fun hr h => h.read hr) h (leaves_nil arena)

/-- The leaves of a tree are the tokens that have a position, numbered on from the arena, which gets these positions. -/
theorem letters_of_parse {ts : List Token} {arena arena' : Arena} {t : PatternTree}
    (h : PatternTree.parse ts arena = (.ok (some t), arena')) :
    t.regex.letters = numbered arena.nextId (Token.symbols ts) ∧ arena' = arena.allocateAll (Token.symbols ts) := by
  obtain ⟨s, hs, hr⟩ := PatternTree.parse_eq_some_iff.1 h
  have hleaves := leaves_of_readAll hs
  refine ⟨?_, hleaves.1⟩
  rw [← hleaves.2, ← frontier_reduce hr]
  simp [ParseStacks.frontier]

theorem counts_of_readAll {ts : List Token} {arena arena' : Arena} {s : ParseStacks}
    (h : ParseStacks.readAll {} arena 0 ts = (.ok s, arena')) : Counts ts s :=
  readAll_induction (P := fun ts s _ => Counts ts s) (fun hr h => h.read hr) h counts_nil

/-- What is parsed has one operand more than binary operators, matched parentheses, and no unsupported operator. -/
theorem counts_of_parse {ts : List Token} {arena arena' : Arena} {t : PatternTree}
    (h : PatternTree.parse ts arena = (.ok (some t), arena')) :
    ts.countP Token.isLeaf = ts.countP Token.isBinary + 1 ∧ Token.Closes 0 ts ∧
      .positiveClosure ∉ ts ∧ .optional ∉ ts := by
  obtain ⟨s, hs, hr⟩ := PatternTree.parse_eq_some_iff.1 h
  have hcounts : Counts ts ⟨[t], []⟩ := (counts_of_readAll hs).reduce hr
  have hops := hcounts.operands_eq
  have hdepth := hcounts.depth_eq
  simp only [List.length_cons, List.length_nil, List.countP_nil, List.count_nil] at hops hdepth
  exact ⟨by omega, ⟨by simpa using hcounts.prefix_le, by omega⟩, hcounts.supported⟩

/-- A token that needs an operand before it and has none leaves one operand too few. -/
private theorem excess_token {t : Token} (ht : t.isWritten = true) (closed : Bool) :
    t.isLeaf.toNat + closed.toNat ≤ (closed && t.opensOperand).toNat + t.isBinary.toNat + t.closesOperand.toNat ∧
      (t.isLeaf.toNat + closed.toNat = (closed && t.opensOperand).toNat + t.isBinary.toNat + t.closesOperand.toNat →
        t.opensOperand = true ∨ closed = true) := by
  cases t <;> cases closed <;>
    simp_all [Token.isWritten, Token.isLeaf, Token.isBinary, Token.opensOperand, Token.closesOperand]

private theorem countP_joinAfter_cons (p : Token → Bool) (closed : Bool) (t : Token) (ts : List Token) :
    (Token.joinAfter closed (t :: ts)).countP p =
      (closed && t.opensOperand && p .concat).toNat + (p t).toNat + (Token.joinAfter t.closesOperand ts).countP p := by
  rw [Token.joinAfter, List.countP_append, List.countP_cons]
  cases closed && t.opensOperand <;> cases hc : p .concat <;> cases ht : p t <;> simp [hc] <;> omega

/-- With a concatenation between operands side by side, there is at most one operand more than binary operators, and
that many only if an operand stands wherever one has to. -/
theorem placed_of_counts (closed : Bool) {ts : List Token} (hw : ∀ t ∈ ts, t.isWritten = true) :
    (Token.joinAfter closed ts).countP Token.isLeaf + closed.toNat ≤
        (Token.joinAfter closed ts).countP Token.isBinary + 1 ∧
      ((Token.joinAfter closed ts).countP Token.isLeaf + closed.toNat =
          (Token.joinAfter closed ts).countP Token.isBinary + 1 →
        Token.Placed closed ts ∧ Token.closedAfter closed ts = true) := by
  induction ts generalizing closed with
  | nil => cases closed <;> simp [Token.joinAfter, Token.Placed, Token.closedAfter]
  | cons t ts ih =>
    obtain ⟨hle, heq⟩ := ih t.closesOperand fun u hu => hw u (List.mem_cons_of_mem _ hu)
    obtain ⟨htle, hteq⟩ := excess_token (hw t List.mem_cons_self) closed
    rw [Token.closedAfter_cons, Token.Placed, countP_joinAfter_cons, countP_joinAfter_cons]
    rw [show Token.concat.isLeaf = false from rfl, show Token.concat.isBinary = true from rfl]
    simp only [Bool.and_false, Bool.and_true, Bool.toNat_false, Nat.zero_add]
    refine ⟨by omega, fun h => ?_⟩
    -- nothing may be missing, neither at this token nor in the rest
    have hrest := heq (by omega)
    have hfirst := hteq (by omega)
    exact ⟨⟨hfirst, hrest.1⟩, hrest.2⟩

/-- Without concatenations of their own, tokens among which there is no operator without nodes are those of patterns. -/
theorem Token.isWritten_of_notMem {closed : Bool} {ts : List Token} (hts : .concat ∉ ts)
    (h : .positiveClosure ∉ joinAfter closed ts ∧ .optional ∉ joinAfter closed ts) :
    ∀ t ∈ ts, t.isWritten = true := by
  intro t ht
  rw [mem_joinAfter (by simp), mem_joinAfter (by simp)] at h
  cases t <;> simp_all [isWritten]

/-- Without concatenations of their own, the tokens that are parsed are the patterns of the grammar. -/
theorem parse_insertConcats_iff {ts : List Token} (hts : .concat ∉ ts) (arena : Arena) :
    (∃ t arena', PatternTree.parse (Token.insertConcats ts) arena = (.ok (some t), arena')) ↔
      ∃ r, Derives .union ts r := by
  constructor
  · intro h
    obtain ⟨t, arena', h⟩ := h
    obtain ⟨hops, hcloses, hpos, hopt⟩ := counts_of_parse h
    rw [Token.insertConcats_eq_joinAfter] at hops hcloses hpos hopt
    have hw := Token.isWritten_of_notMem hts ⟨hpos, hopt⟩
    obtain ⟨hplaced, hlast⟩ := (placed_of_counts false hw).2 hops
    exact derives_iff.2 ⟨hw, hplaced, hlast, Token.closes_joinAfter_iff.1 hcloses⟩
  · intro h
    obtain ⟨r, h⟩ := h
    exact ⟨_, _, h.parse_eq arena⟩

end PositionAutomaton
