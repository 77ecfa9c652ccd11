import PositionAutomaton.PatternTree.Parser
import PositionAutomaton.Proofs.Arena.Numbering

/-!
# Reductions of the parser

An arriving operator, a closing parenthesis and the end of the input all reduce the operators on top of the stack, down
to some precedence: `reduce` is that common part.  What a reduction preserves is said once (`reduce_induction`), what
reading one token does is a relation with one rule for each kind of token (`Reads`), and `readAll_induction` carries an
invariant of the rules over a whole list.
-/

namespace PositionAutomaton

/-- The symbol of the position that a token is given, none for a token without position. -/
def Token.symbol? : Token → Option Symbol
  | .endMarker => some .endMarker
  | .literal c => some (.char c)
  | _ => none

/-- The symbols of the positions of the tokens. -/
def Token.symbols (ts : List Token) : List Symbol :=
  ts.filterMap Token.symbol?

theorem Token.symbols_append (ts us : List Token) : symbols (ts ++ us) = symbols ts ++ symbols us :=
  List.filterMap_append

theorem Token.symbols_cons (t : Token) (ts : List Token) : symbols (t :: ts) = t.symbol?.toList ++ symbols ts := by
  cases h : t.symbol? with
  | none => exact List.filterMap_cons_none h
  | some s => exact List.filterMap_cons_some h

theorem Token.char_mem_symbols {d : Char} {ts : List Token} : .char d ∈ symbols ts ↔ .literal d ∈ ts := by
  rw [symbols, List.mem_filterMap]
  constructor
  · intro h
    obtain ⟨t, ht, hs⟩ := h
    cases t <;> cases hs
    exact ht
  · intro ht
    exact ⟨_, ht, rfl⟩

theorem Token.endMarker_mem_symbols {ts : List Token} : .endMarker ∈ symbols ts ↔ .endMarker ∈ ts := by
  rw [symbols, List.mem_filterMap]
  constructor
  · intro h
    obtain ⟨t, ht, hs⟩ := h
    cases t <;> cases hs
    exact ht
  · intro ht
    exact ⟨_, ht, rfl⟩

namespace ParseStacks

/-! ### Reductions -/

/-- Reduces the operators on top that have at least the precedence `p`. -/
def reduce (p : Nat) (operands : List PatternTree) : List Waiting → Except CompileError ParseStacks
  | .operator top :: operators =>
    if top.precedence < p then
      .ok ⟨operands, .operator top :: operators⟩
    else do
      reduce p (← top.apply operands) operators
  | operators => .ok ⟨operands, operators⟩

/-- No operator on top has at least the precedence `p`. -/
def Blocks (p : Nat) : List Waiting → Prop
  | .operator op :: _ => op.precedence < p
  | _ => True

theorem Blocks.mono {p q : Nat} {operators : List Waiting} (h : Blocks q operators) (hqp : q ≤ p) :
    Blocks p operators := by
  rcases operators with _ | ⟨_ | op, operators⟩
  · trivial
  · trivial
  · exact Nat.lt_of_lt_of_le h hqp

theorem reduce_of_blocks {p : Nat} {operators : List Waiting} (h : Blocks p operators)
    (operands : List PatternTree) : reduce p operands operators = .ok ⟨operands, operators⟩ := by
  rcases operators with _ | ⟨_ | op, operators⟩
  · rfl
  · rfl
  · have hop : op.precedence < p := h
    rw [reduce, if_pos hop]

theorem reduce_operator {p : Nat} {op : Operator} (h : p ≤ op.precedence) (operands : List PatternTree)
    (operators : List Waiting) : reduce p operands (.operator op :: operators) =
      (op.apply operands).bind fun operands => reduce p operands operators := by
  rw [reduce, if_neg (by omega)]
  rfl

theorem blocks_of_reduce {p : Nat} {operands : List PatternTree} {operators : List Waiting} {s : ParseStacks}
    (h : reduce p operands operators = .ok s) : Blocks p s.operators := by
  induction operators generalizing operands with
  | nil =>
    cases h
    trivial
  | cons w operators ih =>
    cases w with
    | openParen =>
      cases h
      trivial
    | operator op =>
      by_cases hop : op.precedence < p
      · rw [reduce, if_pos hop] at h
        cases h
        exact hop
      · rw [reduce_operator (by omega)] at h
        obtain ⟨operands', -, h⟩ := bind_eq_ok_iff.1 h
        exact ih h

/-- Reducing to a precedence and then to a lower one is reducing to the lower one. -/
theorem reduce_reduce {p q : Nat} (hqp : q ≤ p) (operands : List PatternTree) (operators : List Waiting) :
    ((reduce p operands operators).bind fun s => reduce q s.operands s.operators) =
      reduce q operands operators := by
  induction operators generalizing operands with
  | nil => rfl
  | cons w operators ih =>
    cases w with
    | openParen => rfl
    | operator op =>
      by_cases hop : op.precedence < p
      · have hb : Blocks p (.operator op :: operators) := hop
        rw [reduce_of_blocks hb]
        rfl
      · rw [reduce_operator (by omega), reduce_operator (by omega)]
        cases op.apply operands with
        | error e => rfl
        | ok operands => exact ih operands

/-- A reduction that is known to a precedence is known to a lower one at which it stops. -/
theorem reduce_of_le {p q : Nat} (hqp : q ≤ p) {operands : List PatternTree} {operators : List Waiting}
    {s : ParseStacks} (h : reduce p operands operators = .ok s) (hs : Blocks q s.operators) :
    reduce q operands operators = .ok s := by
  rw [← reduce_reduce hqp, h]
  exact reduce_of_blocks hs s.operands

/-- What every single reduction preserves is preserved by all of them. -/
theorem reduce_induction {P : ParseStacks → Prop}
    (step : ∀ op operands operands' operators, Operator.apply op operands = .ok operands' →
      P ⟨operands, .operator op :: operators⟩ → P ⟨operands', operators⟩)
    {p : Nat} {operands : List PatternTree} {operators : List Waiting} {s : ParseStacks}
    (h : reduce p operands operators = .ok s) (h0 : P ⟨operands, operators⟩) : P s := by
  induction operators generalizing operands with
  | nil =>
    cases h
    exact h0
  | cons w operators ih =>
    cases w with
    | openParen =>
      cases h
      exact h0
    | operator op =>
      by_cases hop : op.precedence < p
      · rw [reduce, if_pos hop] at h
        cases h
        exact h0
      · rw [reduce_operator (by omega)] at h
        obtain ⟨operands', ha, h⟩ := bind_eq_ok_iff.1 h
        exact ih h (step op operands operands' operators ha h0)

/-! ### The operations as reductions -/

theorem pushOperator_eq (op : Operator) (operands : List PatternTree) (operators : List Waiting) :
    pushOperator op operands operators =
      (reduce op.precedence operands operators).map fun s => ⟨s.operands, .operator op :: s.operators⟩ := by
  induction operators generalizing operands with
  | nil => rfl
  | cons w operators ih =>
    cases w with
    | openParen => rfl
    | operator top =>
      rw [pushOperator, reduce]
      split
      · rfl
      · cases top.apply operands with
        | error e => rfl
        | ok operands => exact ih operands

theorem closeGroup_eq (tokenIndex : Nat) (operands : List PatternTree) (operators : List Waiting) :
    closeGroup tokenIndex operands operators = (reduce 0 operands operators).bind fun s =>
      match s.operators with
      | .openParen :: operators => .ok ⟨s.operands, operators⟩
      | _ => .error (.unmatchedCloseParen tokenIndex) := by
  induction operators generalizing operands with
  | nil => rfl
  | cons w operators ih =>
    cases w with
    | openParen => rfl
    | operator op =>
      rw [closeGroup, reduce_operator (Nat.zero_le _)]
      cases op.apply operands with
      | error e => rfl
      | ok operands => exact ih operands

theorem result_eq (operands : List PatternTree) (operators : List Waiting) :
    result operands operators = (reduce 0 operands operators).bind fun s => result s.operands s.operators := by
  induction operators generalizing operands with
  | nil => rfl
  | cons w operators ih =>
    cases w with
    | openParen => rfl
    | operator op =>
      rw [result, reduce_operator (Nat.zero_le _)]
      cases op.apply operands with
      | error e => rfl
      | ok operands => exact ih operands

/-- The input ends well exactly if everything reduces to one tree. -/
theorem result_eq_ok_iff {operands : List PatternTree} {operators : List Waiting} {t : PatternTree} :
    result operands operators = .ok t ↔ reduce 0 operands operators = .ok ⟨[t], []⟩ := by
  rw [result_eq]
  cases h : reduce 0 operands operators with
  | error e => exact iff_of_false nofun nofun
  | ok s =>
    -- no operator is left on top, so the end of the input sees a parenthesis or no waiting entry
    have hs := blocks_of_reduce h
    obtain ⟨ts, ws⟩ := s
    show result ts ws = .ok t ↔ _
    rcases ws with _ | ⟨_ | op, ws⟩
    · rcases ts with _ | ⟨t', _ | ⟨u, ts⟩⟩ <;> simp [result]
    · simp [result]
    · exact absurd hs (Nat.not_lt_zero _)

/-! ### Reading one token -/

/-- What reading a token does to the stacks and the arena when it succeeds. -/
inductive Reads (s : ParseStacks) (arena : Arena) : Token → ParseStacks → Arena → Prop where
  | leaf {t : Token} {symbol : Symbol} : t.symbol? = some symbol →
    Reads s arena t (s.pushOperand (.leaf none arena.nextId symbol)) (arena.allocate symbol).2
  | epsilon : Reads s arena .epsilon (s.pushOperand (.epsilon none)) arena
  | openParen : Reads s arena .openParen ⟨s.operands, .openParen :: s.operators⟩ arena
  | closeParen {operands : List PatternTree} {operators : List Waiting} :
    reduce 0 s.operands s.operators = .ok ⟨operands, .openParen :: operators⟩ →
    Reads s arena .closeParen ⟨operands, operators⟩ arena
  | operator (op : Operator) {r : ParseStacks} : reduce op.precedence s.operands s.operators = .ok r →
    Reads s arena op.token ⟨r.operands, .operator op :: r.operators⟩ arena

theorem read_operator (s : ParseStacks) (arena : Arena) (tokenIndex : Nat) (op : Operator) :
    s.read arena tokenIndex op.token = (pushOperator op s.operands s.operators, arena) := by
  cases op <;> rfl

private theorem reads_of_pushOperator (op : Operator) {s s' : ParseStacks} {arena : Arena}
    (h : pushOperator op s.operands s.operators = .ok s') : Reads s arena op.token s' arena := by
  rw [pushOperator_eq] at h
  obtain ⟨r, hr, rfl⟩ := map_eq_ok_iff.1 h
  exact .operator op hr

theorem reads_of_read {s s' : ParseStacks} {arena arena' : Arena} {tokenIndex : Nat} {t : Token}
    (h : s.read arena tokenIndex t = (.ok s', arena')) : Reads s arena t s' arena' := by
  cases t with
  | literal c =>
    cases h
    exact .leaf rfl
  | endMarker =>
    cases h
    exact .leaf rfl
  | epsilon =>
    cases h
    exact .epsilon
  | openParen =>
    cases h
    exact .openParen
  | closeParen =>
    obtain ⟨hc, rfl⟩ := Prod.mk.inj h
    rw [closeGroup_eq] at hc
    obtain ⟨⟨operands, operators⟩, hr, hc⟩ := bind_eq_ok_iff.1 hc
    rcases operators with _ | ⟨_ | op, operators⟩
    · cases hc
    · cases hc
      exact .closeParen hr
    · cases hc
  | star =>
    obtain ⟨hp, rfl⟩ := Prod.mk.inj h
    exact reads_of_pushOperator .star hp
  | concat =>
    obtain ⟨hp, rfl⟩ := Prod.mk.inj h
    exact reads_of_pushOperator .concat hp
  | union =>
    obtain ⟨hp, rfl⟩ := Prod.mk.inj h
    exact reads_of_pushOperator .union hp
  | positiveClosure => cases h
  | optional => cases h

theorem read_of_reads {s s' : ParseStacks} {arena arena' : Arena} {t : Token} (h : Reads s arena t s' arena')
    (tokenIndex : Nat) : s.read arena tokenIndex t = (.ok s', arena') := by
  cases h with
  | leaf ht =>
    cases t <;> cases ht <;> rfl
  | epsilon => rfl
  | openParen => rfl
  | closeParen hr =>
    show (closeGroup tokenIndex s.operands s.operators, arena) = _
    rw [closeGroup_eq, hr]
    rfl
  | operator op hr =>
    rw [read_operator, pushOperator_eq, hr]
    rfl

/-! ### Reading a list of tokens -/

theorem readAll_append (s : ParseStacks) (arena : Arena) (tokenIndex : Nat) (ts us : List Token) :
    s.readAll arena tokenIndex (ts ++ us) =
      match s.readAll arena tokenIndex ts with
      | (.ok s, arena) => s.readAll arena (tokenIndex + ts.length) us
      | (.error e, arena) => (.error e, arena) := by
  induction ts generalizing s arena tokenIndex with
  | nil => rfl
  | cons t ts ih =>
    simp only [List.cons_append, readAll, List.length_cons]
    rcases s.read arena tokenIndex t with ⟨_ | s, arena⟩
    · rfl
    · simp only [ih, Nat.add_assoc, Nat.add_comm 1]

theorem readAll_cons_of_reads {s s' : ParseStacks} {arena arena' : Arena} {t : Token}
    (h : Reads s arena t s' arena') (tokenIndex : Nat) (ts : List Token) :
    s.readAll arena tokenIndex (t :: ts) = s'.readAll arena' (tokenIndex + 1) ts := by
  rw [readAll, read_of_reads h]

/-- What every rule of `Reads` keeps, with the tokens read so far, holds after a whole list. -/
theorem readAll_induction {P : List Token → ParseStacks → Arena → Prop}
    (step : ∀ {ts s arena t s' arena'}, Reads s arena t s' arena' → P ts s arena → P (ts ++ [t]) s' arena')
    {done ts : List Token} {s s' : ParseStacks} {arena arena' : Arena} {tokenIndex : Nat}
    (h : s.readAll arena tokenIndex ts = (.ok s', arena')) (h0 : P done s arena) : P (done ++ ts) s' arena' := by
  induction ts generalizing done s arena tokenIndex with
  | nil =>
    cases h
    simpa using h0
  | cons t ts ih =>
    rw [readAll] at h
    rcases hr : s.read arena tokenIndex t with ⟨_ | s₁, arena₁⟩
    · rw [hr] at h
      cases h
    · rw [hr] at h
      simpa using ih h (step (reads_of_read hr) h0)

end ParseStacks

/-- Only the empty list of tokens has no tree. -/
theorem PatternTree.eq_nil_of_parse {tokens : List Token} {arena arena' : Arena}
    (h : PatternTree.parse tokens arena = (.ok none, arena')) : tokens = [] := by
  unfold PatternTree.parse at h
  split at h
  · exact List.isEmpty_iff.1 ‹_›
  · split at h
    · obtain ⟨h, -⟩ := Prod.mk.inj h
      obtain ⟨t, -, ht⟩ := map_eq_ok_iff.1 h
      cases ht
    · cases h

open ParseStacks in
/-- A tree comes from a list of tokens exactly if reading all of them leaves what reduces to the tree. -/
theorem PatternTree.parse_eq_some_iff {ts : List Token} {arena arena' : Arena} {t : PatternTree} :
    PatternTree.parse ts arena = (.ok (some t), arena') ↔
      ∃ s, ParseStacks.readAll {} arena 0 ts = (.ok s, arena') ∧ reduce 0 s.operands s.operators = .ok ⟨[t], []⟩ := by
  unfold PatternTree.parse
  cases ts with
  | nil =>
    refine iff_of_false (by simp) ?_
    intro hex
    obtain ⟨s, h, hr⟩ := hex
    cases h
    cases hr
  | cons t' ts =>
    rw [if_neg (by simp)]
    rcases ParseStacks.readAll {} arena 0 (t' :: ts) with ⟨e | s, arena₁⟩
    · refine iff_of_false nofun ?_
      intro hex
      obtain ⟨s, h, -⟩ := hex
      cases h
    · simp only [Prod.mk.injEq, Except.ok.injEq]
      constructor
      · rintro ⟨h, rfl⟩
        refine ⟨s, ⟨rfl, rfl⟩, result_eq_ok_iff.1 ?_⟩
        obtain ⟨u, hu, hut⟩ := map_eq_ok_iff.1 h
        exact Option.some.inj hut ▸ hu
      · rintro ⟨s', ⟨rfl, rfl⟩, hr⟩
        rw [result_eq_ok_iff.2 hr]
        exact ⟨rfl, rfl⟩

end PositionAutomaton
