import PositionAutomaton.PatternTree.Language
import PositionAutomaton.Proofs.Grammar.Placement
import PositionAutomaton.Proofs.Parser.Reduction

/-!
# Patterns are parsed

A phrase of the grammar, read with its concatenations, leaves its tree on the stack of operands once the operators that
bind at least as tightly as those of the phrase are reduced (`Derives.parses`); what was on the stacks before stays.  So
the parser gives every pattern the tree of its derivation (`Derives.parse_eq`).
-/

namespace PositionAutomaton

/-- The least precedence of an operator that stands in the phrase outside of parentheses. -/
def Phrase.precedence : Phrase → Nat
  | .union => 1
  | .term => 2
  | .factor => 3
  | .atom => 4

theorem Derives.letters_eq {φ : Phrase} {ts : List Token} {r : Regex Symbol} (h : Derives φ ts r) :
    r.letters = Token.symbols ts := by
  induction h with
  | literal | epsilon | endMarker => rfl
  | group _ ih =>
    rw [List.cons_append, Token.symbols_cons, Token.symbols_append, ← ih]
    exact (List.append_nil _).symm
  | star _ ih =>
    rw [Regex.letters, ih, Token.symbols_append]
    exact (List.append_nil _).symm
  | concat _ _ ihl ihr => rw [Regex.letters, ihl, ihr, Token.symbols_append]
  | union _ _ ihl ihr =>
    rw [Regex.letters, ihl, ihr, Token.symbols_append, Token.symbols_cons]
    rfl
  | atom _ ih | factor _ ih | term _ ih => exact ih

/-- Without its numbers, the tree of an expression is the expression. -/
theorem PatternTree.map_snd_regex_ofRegex (first : PositionId) (r : Regex Symbol) :
    (ofRegex first r).regex.map Prod.snd = r := by
  induction r generalizing first with
  | letter | epsilon => rfl
  | concat left right ihl ihr => simp [ofRegex, regex, Regex.map, ihl, ihr]
  | union left right ihl ihr => simp [ofRegex, regex, Regex.map, ihl, ihr]
  | star body ih => simp [ofRegex, regex, Regex.map, ih]

/-- Concatenations have no position. -/
theorem Token.symbols_insertConcats (ts : List Token) : symbols (insertConcats ts) = symbols ts := by
  suffices key : ∀ closed, symbols (joinAfter closed ts) = symbols ts by
    rw [insertConcats_eq_joinAfter, key]
  induction ts with
  | nil => intro closed; rfl
  | cons t ts ih =>
    intro closed
    rw [joinAfter, symbols_append, symbols_cons, symbols_cons, ih]
    split <;> rfl

namespace ParseStacks

/-- Read on top of any stacks, the tokens come to the tree of `r` when reduced to the precedence `p`, and get the
positions of `r`. -/
def Parses (p : Nat) (ts : List Token) (r : Regex Symbol) : Prop :=
  ∀ (operands : List PatternTree) (operators : List Waiting) (arena : Arena) (tokenIndex : Nat),
    Blocks p operators → ∃ s,
      readAll ⟨operands, operators⟩ arena tokenIndex ts = (.ok s, arena.allocateAll r.letters) ∧
      reduce p s.operands s.operators = .ok ⟨.ofRegex arena.nextId r :: operands, operators⟩

variable {ts us : List Token} {l r : Regex Symbol}

theorem Parses.mono {p q : Nat} (h : Parses p ts r) (hqp : q ≤ p) : Parses q ts r := by
  intro operands operators arena i hb
  obtain ⟨s, hs, hr⟩ := h operands operators arena i (hb.mono hqp)
  exact ⟨s, hs, reduce_of_le hqp hr hb⟩

theorem parses_leaf {t : Token} {symbol : Symbol} (ht : t.symbol? = some symbol) (p : Nat) :
    Parses p [t] (.letter symbol) := by
  intro operands operators arena i hb
  refine ⟨⟨.leaf none arena.nextId symbol :: operands, operators⟩, ?_, reduce_of_blocks hb _⟩
  rw [readAll_cons_of_reads (.leaf ht)]
  rfl

theorem parses_epsilon (p : Nat) : Parses p [.epsilon] .epsilon := by
  intro operands operators arena i hb
  exact ⟨⟨.epsilon none :: operands, operators⟩, rfl, reduce_of_blocks hb _⟩

theorem Parses.group (h : Parses 1 ts r) (p : Nat) : Parses p (.openParen :: ts ++ [.closeParen]) r := by
  intro operands operators arena i hb
  obtain ⟨s, hs, hr⟩ := h operands (.openParen :: operators) arena (i + 1) trivial
  have hclose : Reads s (arena.allocateAll r.letters) .closeParen
      ⟨.ofRegex arena.nextId r :: operands, operators⟩ (arena.allocateAll r.letters) :=
    .closeParen (reduce_of_le (Nat.zero_le 1) hr trivial)
  refine ⟨⟨.ofRegex arena.nextId r :: operands, operators⟩, ?_, reduce_of_blocks hb _⟩
  rw [List.cons_append, readAll_cons_of_reads .openParen, readAll_append, hs]
  exact readAll_cons_of_reads hclose _ []

theorem Parses.star (h : Parses 3 ts r) : Parses 3 (ts ++ [.star]) (.star r) := by
  intro operands operators arena i hb
  obtain ⟨s, hs, hr⟩ := h operands operators arena i hb
  have hstar : Reads s (arena.allocateAll r.letters) .star
      ⟨.ofRegex arena.nextId r :: operands, .operator .star :: operators⟩ (arena.allocateAll r.letters) :=
    .operator .star hr
  refine ⟨⟨.ofRegex arena.nextId r :: operands, .operator .star :: operators⟩, ?_, ?_⟩
  · rw [readAll_append, hs]
    exact readAll_cons_of_reads hstar _ []
  · rw [reduce_operator (Nat.le_refl 3)]
    exact reduce_of_blocks hb _

/-- An operator between two parts of which the right one binds tighter; `node` is what the operator makes of them. -/
private theorem Parses.binary (op : Operator) {node : Regex Symbol} (hl : Parses op.precedence ts l)
    (hr : Parses (op.precedence + 1) us r) (hletters : node.letters = l.letters ++ r.letters)
    (hnode : ∀ (first : PositionId) (operands : List PatternTree),
      op.apply (.ofRegex (first + .ofNat l.letters.length) r :: .ofRegex first l :: operands) =
        .ok (.ofRegex first node :: operands)) :
    Parses op.precedence (ts ++ op.token :: us) node := by
  intro operands operators arena i hb
  obtain ⟨s, hs, hsl⟩ := hl operands operators arena i hb
  have hop : Reads s (arena.allocateAll l.letters) op.token
      ⟨.ofRegex arena.nextId l :: operands, .operator op :: operators⟩ (arena.allocateAll l.letters) :=
    .operator op hsl
  obtain ⟨s', hs', hsr⟩ := hr (.ofRegex arena.nextId l :: operands) (.operator op :: operators)
    (arena.allocateAll l.letters) (i + ts.length + 1) (Nat.lt_succ_self _)
  refine ⟨s', ?_, ?_⟩
  · rw [readAll_append, hs]
    show readAll s _ _ (op.token :: us) = _
    rw [readAll_cons_of_reads hop, hs', hletters, Arena.allocateAll_append]
  · -- the operator is reduced after what stands to the right of it
    rw [← reduce_reduce (Nat.le_succ _), hsr]
    show reduce op.precedence _ (.operator op :: operators) = _
    rw [reduce_operator (Nat.le_refl _), Arena.nextId_allocateAll, hnode]
    exact reduce_of_blocks hb _

theorem Parses.concat (hl : Parses 2 ts l) (hr : Parses 3 us r) : Parses 2 (ts ++ .concat :: us) (.concat l r) :=
  Parses.binary .concat hl hr rfl fun _ _ => rfl

theorem Parses.union (hl : Parses 1 ts l) (hr : Parses 2 us r) : Parses 1 (ts ++ .union :: us) (.union l r) :=
  Parses.binary .union hl hr rfl fun _ _ => rfl

end ParseStacks

open ParseStacks

variable {φ : Phrase} {ts : List Token} {r : Regex Symbol}

/-- Every phrase, read with its concatenations, comes to the tree of its derivation. -/
theorem Derives.parses (h : Derives φ ts r) : Parses φ.precedence (Token.joinAfter false ts) r := by
  induction h with
  | literal c => exact parses_leaf rfl 4
  | epsilon => exact parses_epsilon 4
  | endMarker => exact parses_leaf rfl 4
  | group h ih =>
    rw [Token.joinAfter_append, Token.closedAfter_cons, h.closedAfter_eq]
    exact ih.group 4
  | star h ih =>
    rw [Token.joinAfter_append, h.closedAfter_eq]
    exact ih.star
  | concat hl hr ihl ihr =>
    obtain ⟨t, us, rfl, ht⟩ := hr.exists_cons
    rw [Token.joinAfter_append, hl.closedAfter_eq, Token.joinAfter_true ht]
    exact ihl.concat ihr
  | union hl hr ihl ihr =>
    rw [Token.joinAfter_append, hl.closedAfter_eq]
    exact ihl.union ihr
  | atom _ ih | factor _ ih | term _ ih => exact ih.mono (by decide)

/-- A pattern is parsed to the tree of its derivation, with its letters numbered on from the arena. -/
theorem Derives.parse_eq (h : Derives .union ts r) (arena : Arena) :
    PatternTree.parse (Token.insertConcats ts) arena =
      (.ok (some (.ofRegex arena.nextId r)), arena.allocateAll r.letters) := by
  obtain ⟨s, hs, hr⟩ := h.parses [] [] arena 0 trivial
  rw [Token.insertConcats_eq_joinAfter, PatternTree.parse_eq_some_iff]
  exact ⟨s, hs, reduce_of_le (Nat.zero_le 1) hr trivial⟩

end PositionAutomaton
