import PositionAutomaton.Position

/-!
# Compilation errors

Why a pattern is not compiled, each cause with the one text that reports it.
-/

namespace PositionAutomaton

/-- How a syntax tree, or the arena beside it, can break what the passes over it rely on.  A token that is no operator,
found where an operator is to be reduced, would break it as well; the stack of the parser cannot hold one (`Waiting`). -/
inductive BrokenInvariant where
  | attributesNotComputed
  | childrenNotRebuilt
  | rootNotSingle
  | positionNotAllocated
deriving DecidableEq

def BrokenInvariant.text : BrokenInvariant → String
  | .attributesNotComputed => "node attributes read before the attribute pass"
  | .childrenNotRebuilt => "operator rebuilt without its children"
  | .rootNotSingle => "attribute pass did not end with a single root"
  | .positionNotAllocated => "lastpos refers to an unallocated position"

/-- Why a pattern is not compiled.  Offsets count the characters of the pattern, token indices the tokens given to the
tree builder. -/
inductive CompileError where
  | unknownToken (token : Char) (offset : Nat)
  | unmatchedCloseParen (tokenIndex : Nat)
  | unclosedOpenParen
  | missingOperand (operator : Char)
  | invalidExpression (operands : Nat)
  | unsupportedOperator (operator : Char) (tokenIndex : Nat)
  | brokenInvariant (cause : BrokenInvariant)
  | positionNotFound (symbol : Symbol)
deriving DecidableEq

namespace CompileError

def message : CompileError → String
  | .unknownToken token offset => s!"unknown token '{token}' at offset {offset}"
  | .unmatchedCloseParen tokenIndex =>
    s!"mismatched parentheses: no '(' for the ')' at token index {tokenIndex}"
  | .unclosedOpenParen => "mismatched parentheses: '(' left open"
  | .missingOperand operator => s!"not enough operands for '{operator}'"
  | .invalidExpression operands => s!"invalid expression: {operands} operands left after parsing"
  | .unsupportedOperator operator tokenIndex =>
    s!"operator '{operator}' at token index {tokenIndex} must be expanded before building the syntax tree"
  | .brokenInvariant cause => "syntax tree invariant violated: " ++ cause.text
  | .positionNotFound symbol => "no position found for " ++ symbol.text

/-- A fatal error points at a defect of the compiler and not of the pattern. -/
def isDefect : CompileError → Bool
  | .brokenInvariant _ | .positionNotFound _ => true
  | _ => false

end CompileError

/-! ### Computations that may fail -/

section Except

variable {ε α β : Type} {x : Except ε α} {b : β} {e : ε}

theorem bind_eq_ok_iff {f : α → Except ε β} : x >>= f = .ok b ↔ ∃ a, x = .ok a ∧ f a = .ok b := by
  cases x with
  | error e => exact iff_of_false (by rintro ⟨⟩) (by rintro ⟨a, ⟨⟩, -⟩)
  | ok a =>
    show f a = .ok b ↔ _
    simp

theorem map_eq_ok_iff {f : α → β} : x.map f = .ok b ↔ ∃ a, x = .ok a ∧ f a = b := by
  cases x <;> simp [Except.map]

theorem bind_eq_error_iff {f : α → Except ε β} :
    x >>= f = .error e ↔ x = .error e ∨ ∃ a, x = .ok a ∧ f a = .error e := by
  cases x with
  | error e' =>
    show (.error e' : Except ε β) = .error e ↔ _
    simp
  | ok a =>
    show f a = .error e ↔ _
    simp

theorem map_eq_error_iff {f : α → β} : x.map f = .error e ↔ x = .error e := by
  cases x <;> simp [Except.map]

end Except

end PositionAutomaton
