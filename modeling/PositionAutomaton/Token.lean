/-!
# Tokens

The tokens of a pattern, and what the rest of the compiler asks about them: whether an operand may end or start at
a token, how tightly it binds, and its printed form.
-/

namespace PositionAutomaton

/-- Signs of a pattern.  Concatenation and the end marker have none; they are added to what is written. -/
inductive Token where
  | star
  | positiveClosure
  | optional
  | concat
  | union
  | openParen
  | closeParen
  | literal (c : Char)
  | epsilon
  | endMarker
deriving DecidableEq, Inhabited

namespace Token

/-- The tokens that become leaves of a syntax tree. -/
def isLeaf : Token → Bool
  | .epsilon | .endMarker | .literal _ => true
  | _ => false

/-- The higher the number, the tighter an operator binds. -/
def precedence : Token → Nat
  | .star | .positiveClosure | .optional => 3
  | .concat => 2
  | .union => 1
  | _ => 0

/-- The printed form. -/
def char : Token → Char
  | .star => '*'
  | .positiveClosure => '+'
  | .optional => '?'
  | .concat => '·'
  | .union => '|'
  | .openParen => '('
  | .closeParen => ')'
  | .literal c => c
  | .epsilon => 'ε'
  | .endMarker => '#'

/-- Whether an operand may end with this token. -/
def closesOperand : Token → Bool
  | .closeParen | .star | .positiveClosure | .optional => true
  | t => t.isLeaf

/-- Whether an operand may start with this token. -/
def opensOperand : Token → Bool
  | .openParen => true
  | t => t.isLeaf

/-! ### Concatenation made explicit -/

/-- Puts a concatenation between every token that ends an operand and a next one that starts an operand. -/
def insertConcats : List Token → List Token
  | [] => []
  | [t] => [t]
  | t :: u :: rest =>
    if t.closesOperand && u.opensOperand then
      t :: .concat :: insertConcats (u :: rest)
    else
      t :: insertConcats (u :: rest)

end Token

end PositionAutomaton
