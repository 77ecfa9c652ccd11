import PositionAutomaton.Arena
import PositionAutomaton.CompileError
import PositionAutomaton.PatternTree
import PositionAutomaton.Token

/-!
# From tokens to a syntax tree

The parser keeps two stacks: subtrees that are complete, and operators and parentheses that still wait.  An operator
that arrives first reduces the waiting ones that bind at least as tightly, so operators of one precedence associate to
the left, and a closing parenthesis reduces back to its opening one.  Every literal and every end marker gets a
new position when it is read.
-/

namespace PositionAutomaton

/-- The operators that a syntax tree has nodes for. -/
inductive Operator where
  | star
  | concat
  | union
deriving DecidableEq

namespace Operator

def token : Operator → Token
  | .star => .star
  | .concat => .concat
  | .union => .union

def precedence (op : Operator) : Nat :=
  op.token.precedence

/-- Replaces the operands on top of the stack by the node of the operator over them. -/
def apply : Operator → List PatternTree → Except CompileError (List PatternTree)
  | .star, child :: operands => .ok (.star none child :: operands)
  | .concat, right :: left :: operands => .ok (.concat none left right :: operands)
  | .union, right :: left :: operands => .ok (.union none left right :: operands)
  | op, _ => .error (.missingOperand op.token.char)

end Operator

/-- What waits on the stack of operators.  A token of another kind has no place there, so none can come to be reduced,
and there is no error for it: that "non-operator token on the operator stack" would be one more `BrokenInvariant`. -/
inductive Waiting where
  | openParen
  | operator (op : Operator)
deriving DecidableEq

/-- The two stacks of the parser, each with its top first.  Only open parentheses and operators wait, by the type of the
second. -/
structure ParseStacks where
  operands : List PatternTree := []
  operators : List Waiting := []
deriving DecidableEq

namespace ParseStacks

def pushOperand (s : ParseStacks) (t : PatternTree) : ParseStacks :=
  { s with operands := t :: s.operands }

/-- Reduces the operators on top that bind at least as tightly as `op`, then lets `op` wait. -/
def pushOperator (op : Operator) (operands : List PatternTree) : List Waiting → Except CompileError ParseStacks
  | .operator top :: operators =>
    if top.precedence < op.precedence then
      .ok ⟨operands, .operator op :: .operator top :: operators⟩
    else do
      pushOperator op (← top.apply operands) operators
  | operators => .ok ⟨operands, .operator op :: operators⟩

/-- Reduces the operators back to the last open parenthesis and takes it away. -/
def closeGroup (tokenIndex : Nat) (operands : List PatternTree) : List Waiting → Except CompileError ParseStacks
  | [] => .error (.unmatchedCloseParen tokenIndex)
  | .openParen :: operators => .ok ⟨operands, operators⟩
  | .operator op :: operators => do closeGroup tokenIndex (← op.apply operands) operators

/-- Reduces all waiting operators to the one tree that has to remain. -/
def result (operands : List PatternTree) : List Waiting → Except CompileError PatternTree
  | .openParen :: _ => .error .unclosedOpenParen
  | .operator op :: operators => do result (← op.apply operands) operators
  | [] =>
    match operands with
    | [t] => .ok t
    | _ => .error (.invalidExpression operands.length)

/-- A new position in the arena, with its leaf as an operand. -/
def pushLeaf (s : ParseStacks) (symbol : Symbol) (arena : Arena) : ParseStacks × Arena :=
  let (id, arena) := arena.allocate symbol
  (s.pushOperand (.leaf none id symbol), arena)

/-- Reads one token.  Only a leaf changes the arena, and reading a leaf does not fail. -/
def read (s : ParseStacks) (arena : Arena) (tokenIndex : Nat) : Token → Except CompileError ParseStacks × Arena
  | .literal c =>
    let (s, arena) := s.pushLeaf (.char c) arena
    (.ok s, arena)
  | .endMarker =>
    let (s, arena) := s.pushLeaf .endMarker arena
    (.ok s, arena)
  | .epsilon => (.ok (s.pushOperand (.epsilon none)), arena)
  | .openParen => (.ok { s with operators := .openParen :: s.operators }, arena)
  | .closeParen => (closeGroup tokenIndex s.operands s.operators, arena)
  | .star => (pushOperator .star s.operands s.operators, arena)
  | .concat => (pushOperator .concat s.operands s.operators, arena)
  | .union => (pushOperator .union s.operands s.operators, arena)
  | .positiveClosure => (.error (.unsupportedOperator Token.positiveClosure.char tokenIndex), arena)
  | .optional => (.error (.unsupportedOperator Token.optional.char tokenIndex), arena)

/-- Reads tokens up to the first one that fails. -/
def readAll (s : ParseStacks) (arena : Arena) (tokenIndex : Nat) :
    List Token → Except CompileError ParseStacks × Arena
  | [] => (.ok s, arena)
  | t :: tokens =>
    match s.read arena tokenIndex t with
    | (.ok s, arena) => readAll s arena (tokenIndex + 1) tokens
    | (.error e, arena) => (.error e, arena)

end ParseStacks

/-- The tree of a list of tokens, no tree for the empty list, and the arena with the new positions.  Those of the
tokens before an error stay in the arena. -/
def PatternTree.parse (tokens : List Token) (arena : Arena) : Except CompileError (Option PatternTree) × Arena :=
  if tokens.isEmpty then
    (.ok none, arena)
  else
    match ParseStacks.readAll {} arena 0 tokens with
    | (.ok s, arena) => ((ParseStacks.result s.operands s.operators).map some, arena)
    | (.error e, arena) => (.error e, arena)

end PositionAutomaton
