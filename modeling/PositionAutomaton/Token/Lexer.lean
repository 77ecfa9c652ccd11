import PositionAutomaton.CompileError
import PositionAutomaton.Token

/-!
# From characters to tokens

A backslash makes the next character a literal.  The characters `. [ ] { }` stand for nothing by themselves: they
have to be escaped, and a text is rejected for one of its characters only (`exists_unknownToken_of_scan`).  A pattern is
compiled as `(pattern)#`, where `#` is the end marker, with its concatenations made explicit.
-/

namespace PositionAutomaton

namespace Token

/-- The meaning of a character that is not escaped, none for one that has to be. -/
def ofChar? : Char → Option Token
  | '*' => some .star
  | '+' => some .positiveClosure
  | '?' => some .optional
  | '|' => some .union
  | '(' => some .openParen
  | ')' => some .closeParen
  | 'ε' => some .epsilon
  | '.' | '[' | ']' | '{' | '}' => none
  | c => some (.literal c)

/-- Reads the tokens of a text whose first character is at `offset`. -/
def scanFrom (offset : Nat) : List Char → Except CompileError (List Token)
  | [] => .ok []
  | ['\\'] => .error (.unknownToken '\\' offset)
  | '\\' :: c :: rest => (scanFrom (offset + 2) rest).map (.literal c :: ·)
  | c :: rest =>
    match ofChar? c with
    | none => .error (.unknownToken c offset)
    | some t => (scanFrom (offset + 1) rest).map (t :: ·)

/-- The tokens of a pattern. -/
def scan (pattern : String) : Except CompileError (List Token) :=
  scanFrom 0 pattern.toList

private theorem exists_unknownToken_of_scanFrom {offset : Nat} {cs : List Char} {e : CompileError}
    (h : scanFrom offset cs = .error e) : ∃ c i, e = .unknownToken c i := by
  fun_induction scanFrom offset cs with
  | case1 => cases h
  | case2 offset =>
    cases h
    exact ⟨_, offset, rfl⟩
  | case3 offset c rest ih => exact ih (map_eq_error_iff.1 h)
  | case4 offset c =>
    cases h
    exact ⟨c, offset, rfl⟩
  | case5 offset c rest _ _ t ht ih => exact ih (map_eq_error_iff.1 h)

/-- A text is rejected for one of its characters. -/
theorem exists_unknownToken_of_scan {pattern : String} {e : CompileError} (h : scan pattern = .error e) :
    ∃ c i, e = .unknownToken c i :=
  exists_unknownToken_of_scanFrom h

/-- The tokens in parentheses and followed by the end marker, with explicit concatenation. -/
def augmented (tokens : List Token) : List Token :=
  insertConcats (.openParen :: tokens ++ [.closeParen, .endMarker])

/-- The augmented tokens of a pattern. -/
def scanAugmented (pattern : String) : Except CompileError (List Token) :=
  (scan pattern).map augmented

end Token

end PositionAutomaton
