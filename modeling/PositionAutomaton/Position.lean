import PositionAutomaton.OrderedSet

/-!
# Positions

A position is one occurrence of a letter in a regular expression.  It carries its number, what it matches, and
the positions that may come right after it.
-/

namespace PositionAutomaton

/-- What a position matches: a character, or the marker of the end of the input. -/
inductive Symbol where
  | char (c : Char)
  | endMarker
deriving DecidableEq, Inhabited

namespace Symbol

/-- The character matched, none for the end marker. -/
def char? : Symbol → Option Char
  | .char c => some c
  | .endMarker => none

/-- A character stands between quotes, as it is. -/
def text : Symbol → String
  | .char c => s!"'{c}'"
  | .endMarker => "end marker"

/-- Characters are ordered by code point, and the end marker comes after all of them. -/
instance : Ord Symbol where
  compare
    | .char a, .char b => compare a b
    | .char _, .endMarker => .lt
    | .endMarker, .char _ => .gt
    | .endMarker, .endMarker => .eq

end Symbol

/-- Positions are numbered from 1 in 32 bits. -/
abbrev PositionId := UInt32

/-- Sets of positions, each position by its number. -/
abbrev PositionSet := OrderedSet PositionId

/-- The numbers in ascending order between braces. -/
def PositionSet.text (s : PositionSet) : String :=
  "\x7b" ++ ", ".intercalate (s.toList.map fun p => toString p.toNat) ++ "\x7d"

/-- One occurrence of a letter, with the positions that may come right after it. -/
structure Position where
  id : PositionId
  symbol : Symbol
  followpos : PositionSet := ∅
deriving DecidableEq, Inhabited

end PositionAutomaton
