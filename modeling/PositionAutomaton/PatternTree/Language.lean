import PositionAutomaton.Regex
import PositionAutomaton.PatternTree

/-!
# The language of a syntax tree

A syntax tree without its attributes is a regular expression whose letters are positions.  Its words over the numbers
of the positions say which positions may begin, follow and end each other, whatever symbols they match.
-/

namespace PositionAutomaton

namespace PatternTree

/-- The tree without its attributes. -/
def regex : PatternTree → Regex (PositionId × Symbol)
  | .leaf _ id symbol => .letter (id, symbol)
  | .epsilon _ => .epsilon
  | .concat _ left right => .concat left.regex right.regex
  | .union _ left right => .union left.regex right.regex
  | .star _ child => .star child.regex

/-- The words of the tree over the numbers of its positions. -/
def Matches (t : PatternTree) (w : List PositionId) : Prop :=
  (t.regex.map Prod.fst).Matches w

/-- The tree of an expression without attributes, its letters numbered from `first` on, from left to right. -/
def ofRegex (first : PositionId) : Regex Symbol → PatternTree
  | .letter symbol => .leaf none first symbol
  | .epsilon => .epsilon none
  | .concat left right => .concat none (ofRegex first left) (ofRegex (first + .ofNat left.letters.length) right)
  | .union left right => .union none (ofRegex first left) (ofRegex (first + .ofNat left.letters.length) right)
  | .star body => .star none (ofRegex first body)

end PatternTree

end PositionAutomaton
