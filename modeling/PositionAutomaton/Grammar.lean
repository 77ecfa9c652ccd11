import PositionAutomaton.Position
import PositionAutomaton.Regex
import PositionAutomaton.Token

/-!
# The grammar of patterns

Which lists of tokens are patterns, and the regular expression that each of them writes.  A union is of terms, a term
of factors side by side, and a factor an atom with any number of stars; a group in parentheses is an atom.
-/

namespace PositionAutomaton

/-- The phrases of the grammar, from the loosest to the tightest. -/
inductive Phrase where
  | union
  | term
  | factor
  | atom
deriving DecidableEq

/-- The tokens write the expression as a phrase of the grammar.  Concatenation is written by putting factors side by
side. -/
inductive Derives : Phrase → List Token → Regex Symbol → Prop where
  | literal (c : Char) : Derives .atom [.literal c] (.letter (.char c))
  | epsilon : Derives .atom [.epsilon] .epsilon
  | endMarker : Derives .atom [.endMarker] (.letter .endMarker)
  | group {ts : List Token} {r : Regex Symbol} :
    Derives .union ts r → Derives .atom (.openParen :: ts ++ [.closeParen]) r
  | atom {ts : List Token} {r : Regex Symbol} : Derives .atom ts r → Derives .factor ts r
  | star {ts : List Token} {r : Regex Symbol} : Derives .factor ts r → Derives .factor (ts ++ [.star]) (.star r)
  | factor {ts : List Token} {r : Regex Symbol} : Derives .factor ts r → Derives .term ts r
  | concat {ts us : List Token} {l r : Regex Symbol} :
    Derives .term ts l → Derives .factor us r → Derives .term (ts ++ us) (.concat l r)
  | term {ts : List Token} {r : Regex Symbol} : Derives .term ts r → Derives .union ts r
  | union {ts us : List Token} {l r : Regex Symbol} :
    Derives .union ts l → Derives .term us r → Derives .union (ts ++ .union :: us) (.union l r)

end PositionAutomaton
