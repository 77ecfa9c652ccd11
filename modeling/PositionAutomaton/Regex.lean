/-!
# Regular expressions

Regular expressions over any type of letters, and the words that they match.
-/

namespace PositionAutomaton

/-- A regular expression over letters of the type `σ`. -/
inductive Regex (σ : Type) where
  | letter (s : σ)
  | epsilon
  | concat (left right : Regex σ)
  | union (left right : Regex σ)
  | star (body : Regex σ)
deriving DecidableEq

namespace Regex

variable {σ τ : Type}

/-- The words of a regular expression. -/
inductive Matches : Regex σ → List σ → Prop where
  | letter (s : σ) : Matches (.letter s) [s]
  | epsilon : Matches .epsilon []
  | concat {left right : Regex σ} {u v : List σ} :
    Matches left u → Matches right v → Matches (.concat left right) (u ++ v)
  | unionLeft {left right : Regex σ} {u : List σ} : Matches left u → Matches (.union left right) u
  | unionRight {left right : Regex σ} {u : List σ} : Matches right u → Matches (.union left right) u
  | starNil {body : Regex σ} : Matches (.star body) []
  | starAppend {body : Regex σ} {u v : List σ} :
    Matches body u → Matches (.star body) v → Matches (.star body) (u ++ v)

/-- The letters from left to right. -/
def letters : Regex σ → List σ
  | .letter s => [s]
  | .epsilon => []
  | .concat left right | .union left right => left.letters ++ right.letters
  | .star body => body.letters

/-- The expression with each letter replaced. -/
def map (f : σ → τ) : Regex σ → Regex τ
  | .letter s => .letter (f s)
  | .epsilon => .epsilon
  | .concat left right => .concat (left.map f) (right.map f)
  | .union left right => .union (left.map f) (right.map f)
  | .star body => .star (body.map f)

end Regex

end PositionAutomaton
