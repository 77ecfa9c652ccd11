import PositionAutomaton.Position

/-!
# State labels

What identifies a state of an automaton: a set of positions, or the one state of an automaton without positions.
-/

namespace PositionAutomaton

/-- The label of a state. -/
inductive Label where
  | positions (set : PositionSet)
  /-- The state of an automaton that accepts the empty word only. -/
  | epsilonOnly
  /-- The state of an automaton that accepts nothing. -/
  | emptyLanguage
deriving DecidableEq, Inhabited

namespace Label

/-- The number of a kind of label. -/
def kind : Label → Nat
  | .positions _ => 0
  | .epsilonOnly => 1
  | .emptyLanguage => 2

/-- The positions of a label, none in one of the other kinds. -/
def positionSet : Label → PositionSet
  | .positions s => s
  | .epsilonOnly | .emptyLanguage => ∅

/-- Labels are ordered by kind, and sets of positions as sets are. -/
instance : Ord Label where
  compare := compareLex (compareOn kind) (compareOn positionSet)

instance : Std.TransOrd Label :=
  inferInstanceAs (Std.TransCmp (compareLex (compareOn kind) (compareOn positionSet)))

instance : Std.LawfulEqOrd Label where
  compare_self := Std.ReflOrd.compare_self
  eq_of_compare {a b} h := by
    have ⟨hkind, hset⟩ := compareLex_eq_eq.1 h
    have hkind : a.kind = b.kind := Std.LawfulEqOrd.eq_of_compare hkind
    have hset : a.positionSet = b.positionSet := Std.LawfulEqOrd.eq_of_compare hset
    cases a <;> cases b <;> simp_all [kind, positionSet]

def text : Label → String
  | .positions s => PositionSet.text s
  | .epsilonOnly => "epsilon"
  | .emptyLanguage => "empty"

end Label

end PositionAutomaton
