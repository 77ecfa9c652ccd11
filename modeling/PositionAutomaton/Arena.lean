import PositionAutomaton.Position

/-!
# The arena of positions

All positions of one compilation, found by their numbers.  Numbers are handed out in order from 1, so the position
numbered `p` is the entry with index `p - 1`, and the number 0 never belongs to a position.
-/

namespace PositionAutomaton

/-- The positions in the order of their numbers. -/
structure Arena where
  positions : Array Position := #[]
deriving DecidableEq, Inhabited

namespace Arena

def empty : Arena := {}

instance : EmptyCollection Arena :=
  ⟨empty⟩

def size (a : Arena) : Nat :=
  a.positions.size

def isEmpty (a : Arena) : Bool :=
  a.positions.isEmpty

def toList (a : Arena) : List Position :=
  a.positions.toList

/-- The number of the next position: one more than there are, modulo `2 ^ 32`. -/
def nextId (a : Arena) : PositionId :=
  UInt32.ofNat a.size + 1

/-- Adds a position for `symbol`, not followed by any. -/
def allocate (a : Arena) (symbol : Symbol) : PositionId × Arena :=
  (a.nextId, { positions := a.positions.push { id := a.nextId, symbol } })

/-- Drops all positions, so that numbers start from 1 again. -/
def reset (_ : Arena) : Arena :=
  empty

/-- The position with a number, none for a number that was not handed out. -/
def get? (a : Arena) (id : PositionId) : Option Position :=
  if id = 0 then none else a.positions[id.toNat - 1]?

def symbol? (a : Arena) (id : PositionId) : Option Symbol :=
  (a.get? id).map (·.symbol)

def followpos? (a : Arena) (id : PositionId) : Option PositionSet :=
  (a.get? id).map (·.followpos)

/-- Adds `ids` to the positions that may follow `id`, if there is a position `id`. -/
def addFollowers? (a : Arena) (id : PositionId) (ids : PositionSet) : Option Arena :=
  if id = 0 ∨ a.size ≤ id.toNat - 1 then
    none
  else
    some { positions := a.positions.modify (id.toNat - 1) fun p => { p with followpos := p.followpos ∪ ids } }

/-- The first position that matches `symbol`. -/
def firstMatching? (a : Arena) (symbol : Symbol) : Option PositionId :=
  (a.positions.find? (·.symbol == symbol)).map (·.id)

/-- The characters matched by some position. -/
def alphabet (a : Arena) : OrderedSet Char :=
  .ofList (a.toList.filterMap (·.symbol.char?))

end Arena

end PositionAutomaton
