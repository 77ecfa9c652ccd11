/-!
# Readers of bytes

A reader takes a value off the front of a list of bytes and leaves the rest, or fails.  The formats that are read are
those that the bincode library documents as its standard in version 2, and are assumed here.
-/

namespace PositionAutomaton

abbrev Bytes := List UInt8

def Reader (α : Type) :=
  Bytes → Option (α × Bytes)

namespace Reader

instance : Monad Reader where
  pure a := fun bytes => some (a, bytes)
  bind r f := fun bytes => (r bytes).bind fun (a, rest) => f a rest

variable {α : Type}

/-- Takes nothing; fails if there is no value. -/
def ofOption (a : Option α) : Reader α :=
  fun bytes => a.map (·, bytes)

def byte : Reader UInt8
  | [] => none
  | b :: rest => some (b, rest)

/-- The next `n` bytes. -/
def take (n : Nat) : Reader Bytes :=
  fun bytes =>
    let taken := bytes.take n
    if taken.length = n then some (taken, bytes.drop n) else none

/-- Reads `n` values, one after the other. -/
def times (r : Reader α) : Nat → Reader (List α)
  | 0 => pure []
  | n + 1 => do
    let a ← r
    let as ← r.times n
    return a :: as

end Reader

end PositionAutomaton
