import PositionAutomaton.Automaton
import PositionAutomaton.Binary.Collection
import PositionAutomaton.Binary.Text

/-!
# Automata as bytes

The fields of an automaton one after the other, each in the standard format of the bincode library in its version 2.
The format is that library's: it is written down here from its documentation and assumed, and no more than the order of
the fields and their types is the program's own.  Reading checks the form of each field, and not whether the fields agree
with each other.
-/

namespace PositionAutomaton

namespace Label

open Binary

/-- The number of the kind of the label, and its positions if it is a set of them. -/
def encode : Label → Bytes
  | .positions s => Varint.encode 0 ++ encodeSet (fun p => Varint.encode p.toNat) s
  | .epsilonOnly => Varint.encode 1
  | .emptyLanguage => Varint.encode 2

/-- The number of a position takes at most 32 bits. -/
def readPositionId : Reader PositionId := do
  return .ofNat (← Varint.read32)

def read : Reader Label := do
  match ← Varint.read32 with
  | 0 => return .positions (← readSet readPositionId)
  | 1 => return .epsilonOnly
  | 2 => return .emptyLanguage
  | _ => Reader.ofOption none

end Label

namespace Arrow

open Binary

def encode (a : Arrow) : Bytes :=
  encodeChar a.symbol ++ Varint.encode a.target

def read : Reader Arrow := do
  let symbol ← readChar
  let target ← Varint.read64
  return { symbol, target }

end Arrow

namespace Automaton

open Binary

/-- The fields in the order in which they are declared. -/
def encode (m : Automaton) : Bytes :=
  encodeList (encodeList Arrow.encode) m.table.toList
    ++ encodeList Label.encode m.labels.toList
    ++ encodeMap Label.encode Varint.encode m.ids
    ++ encodeOption Varint.encode m.start
    ++ encodeMap Varint.encode (encodeSet encodeString) m.accepting
    ++ encodeSet encodeChar m.alphabet

def read : Reader Automaton := do
  let table ← readList (readList Arrow.read)
  let labels ← readList Label.read
  let ids ← readMap Label.read Varint.read64
  let start ← readOption Varint.read64
  let accepting ← readMap Varint.read64 (readSet readString)
  let alphabet ← readSet readChar
  return { table := table.toArray, labels := labels.toArray, ids, start, accepting, alphabet }

/-- The automaton at the front of the bytes, and the number of bytes that it takes. -/
def decode? (bytes : Bytes) : Option (Automaton × Nat) :=
  (read bytes).map fun (m, rest) => (m, bytes.length - rest.length)

end Automaton

end PositionAutomaton
