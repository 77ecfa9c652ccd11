import PositionAutomaton.Binary.Varint
import PositionAutomaton.OrderedMap

/-!
# Collections as bytes

Lists, sets and maps are their number of elements and then the elements, those of sets and maps in ascending order.
They are read in any order: a repeated element counts once, and the last value of a repeated key stays.  An optional
value is a byte, 0 or 1, and then the value if there is one.  All of this is assumed of the standard format of the bincode
library in version 2, as it is documented.
-/

namespace PositionAutomaton

namespace Binary

variable {α κ ν : Type} [Ord α] [Ord κ]

def encodeList {β : Type} (encode : β → Bytes) (l : List β) : Bytes :=
  Varint.encode l.length ++ l.flatMap encode

def readList {β : Type} (read : Reader β) : Reader (List β) := do
  let n ← Varint.read64
  read.times n

def encodePair (encodeKey : κ → Bytes) (encodeValue : ν → Bytes) (e : κ × ν) : Bytes :=
  encodeKey e.1 ++ encodeValue e.2

def readPair (readKey : Reader κ) (readValue : Reader ν) : Reader (κ × ν) := do
  let k ← readKey
  let v ← readValue
  return (k, v)

def encodeSet (encode : α → Bytes) (s : OrderedSet α) : Bytes :=
  encodeList encode s.toList

def readSet [Std.TransOrd α] [Std.LawfulEqOrd α] (read : Reader α) : Reader (OrderedSet α) := do
  return .ofList (← readList read)

def encodeMap (encodeKey : κ → Bytes) (encodeValue : ν → Bytes) (m : OrderedMap κ ν) : Bytes :=
  encodeList (encodePair encodeKey encodeValue) m.toList

def readMap [Std.TransOrd κ] [Std.LawfulEqOrd κ] (readKey : Reader κ) (readValue : Reader ν) :
    Reader (OrderedMap κ ν) := do
  return .ofList (← readList (readPair readKey readValue))

def encodeOption {β : Type} (encode : β → Bytes) : Option β → Bytes
  | none => [0]
  | some b => 1 :: encode b

def readOption {β : Type} (read : Reader β) : Reader (Option β) := do
  match ← Reader.byte with
  | 0 => return none
  | 1 => return some (← read)
  | _ => Reader.ofOption none

end Binary

end PositionAutomaton
