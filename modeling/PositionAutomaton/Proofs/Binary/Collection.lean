import PositionAutomaton.Binary.Collection
import PositionAutomaton.Proofs.Binary.Reading

/-!
# Collections are read back

If a reader takes each element from its bytes, then lists, sets, maps and optional values of these elements are taken
from theirs (`takes_readList`, `takes_readSet`, `takes_readMap`, `takes_readOption`).  The only condition of their own is
that the number of elements is below `2 ^ 64`.
-/

namespace PositionAutomaton

namespace Binary

open Reader

variable {α κ ν : Type}

theorem takes_readList {read : Reader α} {encode : α → Bytes} {l : List α} (hlength : l.length < 2 ^ 64)
    (h : ∀ a ∈ l, read.Takes (encode a) a) : (readList read).Takes (encodeList encode l) l :=
  (Varint.takes_read64 hlength).bind (takes_times h)

theorem takes_readPair {readKey : Reader κ} {readValue : Reader ν} {encodeKey : κ → Bytes} {encodeValue : ν → Bytes}
    {e : κ × ν} (hk : readKey.Takes (encodeKey e.1) e.1) (hv : readValue.Takes (encodeValue e.2) e.2) :
    (readPair readKey readValue).Takes (encodePair encodeKey encodeValue e) e :=
  hk.bind (hv.bind_nil (takes_pure e))

theorem takes_readOption {read : Reader α} {encode : α → Bytes} {o : Option α}
    (h : ∀ a, o = some a → read.Takes (encode a) a) : (readOption read).Takes (encodeOption encode o) o := by
  cases o with
  | none => exact (takes_byte 0).bind_nil (takes_pure none)
  | some a => exact (takes_byte 1).bind ((h a rfl).bind_nil (takes_pure (some a)))

section Ordered

variable [Ord α] [Std.TransOrd α] [Std.LawfulEqOrd α] [Ord κ] [Std.TransOrd κ] [Std.LawfulEqOrd κ]

/-- The elements are read in the order of the set, and together they are the set again. -/
theorem takes_readSet {read : Reader α} {encode : α → Bytes} {s : OrderedSet α} (hlength : s.toList.length < 2 ^ 64)
    (h : ∀ a ∈ s, read.Takes (encode a) a) : (readSet read).Takes (encodeSet encode s) s := by
  refine (takes_readList hlength h).bind_nil ?_
  rw [OrderedSet.ofList_toList]
  exact takes_pure s

/-- The entries are read in the order of the keys, and together they are the map again. -/
theorem takes_readMap_of_entries {readKey : Reader κ} {readValue : Reader ν} {encodeKey : κ → Bytes}
    {encodeValue : ν → Bytes} {m : OrderedMap κ ν} (hlength : m.toList.length < 2 ^ 64)
    (h : ∀ e ∈ m.toList, (readPair readKey readValue).Takes (encodePair encodeKey encodeValue e) e) :
    (readMap readKey readValue).Takes (encodeMap encodeKey encodeValue m) m := by
  refine (takes_readList hlength h).bind_nil ?_
  rw [OrderedMap.ofList_toList]
  exact takes_pure m

theorem takes_readMap {readKey : Reader κ} {readValue : Reader ν} {encodeKey : κ → Bytes} {encodeValue : ν → Bytes}
    {m : OrderedMap κ ν} (hlength : m.toList.length < 2 ^ 64)
    (h : ∀ e ∈ m.toList, readKey.Takes (encodeKey e.1) e.1 ∧ readValue.Takes (encodeValue e.2) e.2) :
    (readMap readKey readValue).Takes (encodeMap encodeKey encodeValue m) m :=
  takes_readMap_of_entries hlength fun e he => takes_readPair (h e he).1 (h e he).2

end Ordered

end Binary

end PositionAutomaton
