import PositionAutomaton.Binary.Reader

/-!
# Numbers of varying length

A number below 251 is one byte.  A larger one is a byte that tells its width, 251 for two bytes, 252 for four and 253
for eight, and then its bytes from the lowest to the highest.  Writing takes the least width; reading takes any.  This is
the variable encoding that the bincode library documents for its standard format in version 2, assumed as it is
documented.
-/

namespace PositionAutomaton

namespace Varint

/-- The lowest `width` bytes of a number, the lowest first. -/
def littleEndian : Nat → Nat → Bytes
  | 0, _ => []
  | width + 1, n => UInt8.ofNat n :: littleEndian width (n / 256)

/-- The number with these bytes, the lowest first. -/
def ofLittleEndian : Bytes → Nat
  | [] => 0
  | b :: bytes => b.toNat + 256 * ofLittleEndian bytes

def encode (n : Nat) : Bytes :=
  if n < 251 then
    [UInt8.ofNat n]
  else if n < 65536 then
    251 :: littleEndian 2 n
  else if n < 4294967296 then
    252 :: littleEndian 4 n
  else
    253 :: littleEndian 8 n

/-- The number of bytes that follow a first byte, none for one that starts no number. -/
def width? (first : UInt8) : Option Nat :=
  if first < 251 then
    some 0
  else if first = 251 then
    some 2
  else if first = 252 then
    some 4
  else if first = 253 then
    some 8
  else
    none

/-- Reads a number of at most `widest` bytes after the first. -/
def readUpTo (widest : Nat) : Reader Nat := do
  let first ← Reader.byte
  let width ← Reader.ofOption (width? first)
  if width = 0 then
    return first.toNat
  else if width ≤ widest then
    return ofLittleEndian (← Reader.take width)
  else
    Reader.ofOption none

/-- Reads a number of 32 bits. -/
def read32 : Reader Nat :=
  readUpTo 4

/-- Reads a number of 64 bits. -/
def read64 : Reader Nat :=
  readUpTo 8

end Varint

end PositionAutomaton
