import PositionAutomaton.Binary.Varint

/-!
# Characters and strings as bytes

A character is its bytes in UTF-8, as many as the first of them says.  A string is the number of its bytes and then
the bytes.  Both are as the bincode library documents them for its standard format in version 2.
-/

namespace PositionAutomaton

namespace Binary

/-- The text with these bytes, if they are valid UTF-8. -/
def ofUtf8? (bytes : Bytes) : Option String :=
  String.fromUTF8? ⟨bytes.toArray⟩

def utf8 (s : String) : Bytes :=
  s.toByteArray.data.toList

def encodeChar (c : Char) : Bytes :=
  utf8 (String.singleton c)

/-- The number of bytes that follow the first byte of a character, none if no character starts with it. -/
def continuation? (first : UInt8) : Option Nat :=
  if first < 0x80 then
    some 0
  else if first < 0xC2 then
    none
  else if first < 0xE0 then
    some 1
  else if first < 0xF0 then
    some 2
  else if first < 0xF5 then
    some 3
  else
    none

/-- The only character of a text. -/
def onlyChar? (s : String) : Option Char :=
  match s.toList with
  | [c] => some c
  | _ => none

def readChar : Reader Char := do
  let first ← Reader.byte
  let n ← Reader.ofOption (continuation? first)
  let more ← Reader.take n
  Reader.ofOption ((ofUtf8? (first :: more)).bind onlyChar?)

def encodeString (s : String) : Bytes :=
  let bytes := utf8 s
  Varint.encode bytes.length ++ bytes

def readString : Reader String := do
  let n ← Varint.read64
  let bytes ← Reader.take n
  Reader.ofOption (ofUtf8? bytes)

end Binary

end PositionAutomaton
