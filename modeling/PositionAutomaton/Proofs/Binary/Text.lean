import PositionAutomaton.Binary.Text
import PositionAutomaton.Proofs.Binary.Reading

/-!
# Characters and strings are read back

The first byte of a character tells how many follow (`exists_encodeChar_eq`), so a character is taken from its bytes
without a length, and a string from its length and its bytes (`takes_readChar`, `takes_readString`).
-/

namespace PositionAutomaton

namespace Binary

open Reader

theorem ofUtf8?_utf8 (s : String) : ofUtf8? (utf8 s) = some s := by
  have hbytes : (⟨(utf8 s).toArray⟩ : ByteArray) = s.toByteArray := rfl
  rw [ofUtf8?, hbytes, String.fromUTF8?, dif_pos s.isValidUTF8]
  rfl

theorem encodeChar_eq (c : Char) : encodeChar c = String.utf8EncodeChar c := by
  rw [encodeChar, utf8, String.toByteArray_singleton, List.utf8Encode_singleton, List.data_toByteArray]

/-- The ranges of first bytes, as numbers. -/
private theorem continuation?_ofNat {n : Nat} (h : n < 256) : continuation? (.ofNat n) =
    if n < 128 then some 0 else if n < 194 then none else if n < 224 then some 1
      else if n < 240 then some 2 else if n < 245 then some 3 else none := by
  have hn : (UInt8.ofNat n).toNat = n := by
    rw [UInt8.toNat_ofNat']
    omega
  simp only [continuation?, UInt8.lt_iff_toNat_lt, hn]
  rfl

/-- The first byte of a character tells how many bytes follow it. -/
theorem exists_encodeChar_eq (c : Char) :
    ∃ first more, encodeChar c = first :: more ∧ continuation? first = some more.length := by
  rw [encodeChar_eq, String.utf8EncodeChar]
  generalize hv : c.val.toNat = v
  have hlt : v < 0x110000 := by
    have hvalid : v < 0xd800 ∨ 0xdfff < v ∧ v < 0x110000 := hv ▸ c.valid
    omega
  split
  · refine ⟨_, _, rfl, ?_⟩
    rw [continuation?_ofNat (by omega), if_pos (by omega)]
    rfl
  · split
    · refine ⟨_, _, rfl, ?_⟩
      rw [continuation?_ofNat (by omega), if_neg (by omega), if_neg (by omega), if_pos (by omega)]
      rfl
    · split
      · refine ⟨_, _, rfl, ?_⟩
        rw [continuation?_ofNat (by omega), if_neg (by omega), if_neg (by omega), if_neg (by omega), if_pos (by omega)]
        rfl
      · refine ⟨_, _, rfl, ?_⟩
        rw [continuation?_ofNat (by omega), if_neg (by omega), if_neg (by omega), if_neg (by omega), if_neg (by omega),
          if_pos (by omega)]
        rfl

/-- A character is taken from its bytes. -/
theorem takes_readChar (c : Char) : readChar.Takes (encodeChar c) c := by
  obtain ⟨first, more, he, hmore⟩ := exists_encodeChar_eq c
  have hchar : (ofUtf8? (first :: more)).bind onlyChar? = some c := by
    rw [← he, encodeChar, ofUtf8?_utf8]
    simp [onlyChar?]
  rw [he]
  refine (takes_byte first).bind ((takes_ofOption hmore).bind ?_)
  exact (takes_take rfl).bind_nil (takes_ofOption hchar)

/-- A string is taken from the number of its bytes and the bytes. -/
theorem takes_readString {s : String} (h : (utf8 s).length < 2 ^ 64) : readString.Takes (encodeString s) s := by
  refine (Varint.takes_read64 h).bind ?_
  exact (takes_take rfl).bind_nil (takes_ofOption (ofUtf8?_utf8 s))

end Binary

end PositionAutomaton
