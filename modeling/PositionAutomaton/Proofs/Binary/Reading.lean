import Mathlib.Algebra.Group.Nat.Defs
import Mathlib.Tactic.SplitIfs
import PositionAutomaton.Binary.Varint

/-!
# Values at the front of the bytes

`Reader.Takes` says that some bytes are the value for a reader, whatever follows them.  Readers one after the other take
what each of them takes (`Reader.Takes.bind`), so the layout of a record is read field by field.  A number is taken from
the bytes that it is written in (`Varint.takes_read32`, `Varint.takes_read64`).
-/

namespace PositionAutomaton

namespace Reader

variable {α β : Type}

/-- Whatever follows the bytes, the reader takes them off and gives the value. -/
def Takes (r : Reader α) (bytes : Bytes) (a : α) : Prop :=
  ∀ rest, r (bytes ++ rest) = some (a, rest)

theorem takes_pure (a : α) : Takes (pure a) [] a :=
  fun _ => rfl

theorem Takes.bind {r : Reader α} {f : α → Reader β} {bytes more : Bytes} {a : α} {b : β} (h : r.Takes bytes a)
    (hf : (f a).Takes more b) : (r >>= f).Takes (bytes ++ more) b := by
  intro rest
  show (r (bytes ++ more ++ rest)).bind _ = _
  rw [List.append_assoc, h]
  exact hf rest

/-- The value that is read last decides, and takes nothing itself. -/
theorem Takes.bind_nil {r : Reader α} {f : α → Reader β} {bytes : Bytes} {a : α} {b : β} (h : r.Takes bytes a)
    (hf : (f a).Takes [] b) : (r >>= f).Takes bytes b := by
  simpa using h.bind hf

theorem takes_ofOption {a : Option α} {b : α} (h : a = some b) : (ofOption a).Takes [] b := by
  intro rest
  rw [h]
  rfl

theorem takes_byte (b : UInt8) : byte.Takes [b] b :=
  fun _ => rfl

theorem takes_take {n : Nat} {bytes : Bytes} (h : bytes.length = n) : (take n).Takes bytes bytes := by
  intro rest
  subst h
  simp [take]

/-- A reader that is repeated takes the values one after the other. -/
theorem takes_times {r : Reader α} {encode : α → Bytes} {l : List α} (h : ∀ a ∈ l, r.Takes (encode a) a) :
    (r.times l.length).Takes (l.flatMap encode) l := by
  induction l with
  | nil => exact takes_pure []
  | cons a l ih =>
    have hrest := ih fun b hb => h b (List.mem_cons_of_mem a hb)
    rw [List.flatMap_cons]
    exact (h a List.mem_cons_self).bind (hrest.bind_nil (takes_pure _))

end Reader

namespace Varint

open Reader

/-! ### Numbers of a given width -/

@[simp]
theorem length_littleEndian (width n : Nat) : (littleEndian width n).length = width := by
  induction width generalizing n with
  | zero => rfl
  | succ width ih => rw [littleEndian, List.length_cons, ih]

theorem ofLittleEndian_littleEndian {width n : Nat} (h : n < 256 ^ width) :
    ofLittleEndian (littleEndian width n) = n := by
  induction width generalizing n with
  | zero => exact (Nat.lt_one_iff.1 h).symm
  | succ width ih =>
    have hrest : n / 256 < 256 ^ width := by
      rw [Nat.div_lt_iff_lt_mul (by decide)]
      exact h
    rw [littleEndian, ofLittleEndian, ih hrest, UInt8.toNat_ofNat']
    omega

/-- After a first byte that tells the width, the bytes of the number. -/
theorem takes_readUpTo_of_width {first : UInt8} {width widest n : Nat} (hfirst : width? first = some width)
    (h0 : width ≠ 0) (hwidth : width ≤ widest) (hn : n < 256 ^ width) :
    (readUpTo widest).Takes (first :: littleEndian width n) n := by
  refine (takes_byte first).bind ((takes_ofOption hfirst).bind ?_)
  rw [if_neg h0, if_pos hwidth]
  refine (takes_take (length_littleEndian width n)).bind_nil ?_
  rw [ofLittleEndian_littleEndian hn]
  exact takes_pure n

/-! ### Numbers of any width -/

/-- A number that does not fit the first byte is written in the least width that it fits, which the first byte tells. -/
theorem exists_encode_eq {n : Nat} (h : 251 ≤ n) (hn : n < 2 ^ 64) : ∃ first width,
    encode n = first :: littleEndian width n ∧ width? first = some width ∧ width ≠ 0 ∧ n < 256 ^ width := by
  unfold encode
  rw [if_neg (by omega)]
  split
  · exact ⟨251, 2, rfl, rfl, by decide, by assumption⟩
  · split
    · exact ⟨252, 4, rfl, rfl, by decide, by assumption⟩
    · exact ⟨253, 8, rfl, rfl, by decide, hn⟩

theorem length_encode (n : Nat) : (encode n).length =
    if n < 251 then 1 else if n < 65536 then 3 else if n < 4294967296 then 5 else 9 := by
  simp only [encode, apply_ite List.length, List.length_cons, List.length_nil, length_littleEndian]

theorem length_encode_le (n : Nat) : (encode n).length ≤ 9 := by
  rw [length_encode]
  split_ifs <;> omega

theorem length_encode_le_of_lt {n : Nat} (h : n < 2 ^ 32) : (encode n).length ≤ 5 := by
  rw [length_encode]
  split_ifs <;> omega

theorem length_encode_mono {m n : Nat} (h : m ≤ n) : (encode m).length ≤ (encode n).length := by
  rw [length_encode, length_encode]
  split_ifs <;> omega

theorem width_cases {first : UInt8} {width : Nat} (h : width? first = some width) :
    width = 0 ∧ first < 251 ∨ width = 2 ∨ width = 4 ∨ width = 8 := by
  unfold width? at h
  split_ifs at h <;> cases h <;> simp [*]

/-- Of the widths that a number fits, it is written in the least. -/
theorem length_encode_le_of_width {first : UInt8} {width n : Nat} (hfirst : width? first = some width)
    (h0 : width ≠ 0) (hn : n < 256 ^ width) : (encode n).length ≤ width + 1 := by
  rw [length_encode]
  rcases width_cases hfirst with ⟨hzero, -⟩ | rfl | rfl | rfl
  · exact absurd hzero h0
  · split_ifs <;> omega
  · split_ifs <;> omega
  · split_ifs <;> omega

/-- A number is taken from its bytes if the width that it is written in is allowed. -/
theorem takes_readUpTo {widest n : Nat} (hn : n < 2 ^ 64) (hwidest : (encode n).length ≤ widest + 1) :
    (readUpTo widest).Takes (encode n) n := by
  by_cases hsmall : n < 251
  · have hfirst : (UInt8.ofNat n).toNat = n := by
      rw [UInt8.toNat_ofNat']
      omega
    have hwidth : width? (UInt8.ofNat n) = some 0 := by
      refine if_pos ?_
      rw [UInt8.lt_iff_toNat_lt, hfirst]
      exact hsmall
    rw [encode, if_pos hsmall]
    refine (takes_byte _).bind_nil ((takes_ofOption hwidth).bind_nil ?_)
    rw [if_pos rfl, hfirst]
    exact takes_pure n
  · obtain ⟨first, width, he, hwidth, h0, hlt⟩ := exists_encode_eq (by omega) hn
    rw [he, List.length_cons, length_littleEndian] at hwidest
    rw [he]
    exact takes_readUpTo_of_width hwidth h0 (by omega) hlt

theorem takes_read32 {n : Nat} (h : n < 2 ^ 32) : read32.Takes (encode n) n :=
  takes_readUpTo (by omega) (length_encode_le_of_lt h)

theorem takes_read64 {n : Nat} (h : n < 2 ^ 64) : read64.Takes (encode n) n :=
  takes_readUpTo h (length_encode_le n)

end Varint

end PositionAutomaton
