import Mathlib.Data.List.Flatten
import Mathlib.Data.List.Nodup
import Mathlib.Data.List.Perm.Subperm
import PositionAutomaton.Proofs.Binary.Collection
import PositionAutomaton.Proofs.Binary.Exactness
import PositionAutomaton.Proofs.Binary.Text

/-!
# Shortest bytes

Numbers can be read from more bytes than they need, and sets and maps in any order and with repetitions.  A reader
`Normalises` if the bytes that are written for what it gives are taken for the same value and are no longer than those
that it used.  The readers of numbers and texts do; those of lists, sets and maps do if the readers of their elements
do, because a set or a map has no more elements than there were in the bytes (`length_encodeList_le`).
-/

namespace PositionAutomaton

namespace Reader

variable {α β : Type}

/-- After a run of the reader that gave `a` and left `rest`, these bytes could have been used as well: they are taken
for `a`, and are no longer than those that were used. -/
structure Replaces (r : Reader α) (bytes : Bytes) (a : α) (rest short : Bytes) : Prop where
  takes : r.Takes short a
  length_le : short.length + rest.length ≤ bytes.length

/-- The bytes that are written for what the reader gives are as good as those that it used. -/
def Normalises (r : Reader α) (encode : α → Bytes) : Prop :=
  ∀ (bytes rest : Bytes) (a : α), r bytes = some (a, rest) → r.Replaces bytes a rest (encode a)

theorem Replaces.bind {r : Reader α} {f : α → Reader β} {bytes mid rest short more : Bytes} {a : α} {b : β}
    (h : r.Replaces bytes a mid short) (hf : (f a).Replaces mid b rest more) :
    (r >>= f).Replaces bytes b rest (short ++ more) where
  takes := h.takes.bind hf.takes
  length_le := by
    have hlength := h.length_le
    have hmore := hf.length_le
    rw [List.length_append]
    omega

/-- What is made of the value at the end uses no bytes. -/
theorem Replaces.bind_pure {r : Reader α} {bytes rest short : Bytes} {a : α} (h : r.Replaces bytes a rest short)
    (f : α → β) : (r >>= fun a => pure (f a)).Replaces bytes (f a) rest short where
  takes := h.takes.bind_nil (takes_pure _)
  length_le := h.length_le

/-! ### What was read -/

theorem byte_bind_eq_some_iff {f : UInt8 → Reader β} {bytes rest : Bytes} {b : β} :
    (byte >>= f) bytes = some (b, rest) ↔ ∃ first mid, bytes = first :: mid ∧ f first mid = some (b, rest) := by
  cases bytes with
  | nil => exact iff_of_false nofun (by simp)
  | cons first mid =>
    rw [bind_of_some rfl]
    simp

theorem take_bind_eq_some_iff {n : Nat} {f : Bytes → Reader β} {bytes rest : Bytes} {b : β} :
    (take n >>= f) bytes = some (b, rest) ↔
      ∃ taken mid, bytes = taken ++ mid ∧ taken.length = n ∧ f taken mid = some (b, rest) := by
  rw [bind_eq_some_iff]
  constructor
  · intro h
    obtain ⟨taken, mid, htake, hf⟩ := h
    rw [take] at htake
    split at htake
    · cases htake
      exact ⟨_, _, (List.take_append_drop n bytes).symm, ‹_›, hf⟩
    · cases htake
  · intro h
    obtain ⟨taken, mid, rfl, hlength, hf⟩ := h
    exact ⟨taken, mid, takes_take hlength mid, hf⟩

theorem ofOption_eq_some_iff {o : Option α} {bytes rest : Bytes} {a : α} :
    ofOption o bytes = some (a, rest) ↔ o = some a ∧ bytes = rest := by
  cases o <;> simp [ofOption]

theorem ofOption_bind_eq_some_iff {o : Option α} {f : α → Reader β} {bytes rest : Bytes} {b : β} :
    (ofOption o >>= f) bytes = some (b, rest) ↔ ∃ a, o = some a ∧ f a bytes = some (b, rest) := by
  simp [bind_eq_some_iff, ofOption_eq_some_iff]

/-- Each of the values that are read one after the other could have been read from its own bytes. -/
theorem Normalises.times {r : Reader α} {encode : α → Bytes} (hr : r.Normalises encode) {n : Nat} {bytes rest : Bytes}
    {l : List α} (h : r.times n bytes = some (l, rest)) :
    l.length = n ∧ (∀ a ∈ l, r.Takes (encode a) a) ∧ (l.flatMap encode).length + rest.length ≤ bytes.length := by
  induction n generalizing bytes l with
  | zero =>
    cases h
    exact ⟨rfl, by simp, by simp⟩
  | succ n ih =>
    obtain ⟨a, mid, ha, h⟩ := bind_eq_some_iff.1 h
    obtain ⟨as, mid', has, h⟩ := bind_eq_some_iff.1 h
    cases h
    obtain ⟨hlength, htakes, hle⟩ := ih has
    have hfirst := hr _ _ _ ha
    refine ⟨congrArg (· + 1) hlength, ?_, ?_⟩
    · intro b hb
      rcases List.mem_cons.1 hb with rfl | hb
      · exact hfirst.takes
      · exact htakes b hb
    · have := hfirst.length_le
      rw [List.flatMap_cons, List.length_append]
      omega

end Reader

open Reader

namespace Varint

theorem ofLittleEndian_lt (bytes : Bytes) : ofLittleEndian bytes < 256 ^ bytes.length := by
  induction bytes with
  | nil => decide
  | cons b bytes ih =>
    have hb := b.toNat_lt
    rw [ofLittleEndian, List.length_cons, Nat.pow_succ]
    omega

/-- A number is read from its first byte, or from as many bytes after that as the first one tells. -/
theorem cases_of_readUpTo {widest : Nat} {bytes rest : Bytes} {n : Nat} (h : readUpTo widest bytes = some (n, rest)) :
    (∃ first, bytes = first :: rest ∧ n = first.toNat ∧ n < 251) ∨
    ∃ first digits, bytes = first :: (digits ++ rest) ∧ n = ofLittleEndian digits ∧
      width? first = some digits.length ∧ digits.length ≠ 0 ∧ digits.length ≤ widest := by
  obtain ⟨first, mid, rfl, hwidth⟩ := byte_bind_eq_some_iff.1 h
  obtain ⟨width, hfirst, hnumber⟩ := ofOption_bind_eq_some_iff.1 hwidth
  split at hnumber
  · rename_i h0
    cases hnumber
    refine Or.inl ⟨first, rfl, rfl, ?_⟩
    rcases width_cases hfirst with ⟨-, hlt⟩ | hne | hne | hne
    · exact UInt8.lt_iff_toNat_lt.1 hlt
    all_goals omega
  · rename_i h0
    split at hnumber
    · obtain ⟨digits, mid', rfl, rfl, hdigits⟩ := take_bind_eq_some_iff.1 hnumber
      cases hdigits
      exact Or.inr ⟨first, digits, rfl, rfl, hfirst, h0, ‹_›⟩
    · cases hnumber

theorem lt_of_readUpTo {widest : Nat} {bytes rest : Bytes} {n : Nat} (h : readUpTo widest bytes = some (n, rest)) :
    n < 2 ^ 64 := by
  rcases cases_of_readUpTo h with ⟨first, -, -, hlt⟩ | ⟨first, digits, -, rfl, hwidth, -, -⟩
  · omega
  · refine Nat.lt_of_lt_of_le (ofLittleEndian_lt digits) ?_
    have hle : digits.length ≤ 8 := by
      rcases width_cases hwidth with ⟨h, -⟩ | h | h | h <;> omega
    exact Nat.pow_le_pow_right (by decide) hle

theorem normalises_readUpTo (widest : Nat) : (readUpTo widest).Normalises encode := by
  intro bytes rest n h
  have hn := lt_of_readUpTo h
  rcases cases_of_readUpTo h with ⟨first, rfl, -, hlt⟩ | ⟨first, digits, rfl, hdigits, hwidth, h0, hle⟩
  · have hone : (encode n).length = 1 := by rw [length_encode, if_pos hlt]
    exact ⟨takes_readUpTo hn (by omega), by rw [List.length_cons]; omega⟩
  · have hlength := length_encode_le_of_width hwidth h0 (hdigits ▸ ofLittleEndian_lt digits)
    exact ⟨takes_readUpTo hn (by omega), by rw [List.length_cons, List.length_append]; omega⟩

theorem normalises_read32 : read32.Normalises encode :=
  normalises_readUpTo 4

theorem normalises_read64 : read64.Normalises encode :=
  normalises_readUpTo 8

end Varint

namespace Binary

/-! ### Texts -/

theorem utf8_of_ofUtf8? {bytes : Bytes} {s : String} (h : ofUtf8? bytes = some s) : utf8 s = bytes := by
  rw [ofUtf8?, String.fromUTF8?] at h
  split at h <;> cases h
  rfl

theorem normalises_readChar : readChar.Normalises encodeChar := by
  intro bytes rest c h
  obtain ⟨first, mid, rfl, hwidth⟩ := byte_bind_eq_some_iff.1 h
  obtain ⟨n, -, hmore⟩ := ofOption_bind_eq_some_iff.1 hwidth
  obtain ⟨more, mid', rfl, -, hchar⟩ := take_bind_eq_some_iff.1 hmore
  obtain ⟨htext, rfl⟩ := ofOption_eq_some_iff.1 hchar
  obtain ⟨s, hs, hc⟩ := Option.bind_eq_some_iff.1 htext
  -- the bytes are those of the text whose only character this is
  have hsingle : s = String.singleton c := by
    unfold onlyChar? at hc
    split at hc <;> cases hc
    exact String.toList_injective (by simpa)
  refine ⟨takes_readChar c, ?_⟩
  rw [encodeChar, ← hsingle, utf8_of_ofUtf8? hs, List.length_cons, List.length_cons, List.length_append]
  omega

theorem normalises_readString : readString.Normalises encodeString := by
  intro bytes rest s h
  obtain ⟨n, mid, hn, hbytes⟩ := bind_eq_some_iff.1 h
  obtain ⟨text, mid', rfl, rfl, htext⟩ := take_bind_eq_some_iff.1 hbytes
  obtain ⟨hs, rfl⟩ := ofOption_eq_some_iff.1 htext
  obtain rfl := utf8_of_ofUtf8? hs
  have hlength := (Varint.normalises_read64 _ _ _ hn).length_le
  refine ⟨takes_readString (Varint.lt_of_readUpTo hn), ?_⟩
  rw [List.length_append] at hlength
  rw [encodeString, List.length_append]
  omega

/-! ### Collections -/

variable {α κ ν : Type}

/-- Fewer elements take fewer bytes, in any order. -/
theorem length_encodeList_le (encode : α → Bytes) {l l' : List α} (h : List.Subperm l l') :
    (encodeList encode l).length ≤ (encodeList encode l').length := by
  have hcount := Varint.length_encode_mono h.length_le
  obtain ⟨l₀, hperm, hsub⟩ := h
  have helements : (l.flatMap encode).length ≤ (l'.flatMap encode).length := by
    rw [← (hperm.flatMap_right encode).length_eq]
    exact (hsub.flatMap encode).length_le
  rw [encodeList, encodeList, List.length_append, List.length_append]
  omega

/-- The elements that are read could have been read each from its own bytes. -/
theorem elements_of_readList {read : Reader α} {encode : α → Bytes} (hread : read.Normalises encode)
    {bytes rest : Bytes} {l : List α} (h : readList read bytes = some (l, rest)) :
    l.length < 2 ^ 64 ∧ (∀ a ∈ l, read.Takes (encode a) a) ∧
      (encodeList encode l).length + rest.length ≤ bytes.length := by
  obtain ⟨n, mid, hn, h⟩ := bind_eq_some_iff.1 h
  obtain ⟨rfl, htakes, hle⟩ := hread.times h
  have hlength := (Varint.normalises_read64 _ _ _ hn).length_le
  refine ⟨Varint.lt_of_readUpTo hn, htakes, ?_⟩
  rw [encodeList, List.length_append]
  omega

theorem normalises_readList {read : Reader α} {encode : α → Bytes} (hread : read.Normalises encode) :
    (readList read).Normalises (encodeList encode) := by
  intro bytes rest l h
  obtain ⟨hlength, htakes, hle⟩ := elements_of_readList hread h
  exact ⟨takes_readList hlength htakes, hle⟩

theorem normalises_readPair {readKey : Reader κ} {readValue : Reader ν} {encodeKey : κ → Bytes}
    {encodeValue : ν → Bytes} (hk : readKey.Normalises encodeKey) (hv : readValue.Normalises encodeValue) :
    (readPair readKey readValue).Normalises (encodePair encodeKey encodeValue) := by
  intro bytes rest e h
  obtain ⟨k, mid, hkey, h⟩ := bind_eq_some_iff.1 h
  obtain ⟨v, mid', hvalue, h⟩ := bind_eq_some_iff.1 h
  cases h
  exact (hk _ _ _ hkey).bind ((hv _ _ _ hvalue).bind_pure _)

theorem normalises_readOption {read : Reader α} {encode : α → Bytes} (hread : read.Normalises encode) :
    (readOption read).Normalises (encodeOption encode) := by
  intro bytes rest o h
  obtain ⟨tag, mid, rfl, hvalue⟩ := byte_bind_eq_some_iff.1 h
  have htag : byte.Replaces (tag :: mid) tag mid [tag] := ⟨takes_byte tag, by simp [Nat.add_comm]⟩
  split at hvalue
  · cases hvalue
    exact htag.bind ⟨takes_pure none, Nat.le_of_eq (Nat.zero_add _)⟩
  · obtain ⟨a, mid', ha, hsome⟩ := bind_eq_some_iff.1 hvalue
    cases hsome
    exact htag.bind ((hread _ _ _ ha).bind_pure some)
  · cases hvalue

section Ordered

variable [Ord α] [Std.TransOrd α] [Std.LawfulEqOrd α] [Ord κ] [Std.TransOrd κ] [Std.LawfulEqOrd κ]

theorem normalises_readSet {read : Reader α} {encode : α → Bytes} (hread : read.Normalises encode) :
    (readSet read).Normalises (encodeSet encode) := by
  intro bytes rest s h
  obtain ⟨l, mid, hl, h⟩ := bind_eq_some_iff.1 h
  cases h
  obtain ⟨hlength, htakes, hle⟩ := elements_of_readList hread hl
  have hsub : (OrderedSet.ofList l).toList.Subperm l :=
    (OrderedSet.ofList l).nodup.subperm fun x hx => OrderedSet.mem_ofList.1 hx
  have hshort := length_encodeList_le encode hsub
  refine ⟨takes_readSet (Nat.lt_of_le_of_lt hsub.length_le hlength) fun x hx => htakes x (OrderedSet.mem_ofList.1 hx), ?_⟩
  rw [encodeSet]
  omega

theorem normalises_readMap {readKey : Reader κ} {readValue : Reader ν} {encodeKey : κ → Bytes}
    {encodeValue : ν → Bytes} (hk : readKey.Normalises encodeKey) (hv : readValue.Normalises encodeValue) :
    (readMap readKey readValue).Normalises (encodeMap encodeKey encodeValue) := by
  intro bytes rest m h
  obtain ⟨l, mid, hl, h⟩ := bind_eq_some_iff.1 h
  cases h
  obtain ⟨hlength, htakes, hle⟩ := elements_of_readList (normalises_readPair hk hv) hl
  have hsub : (OrderedMap.ofList l).toList.Subperm l :=
    (List.Nodup.of_map Prod.fst (OrderedMap.ofList l).nodup_keys).subperm fun e he => OrderedMap.mem_of_mem_ofList he
  have hshort := length_encodeList_le (encodePair encodeKey encodeValue) hsub
  refine ⟨takes_readMap_of_entries (Nat.lt_of_le_of_lt hsub.length_le hlength)
    fun e he => htakes e (OrderedMap.mem_of_mem_ofList he), ?_⟩
  rw [encodeMap]
  omega

end Ordered

end Binary

end PositionAutomaton
