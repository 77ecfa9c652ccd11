import PositionAutomaton.Proofs.Automaton.Encoding
import PositionAutomaton.Proofs.Automaton.Listing
import PositionAutomaton.Proofs.Binary.Shortest

/-!
# Decoding any bytes

Whenever bytes are decoded, the bytes that are used are exactly what is needed (`Automaton.exact_read`), and writing the
automaton again gives bytes that are no longer and are read back as the same automaton (`Automaton.normalises_read`).
So the bytes that an automaton is written in are as short as any that it is decoded from.
-/

namespace PositionAutomaton

open Binary Reader

namespace Label

theorem exact_readPositionId : readPositionId.Exact :=
  Varint.exact_read32.bind fun _ => exact_pure _

theorem exact_read : read.Exact := by
  refine Varint.exact_read32.bind fun kind => ?_
  split
  · exact (exact_readSet exact_readPositionId).bind fun s => exact_pure (positions s)
  · exact exact_pure epsilonOnly
  · exact exact_pure emptyLanguage
  · exact exact_ofOption none

theorem normalises_readPositionId : readPositionId.Normalises fun p => Varint.encode p.toNat := by
  intro bytes rest p h
  obtain ⟨n, mid, hn, h⟩ := bind_eq_some_iff.1 h
  cases h
  have hnumber : (UInt32.ofNat n).toNat ≤ n := by
    rw [UInt32.toNat_ofNat']
    exact Nat.mod_le n _
  have hshort := Varint.length_encode_mono hnumber
  have hlength := (Varint.normalises_read32 _ _ _ hn).length_le
  exact ⟨takes_readPositionId _, Nat.le_trans (Nat.add_le_add_right hshort _) hlength⟩

theorem normalises_read : read.Normalises encode := by
  intro bytes rest label h
  obtain ⟨kind, mid, hnumber, h⟩ := bind_eq_some_iff.1 h
  have hkind := Varint.normalises_read32 _ _ _ hnumber
  split at h
  · obtain ⟨s, mid', hs, h⟩ := bind_eq_some_iff.1 h
    cases h
    exact hkind.bind ((normalises_readSet normalises_readPositionId _ _ _ hs).bind_pure _)
  · cases h
    exact ⟨hkind.takes.bind_nil (takes_pure epsilonOnly), hkind.length_le⟩
  · cases h
    exact ⟨hkind.takes.bind_nil (takes_pure emptyLanguage), hkind.length_le⟩
  · cases h

end Label

namespace Arrow

theorem exact_read : read.Exact :=
  exact_readChar.bind fun _ => Varint.exact_read64.bind fun _ => exact_pure _

theorem normalises_read : read.Normalises encode := by
  intro bytes rest a h
  obtain ⟨c, mid, hc, h⟩ := bind_eq_some_iff.1 h
  obtain ⟨target, mid', htarget, h⟩ := bind_eq_some_iff.1 h
  cases h
  exact (normalises_readChar _ _ _ hc).bind ((Varint.normalises_read64 _ _ _ htarget).bind_pure _)

end Arrow

namespace Automaton

theorem exact_read : read.Exact := by
  refine (exact_readList (exact_readList Arrow.exact_read)).bind fun table => ?_
  refine (exact_readList Label.exact_read).bind fun labels => ?_
  refine (exact_readMap Label.exact_read Varint.exact_read64).bind fun ids => ?_
  refine (exact_readOption Varint.exact_read64).bind fun start => ?_
  refine (exact_readMap Varint.exact_read64 (exact_readSet exact_readString)).bind fun accepting => ?_
  exact (exact_readSet exact_readChar).bind fun alphabet => exact_pure _

/-- The fields are normalised one after the other. -/
theorem normalises_read : read.Normalises encode := by
  intro bytes rest m h
  obtain ⟨table, bytes₁, htable, h⟩ := bind_eq_some_iff.1 h
  obtain ⟨labels, bytes₂, hlabels, h⟩ := bind_eq_some_iff.1 h
  obtain ⟨ids, bytes₃, hids, h⟩ := bind_eq_some_iff.1 h
  obtain ⟨start, bytes₄, hstart, h⟩ := bind_eq_some_iff.1 h
  obtain ⟨accepting, bytes₅, haccepting, h⟩ := bind_eq_some_iff.1 h
  obtain ⟨alphabet, bytes₆, halphabet, h⟩ := bind_eq_some_iff.1 h
  cases h
  simp only [encode, List.append_assoc]
  refine (normalises_readList (normalises_readList Arrow.normalises_read) _ _ _ htable).bind ?_
  refine (normalises_readList Label.normalises_read _ _ _ hlabels).bind ?_
  refine (normalises_readMap Label.normalises_read Varint.normalises_read64 _ _ _ hids).bind ?_
  refine (normalises_readOption Varint.normalises_read64 _ _ _ hstart).bind ?_
  refine (normalises_readMap Varint.normalises_read64 (normalises_readSet normalises_readString) _ _ _ haccepting).bind ?_
  exact (normalises_readSet normalises_readChar _ _ _ halphabet).bind_pure _

variable {bytes : Bytes} {m : Automaton} {n : Nat}

theorem read_of_decode? (h : decode? bytes = some (m, n)) : read bytes = some (m, bytes.drop n) ∧ n ≤ bytes.length := by
  obtain ⟨⟨m', rest⟩, hread, heq⟩ := Option.map_eq_some_iff.1 h
  cases heq
  obtain ⟨used, rfl, -, -⟩ := exact_read _ _ _ hread
  refine ⟨?_, Nat.sub_le _ _⟩
  rw [hread]
  simp

theorem decode?_eq_none_iff : decode? bytes = none ↔ read bytes = none :=
  Option.map_eq_none_iff

theorem decode?_append_of_takes (h : read.Takes bytes m) (rest : Bytes) :
    decode? (bytes ++ rest) = some (m, bytes.length) := by
  rw [decode?, h rest]
  simp

/-- The bytes that are used are taken for the automaton, and no proper beginning of them is enough. -/
theorem exact_of_decode? (h : decode? bytes = some (m, n)) :
    read.Takes (bytes.take n) m ∧ ∀ k < n, read (bytes.take k) = none := by
  obtain ⟨hread, hle⟩ := read_of_decode? h
  obtain ⟨used, hbytes, htakes, hproper⟩ := exact_read _ _ _ hread
  obtain rfl : bytes.take n = used := List.append_cancel_right ((List.take_append_drop n bytes).trans hbytes)
  refine ⟨htakes, fun k hk => hproper _ (List.take_prefix_take_left (Nat.le_of_lt hk)) fun he => ?_⟩
  have hlength := congrArg List.length he
  rw [List.length_take, List.length_take] at hlength
  omega

/-- The bytes of the automaton that was decoded are as good as those that were used. -/
theorem replaces_of_decode? (h : decode? bytes = some (m, n)) :
    read.Takes m.encode m ∧ m.encode.length ≤ n := by
  obtain ⟨hread, hle⟩ := read_of_decode? h
  have hshort := normalises_read _ _ _ hread
  have hlength := hshort.length_le
  rw [List.length_drop] at hlength
  exact ⟨hshort.takes, by omega⟩

/-- The automaton is the listing that stands in the bytes, with its lists collapsed. -/
theorem exists_listing_of_decode? (h : decode? bytes = some (m, n)) :
    ∃ l, Listing.read bytes = some (l, bytes.drop n) ∧ l.Collapses m := by
  have hread := (read_of_decode? h).1
  rw [read_eq] at hread
  obtain ⟨l, hl, rfl⟩ := map_eq_some_iff.1 hread
  exact ⟨l, hl, l.collapses_automaton⟩

/-- Decoding depends on the bytes that it uses and on all of them, and gives what stands in them with its lists
collapsed.  Writing that gives bytes that are read back, and there are no shorter ones. -/
theorem decode?_exact_shortest (h : decode? bytes = some (m, n)) :
    n ≤ bytes.length ∧
    (∀ rest, decode? (bytes.take n ++ rest) = some (m, n)) ∧
    (∀ k < n, decode? (bytes.take k) = none) ∧
    (∃ l, Listing.read bytes = some (l, bytes.drop n) ∧ l.Collapses m) ∧
    m.encode.length ≤ n ∧
    (∀ rest, decode? (m.encode ++ rest) = some (m, m.encode.length)) ∧
    ∀ other used, decode? other = some (m, used) → m.encode.length ≤ used ∧ used ≤ other.length := by
  have hle := (read_of_decode? h).2
  obtain ⟨htakes, hproper⟩ := exact_of_decode? h
  obtain ⟨hencode, hlength⟩ := replaces_of_decode? h
  refine ⟨hle, fun rest => ?_, fun k hk => decode?_eq_none_iff.2 (hproper k hk), exists_listing_of_decode? h, hlength,
    decode?_append_of_takes hencode, fun other used hother => ?_⟩
  · rw [decode?_append_of_takes htakes rest, List.length_take_of_le hle]
  · exact ⟨(replaces_of_decode? hother).2, (read_of_decode? hother).2⟩

/-- A number that has more bytes than it needs, the set of 5, 3 and again 5, two values of one key, the names and the
alphabet out of order, and a byte that is not used. -/
def repetitive : Bytes :=
  [251, 0, 0, 1, 0, 3, 5, 3, 5, 2, 1, 7, 1, 8, 0, 1, 4, 2, 1, 98, 1, 97, 2, 98, 97, 255]

/-- What is decoded from these bytes. -/
def collapsed : Automaton where
  table := #[]
  labels := #[.positions (.ofList [3, 5])]
  ids := .ofList [(.epsilonOnly, 8)]
  start := none
  accepting := .ofList [(4, .ofList ["a", "b"])]
  alphabet := .ofList ['a', 'b']

theorem decode?_exact_shortest_repetitive : decode? repetitive = some (collapsed, 25) ∧
    (∀ k < 25, decode? (repetitive.take k) = none) ∧ collapsed.encode.length ≤ 25 ∧
    decode? (collapsed.encode ++ [255]) = some (collapsed, collapsed.encode.length) := by
  have h : decode? repetitive = some (collapsed, 25) := by rfl
  obtain ⟨-, -, hproper, -, hlength, hagain, -⟩ := decode?_exact_shortest h
  exact ⟨h, hproper, hlength, hagain [255]⟩

end Automaton

end PositionAutomaton
