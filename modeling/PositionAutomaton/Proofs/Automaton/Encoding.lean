import PositionAutomaton.Automaton.Binary
import PositionAutomaton.Proofs.Binary.Collection
import PositionAutomaton.Proofs.Binary.Text

/-!
# Automata are read back

An automaton is read back from its bytes as it was, whatever bytes follow, and the bytes that are used are its own
(`decode?_encode`).  The fields of the automaton need not agree with each other; all that is asked is that its numbers
and lengths are below `2 ^ 64` (`Automaton.Bounded`).
-/

namespace PositionAutomaton

open Binary Reader

namespace Label

/-- The number of positions is below `2 ^ 64`. -/
def Bounded (label : Label) : Prop :=
  label.positionSet.toList.length < 2 ^ 64

instance (label : Label) : Decidable label.Bounded :=
  inferInstanceAs (Decidable (_ < _))

theorem takes_readPositionId (p : PositionId) : readPositionId.Takes (Varint.encode p.toNat) p := by
  refine (Varint.takes_read32 p.toNat_lt).bind_nil ?_
  rw [UInt32.ofNat_toNat]
  exact takes_pure p

theorem takes_read {label : Label} (h : label.Bounded) : read.Takes label.encode label := by
  cases label with
  | positions s =>
    have hs : (readSet readPositionId).Takes (encodeSet (fun p => Varint.encode p.toNat) s) s :=
      takes_readSet h fun p _ => takes_readPositionId p
    exact (Varint.takes_read32 (by decide)).bind (hs.bind_nil (takes_pure _))
  | epsilonOnly => exact (Varint.takes_read32 (by decide)).bind_nil (takes_pure _)
  | emptyLanguage => exact (Varint.takes_read32 (by decide)).bind_nil (takes_pure _)

end Label

theorem Arrow.takes_read {a : Arrow} (h : a.target < 2 ^ 64) : Arrow.read.Takes a.encode a :=
  (takes_readChar a.symbol).bind ((Varint.takes_read64 h).bind_nil (takes_pure a))

namespace Automaton

/-- All numbers and lengths of the automaton are below `2 ^ 64`. -/
structure Bounded (m : Automaton) : Prop where
  table : m.table.size < 2 ^ 64 ∧ ∀ row ∈ m.table.toList, row.length < 2 ^ 64 ∧ ∀ a ∈ row, a.target < 2 ^ 64
  labels : m.labels.size < 2 ^ 64 ∧ ∀ label ∈ m.labels.toList, label.Bounded
  ids : m.ids.toList.length < 2 ^ 64 ∧ ∀ e ∈ m.ids.toList, e.1.Bounded ∧ e.2 < 2 ^ 64
  start : ∀ state, m.start = some state → state < 2 ^ 64
  accepting : m.accepting.toList.length < 2 ^ 64 ∧ ∀ e ∈ m.accepting.toList, e.1 < 2 ^ 64 ∧
    e.2.toList.length < 2 ^ 64 ∧ ∀ name ∈ e.2.toList, (utf8 name).length < 2 ^ 64
  alphabet : m.alphabet.toList.length < 2 ^ 64

variable {m : Automaton}

namespace Bounded

theorem takes_table (h : m.Bounded) :
    (readList (readList Arrow.read)).Takes (encodeList (encodeList Arrow.encode) m.table.toList) m.table.toList := by
  obtain ⟨hsize, hrows⟩ := h.table
  refine takes_readList hsize fun row hrow => ?_
  obtain ⟨hlength, harrows⟩ := hrows row hrow
  exact takes_readList hlength fun a ha => Arrow.takes_read (harrows a ha)

theorem takes_labels (h : m.Bounded) :
    (readList Label.read).Takes (encodeList Label.encode m.labels.toList) m.labels.toList := by
  obtain ⟨hsize, hlabels⟩ := h.labels
  exact takes_readList hsize fun label hlabel => Label.takes_read (hlabels label hlabel)

theorem takes_ids (h : m.Bounded) :
    (readMap Label.read Varint.read64).Takes (encodeMap Label.encode Varint.encode m.ids) m.ids := by
  obtain ⟨hlength, hids⟩ := h.ids
  refine takes_readMap hlength fun e he => ?_
  obtain ⟨hlabel, hid⟩ := hids e he
  exact ⟨Label.takes_read hlabel, Varint.takes_read64 hid⟩

theorem takes_start (h : m.Bounded) :
    (readOption Varint.read64).Takes (encodeOption Varint.encode m.start) m.start :=
  takes_readOption fun state hstate => Varint.takes_read64 (h.start state hstate)

theorem takes_accepting (h : m.Bounded) :
    (readMap Varint.read64 (readSet readString)).Takes (encodeMap Varint.encode (encodeSet encodeString) m.accepting)
      m.accepting := by
  obtain ⟨hlength, haccepting⟩ := h.accepting
  refine takes_readMap hlength fun e he => ?_
  obtain ⟨hstate, hnames, hname⟩ := haccepting e he
  exact ⟨Varint.takes_read64 hstate, takes_readSet hnames fun name hn => takes_readString (hname name hn)⟩

theorem takes_alphabet (h : m.Bounded) : (readSet readChar).Takes (encodeSet encodeChar m.alphabet) m.alphabet :=
  takes_readSet h.alphabet fun c _ => takes_readChar c

/-- The fields are read one after the other. -/
theorem takes_read (h : m.Bounded) : Automaton.read.Takes m.encode m := by
  simp only [encode, List.append_assoc]
  refine h.takes_table.bind (h.takes_labels.bind (h.takes_ids.bind (h.takes_start.bind ?_)))
  exact h.takes_accepting.bind (h.takes_alphabet.bind_nil (takes_pure m))

end Bounded

/-- An automaton is read back from the front of any bytes that begin with its own, and no more than these are used. -/
theorem decode?_encode (h : m.Bounded) (rest : Bytes) : decode? (m.encode ++ rest) = some (m, m.encode.length) := by
  rw [decode?, h.takes_read rest]
  simp

/-- Fields that disagree with each other, and numbers and characters of all widths. -/
def disagreeing : Automaton where
  table := #[[⟨'b', 250⟩, ⟨'a', 251⟩, ⟨'b', 65536⟩], [⟨'é', 4294967296⟩]]
  labels := #[.positions (.ofList [300, 70000])]
  ids := .ofList [(.emptyLanguage, 3), (.positions {5}, 18446744073709551615)]
  start := some 7
  accepting := .ofList [(9, {"ε"}), (2, ∅)]
  alphabet := .ofList ['€', '😀', 'x']

theorem decode?_encode_disagreeing : disagreeing.Bounded ∧
    decode? (disagreeing.encode ++ [255]) = some (disagreeing, disagreeing.encode.length) := by
  have h : disagreeing.Bounded :=
    { table := by decide
      labels := by decide
      ids := by decide
      start := by simp [disagreeing]
      accepting := by decide
      alphabet := by decide }
  exact ⟨h, decode?_encode h [255]⟩

end Automaton

end PositionAutomaton
