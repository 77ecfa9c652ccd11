import PositionAutomaton.Binary.Collection
import PositionAutomaton.Binary.Text
import PositionAutomaton.Proofs.Binary.Reading

/-!
# What a reader uses

A reader is `Exact` if the bytes that it uses give its value whatever follows them, and none of their proper beginnings
is enough.  Readers one after the other are exact if each of them is (`Exact.bind`), so the readers of numbers, texts
and collections are.
-/

namespace PositionAutomaton

namespace Reader

variable {α β : Type}

theorem bind_eq_some_iff {r : Reader α} {f : α → Reader β} {bytes rest : Bytes} {b : β} :
    (r >>= f) bytes = some (b, rest) ↔ ∃ a mid, r bytes = some (a, mid) ∧ f a mid = some (b, rest) := by
  show (r bytes).bind _ = _ ↔ _
  rw [Option.bind_eq_some_iff]
  exact Prod.exists

theorem bind_of_none {r : Reader α} {bytes : Bytes} (h : r bytes = none) (f : α → Reader β) :
    (r >>= f) bytes = none := by
  show (r bytes).bind _ = none
  rw [h]
  rfl

theorem bind_of_some {r : Reader α} {bytes mid : Bytes} {a : α} (h : r bytes = some (a, mid)) (f : α → Reader β) :
    (r >>= f) bytes = f a mid := by
  show (r bytes).bind _ = _
  rw [h]
  rfl

/-- Whenever the reader gives a value, it has used some bytes at the front: they give that value whatever follows
them, and without the last of them there is no value. -/
def Exact (r : Reader α) : Prop :=
  ∀ (bytes rest : Bytes) (a : α), r bytes = some (a, rest) →
    ∃ used, bytes = used ++ rest ∧ r.Takes used a ∧ ∀ p, p <+: used → p ≠ used → r p = none

theorem exact_pure (a : α) : (pure a : Reader α).Exact := by
  intro bytes rest b h
  cases h
  exact ⟨[], rfl, takes_pure a, fun p hp hne => absurd (List.prefix_nil.1 hp) hne⟩

theorem exact_ofOption (o : Option α) : (ofOption o).Exact := by
  intro bytes rest a h
  obtain ⟨a', ha, heq⟩ := Option.map_eq_some_iff.1 h
  cases heq
  exact ⟨[], rfl, takes_ofOption ha, fun p hp hne => absurd (List.prefix_nil.1 hp) hne⟩

theorem exact_byte : byte.Exact := by
  intro bytes rest b h
  cases bytes with
  | nil => cases h
  | cons b' bytes =>
    cases h
    refine ⟨[b], rfl, takes_byte b, fun p hp hne => ?_⟩
    cases p with
    | nil => rfl
    | cons c p =>
      obtain ⟨rfl, hnil⟩ := List.cons_prefix_cons.1 hp
      exact absurd (congrArg (c :: ·) (List.prefix_nil.1 hnil)) hne

theorem exact_take (n : Nat) : (take n).Exact := by
  intro bytes rest taken h
  rw [take] at h
  split at h
  · rename_i hlength
    cases h
    refine ⟨bytes.take n, (List.take_append_drop n bytes).symm, takes_take hlength, fun p hp hne => ?_⟩
    -- a proper beginning is too short
    have hlt : p.length < n := by
      rw [← hlength]
      exact Nat.lt_of_le_of_ne hp.length_le fun he => hne (hp.eq_of_length he)
    rw [take, if_neg]
    rw [List.length_take]
    omega
  · cases h

/-- A proper beginning of what both readers use is a proper beginning of what the first one uses, or all of that and a
proper beginning of what the second one uses. -/
theorem Exact.bind {r : Reader α} {f : α → Reader β} (hr : r.Exact) (hf : ∀ a, (f a).Exact) : (r >>= f).Exact := by
  intro bytes rest b h
  obtain ⟨a, mid, hra, hfb⟩ := bind_eq_some_iff.1 h
  obtain ⟨first, rfl, htakes, hfirst⟩ := hr _ _ _ hra
  obtain ⟨second, rfl, htakes', hsecond⟩ := hf a _ _ _ hfb
  refine ⟨first ++ second, (List.append_assoc ..).symm, htakes.bind htakes', fun p hp hne => ?_⟩
  by_cases hfp : first <+: p
  · obtain ⟨q, rfl⟩ := hfp
    rw [bind_of_some (htakes q)]
    exact hsecond q ((List.prefix_append_right_inj first).1 hp) fun he => hne (he ▸ rfl)
  · have hpf : p <+: first :=
      (List.prefix_or_prefix_of_prefix hp (List.prefix_append first second)).resolve_right hfp
    exact bind_of_none (hfirst p hpf fun he => hfp (he ▸ List.prefix_refl p)) f

theorem Exact.times {r : Reader α} (hr : r.Exact) (n : Nat) : (r.times n).Exact := by
  induction n with
  | zero => exact exact_pure []
  | succ n ih => exact hr.bind fun a => ih.bind fun as => exact_pure (a :: as)

end Reader

open Reader

theorem Varint.exact_readUpTo (widest : Nat) : (readUpTo widest).Exact := by
  refine exact_byte.bind fun first => (exact_ofOption _).bind fun width => ?_
  split
  · exact exact_pure _
  · split
    · exact (exact_take width).bind fun bytes => exact_pure _
    · exact exact_ofOption none

theorem Varint.exact_read32 : read32.Exact :=
  exact_readUpTo 4

theorem Varint.exact_read64 : read64.Exact :=
  exact_readUpTo 8

namespace Binary

theorem exact_readChar : readChar.Exact :=
  exact_byte.bind fun _ => (exact_ofOption _).bind fun n => (exact_take n).bind fun _ => exact_ofOption _

theorem exact_readString : readString.Exact :=
  Varint.exact_read64.bind fun n => (exact_take n).bind fun _ => exact_ofOption _

variable {α κ ν : Type}

theorem exact_readList {read : Reader α} (h : read.Exact) : (readList read).Exact :=
  Varint.exact_read64.bind fun n => h.times n

theorem exact_readPair {readKey : Reader κ} {readValue : Reader ν} (hk : readKey.Exact) (hv : readValue.Exact) :
    (readPair readKey readValue).Exact :=
  hk.bind fun _ => hv.bind fun _ => exact_pure _

theorem exact_readOption {read : Reader α} (h : read.Exact) : (readOption read).Exact := by
  refine exact_byte.bind fun tag => ?_
  split
  · exact exact_pure none
  · exact h.bind fun a => exact_pure (some a)
  · exact exact_ofOption none

section Ordered

variable [Ord α] [Std.TransOrd α] [Std.LawfulEqOrd α] [Ord κ] [Std.TransOrd κ] [Std.LawfulEqOrd κ]

theorem exact_readSet {read : Reader α} (h : read.Exact) : (readSet read).Exact :=
  (exact_readList h).bind fun _ => exact_pure _

theorem exact_readMap {readKey : Reader κ} {readValue : Reader ν} (hk : readKey.Exact) (hv : readValue.Exact) :
    (readMap readKey readValue).Exact :=
  (exact_readList (exact_readPair hk hv)).bind fun _ => exact_pure _

end Ordered

end Binary

end PositionAutomaton
