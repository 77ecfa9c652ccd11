import PositionAutomaton.Proofs.PatternTree.Relinking
import PositionAutomaton.Proofs.PatternTree.Renumbering

/-!
# Arenas put behind each other

The positions of an arena may come behind those of another one (`Arena.followedBy`): their numbers, and those of the
positions that may follow them, are then moved on by the size of the first arena (`Arena.shift`).  Below `2 ^ 32`
positions in all, the numbers up to that size still lead to the first arena, and the moved ones to the second
(`get?_followedBy_of_le`, `get?_followedBy_shift`).  So followers that are added to the second arena alone can be added
before it is put there or afterwards (`Extended.followedBy`).
-/

namespace PositionAutomaton

def Position.renumber (f : PositionId → PositionId) (x : Position) : Position where
  id := f x.id
  symbol := x.symbol
  followpos := x.followpos.renumber f

namespace Arena

/-- The number that a position has behind those of the arena, modulo `2 ^ 32`. -/
def shift (a : Arena) (p : PositionId) : PositionId :=
  p + .ofNat a.size

/-- The positions of the first arena, and behind them those of the second with their numbers moved on. -/
def followedBy (a b : Arena) : Arena :=
  ⟨a.positions ++ b.positions.map (·.renumber a.shift)⟩

/-! ### Numbers -/

theorem toNat_shift {a : Arena} {p : PositionId} (h : p.toNat + a.size < 2 ^ 32) :
    (a.shift p).toNat = p.toNat + a.size := by
  rw [shift, UInt32.toNat_add, UInt32.toNat_ofNat']
  omega

theorem shift_injective (a : Arena) : Function.Injective a.shift :=
  fun _ _ h => (UInt32.add_left_inj (.ofNat a.size)).1 h

/-- The numbers beyond the arena are those that are moved on. -/
theorem exists_shift_eq {a : Arena} {p : PositionId} (h : a.size < p.toNat) :
    ∃ q, q ≠ 0 ∧ q.toNat + a.size = p.toNat ∧ a.shift q = p := by
  have hlt := p.toNat_lt
  have hq : (UInt32.ofNat (p.toNat - a.size)).toNat + a.size = p.toNat := by
    rw [UInt32.toNat_ofNat']
    omega
  refine ⟨.ofNat (p.toNat - a.size), ?_, hq, ?_⟩
  · intro h0
    rw [h0] at hq
    simp at hq
    omega
  · apply UInt32.toNat_inj.1
    rw [toNat_shift (by omega), hq]

/-! ### Positions -/

theorem toList_followedBy (a b : Arena) :
    (a.followedBy b).toList = a.toList ++ b.toList.map (·.renumber a.shift) := by
  simp [followedBy, toList]

@[simp]
theorem size_followedBy (a b : Arena) : (a.followedBy b).size = a.size + b.size := by
  simp [followedBy, size]

@[simp]
theorem followedBy_empty (a : Arena) : a.followedBy ∅ = a := by
  show Arena.mk (a.positions ++ #[].map _) = a
  simp

/-- A new position behind both arenas is a new position of the second one. -/
theorem allocate_followedBy (a b : Arena) (symbol : Symbol) :
    (a.followedBy b).allocate symbol = (a.shift (b.allocate symbol).1, a.followedBy (b.allocate symbol).2) := by
  have hid : (a.followedBy b).nextId = a.shift b.nextId := by
    rw [nextId, size_followedBy, nextId, shift, UInt32.ofNat_add, UInt32.add_comm (.ofNat a.size), UInt32.add_assoc,
      UInt32.add_assoc, UInt32.add_comm 1]
  rw [allocate, hid]
  refine Prod.ext rfl ?_
  simp [followedBy, allocate, Position.renumber]

theorem get?_followedBy_of_le {a : Arena} (b : Arena) {p : PositionId} (hp : p.toNat ≤ a.size) :
    (a.followedBy b).get? p = a.get? p := by
  unfold get?
  split
  · rfl
  · rename_i h0
    have h0 := toNat_ne_zero h0
    exact Array.getElem?_append_left (by show _ < a.size; omega)

theorem get?_followedBy_shift {a : Arena} (b : Arena) {p : PositionId} (h0 : p ≠ 0)
    (hp : p.toNat + a.size < 2 ^ 32) : (a.followedBy b).get? (a.shift p) = (b.get? p).map (·.renumber a.shift) := by
  have h0' := toNat_ne_zero h0
  have hshift := toNat_shift hp
  have hne : a.shift p ≠ 0 := by
    intro he
    rw [he] at hshift
    simp at hshift
    omega
  have hindex : (a.shift p).toNat - 1 = a.positions.size + (p.toNat - 1) := by
    rw [hshift]
    show _ = a.size + _
    omega
  rw [get?, if_neg hne, get?, if_neg h0, hindex, followedBy, Array.getElem?_append_right (by omega),
    Nat.add_sub_cancel_left, Array.getElem?_map]

/-! ### Followers -/

variable {R : PositionId → PositionId → Prop} {b c : Arena}

/-- Followers that are added to the second arena are added behind the first one, with both numbers moved on. -/
theorem Linked.followedBy (h : Linked R b c) (a : Arena) (hsize : a.size + b.size < 2 ^ 32)
    (hR : ∀ p q, R p q → (b.get? p).isSome) :
    Linked (fun p q => ∃ p' q', R p' q' ∧ a.shift p' = p ∧ a.shift q' = q) (a.followedBy b) (a.followedBy c) where
  size_eq := by rw [size_followedBy, size_followedBy, h.size_eq]
  get?_none {p} hp := by
    rcases Nat.lt_or_ge a.size p.toNat with hlt | hle
    · obtain ⟨p, h0, hadd, rfl⟩ := exists_shift_eq hlt
      have hbound : p.toNat + a.size < 2 ^ 32 := hadd ▸ (a.shift p).toNat_lt
      rw [get?_followedBy_shift _ h0 hbound, Option.map_eq_none_iff] at hp ⊢
      exact h.get?_none hp
    · rw [get?_followedBy_of_le _ hle] at hp ⊢
      exact hp
  get?_some {p x} hp := by
    rcases Nat.lt_or_ge a.size p.toNat with hlt | hle
    · obtain ⟨p, h0, hadd, rfl⟩ := exists_shift_eq hlt
      have hbound : p.toNat + a.size < 2 ^ 32 := hadd ▸ (a.shift p).toNat_lt
      rw [get?_followedBy_shift _ h0 hbound] at hp ⊢
      obtain ⟨y, hy, rfl⟩ := Option.map_eq_some_iff.1 hp
      obtain ⟨s, hs, hmem⟩ := h.get?_some hy
      rw [hs]
      refine ⟨s.renumber a.shift, rfl, fun q => ?_⟩
      show q ∈ s.renumber a.shift ↔ q ∈ y.followpos.renumber a.shift ∨ _
      simp only [PositionSet.mem_renumber, hmem, or_and_right, exists_or]
      refine or_congr_right ?_
      constructor
      · rintro ⟨q, hpq, rfl⟩
        exact ⟨p, q, hpq, rfl, rfl⟩
      · rintro ⟨p', q, hpq, hp', rfl⟩
        exact ⟨q, a.shift_injective hp' ▸ hpq, rfl⟩
    · -- a position of the first arena is none that gets followers
      rw [get?_followedBy_of_le _ hle] at hp ⊢
      refine ⟨x.followpos, hp, fun q => (or_iff_left ?_).symm⟩
      rintro ⟨p', q', hpq, rfl, -⟩
      obtain ⟨h0, hp'⟩ := isSome_get?_iff.1 (hR p' q' hpq)
      have h0 := toNat_ne_zero h0
      rw [toNat_shift (by omega)] at hle
      omega

theorem Extended.followedBy (h : Extended R b c) (a : Arena) (hsize : a.size + b.size < 2 ^ 32)
    (hR : ∀ p q, R p q → (b.get? p).isSome) :
    Extended (fun p q => ∃ p' q', R p' q' ∧ a.shift p' = p ∧ a.shift q' = q) (a.followedBy b) (a.followedBy c) where
  toLinked := h.toLinked.followedBy a hsize hR
  rest_eq i hi := by
    -- there are no entries so far back
    have hb := size_followedBy a b
    have hc := size_followedBy a c
    rw [h.size_eq] at hc
    rw [Array.getElem?_eq_none (by show (a.followedBy c).size ≤ i; omega),
      Array.getElem?_eq_none (by show (a.followedBy b).size ≤ i; omega)]

end Arena

end PositionAutomaton
