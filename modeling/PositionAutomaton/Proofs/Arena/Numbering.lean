import Mathlib.Algebra.Group.Nat.Defs
import PositionAutomaton.Arena

/-!
# Numbers of new positions

Positions for a list of symbols get consecutive numbers (`toList_allocateAll`), which do not wrap around below `2 ^ 32`
positions (`extendedBy_allocateAll`).  In an arena that starts empty and stays below that, no number is given twice and
each leads to its own symbol (`get?_allocateAll_empty`, `symbol?_of_mem_numbered`).
-/

namespace PositionAutomaton

/-- The symbols with consecutive numbers from `first` on. -/
def numbered (first : PositionId) : List Symbol → List (PositionId × Symbol)
  | [] => []
  | s :: ss => (first, s) :: numbered (first + 1) ss

theorem ofNat_succ (n : Nat) : UInt32.ofNat (n + 1) = UInt32.ofNat n + 1 := by
  simp [UInt32.ofNat_add]

theorem numbered_append (first : PositionId) (ss ts : List Symbol) :
    numbered first (ss ++ ts) = numbered first ss ++ numbered (first + .ofNat ss.length) ts := by
  induction ss generalizing first with
  | nil => simp [numbered]
  | cons s ss ih =>
    simp only [List.cons_append, numbered, ih, List.length_cons, ofNat_succ]
    rw [UInt32.add_assoc, UInt32.add_comm 1]

theorem getElem?_numbered (first : PositionId) (ss : List Symbol) (i : Nat) :
    (numbered first ss)[i]? = ss[i]?.map (first + .ofNat i, ·) := by
  induction ss generalizing first i with
  | nil => simp [numbered]
  | cons s ss ih =>
    cases i with
    | zero => simp [numbered]
    | succ i =>
      simp only [numbered, List.getElem?_cons_succ, ih, ofNat_succ]
      rw [UInt32.add_assoc, UInt32.add_comm 1]

@[simp]
theorem map_snd_numbered (first : PositionId) (ss : List Symbol) : (numbered first ss).map Prod.snd = ss := by
  induction ss generalizing first with
  | nil => rfl
  | cons s ss ih => simp [numbered, ih]

@[simp]
theorem length_numbered (first : PositionId) (ss : List Symbol) : (numbered first ss).length = ss.length := by
  rw [← List.length_map Prod.snd, map_snd_numbered]

theorem toNat_one_add_ofNat {i : Nat} (h : i + 1 < 2 ^ 32) : ((1 : PositionId) + .ofNat i).toNat = i + 1 := by
  rw [UInt32.add_comm, ← ofNat_succ, UInt32.toNat_ofNat']
  exact Nat.mod_eq_of_lt h

theorem toNat_ne_zero {p : PositionId} (h : p ≠ 0) : p.toNat ≠ 0 :=
  fun he => h (UInt32.toNat_inj.1 (by simpa using he))

theorem one_add_ofNat_pred {p : PositionId} (h : p ≠ 0) : (1 : PositionId) + .ofNat (p.toNat - 1) = p := by
  have h0 := toNat_ne_zero h
  have hlt := p.toNat_lt
  apply UInt32.toNat_inj.1
  rw [toNat_one_add_ofNat (by omega)]
  omega

theorem one_add_ofNat_ne_zero {i : Nat} (h : i + 1 < 2 ^ 32) : (1 : PositionId) + .ofNat i ≠ 0 := by
  intro he
  have hid := toNat_one_add_ofNat h
  rw [he] at hid
  simp at hid

/-- Below `2 ^ 32`, the positions of consecutive symbols have consecutive numbers. -/
theorem map_toNat_numbered_ofNat {n : Nat} {ss : List Symbol} (h : n + ss.length ≤ 2 ^ 32) :
    (numbered (.ofNat n) ss).map (·.1.toNat) = List.range' n ss.length := by
  induction ss generalizing n with
  | nil => rfl
  | cons s ss ih =>
    rw [List.length_cons] at h
    have hn : (UInt32.ofNat n).toNat = n := UInt32.toNat_ofNat_of_lt' (by show n < 2 ^ 32; omega)
    rw [numbered, List.map_cons, ← ofNat_succ, ih (by omega), hn, List.length_cons, List.range'_succ]

theorem map_toNat_numbered {ss : List Symbol} (h : ss.length < 2 ^ 32) :
    (numbered 1 ss).map (·.1.toNat) = List.range' 1 ss.length :=
  map_toNat_numbered_ofNat (n := 1) (by omega)

theorem nodup_numbered {ss : List Symbol} (h : ss.length < 2 ^ 32) : ((numbered 1 ss).map Prod.fst).Nodup := by
  have hnumbers : (((numbered 1 ss).map Prod.fst).map UInt32.toNat).Nodup := by
    rw [List.map_map]
    exact map_toNat_numbered h ▸ List.nodup_range'
  exact List.Pairwise.of_map UInt32.toNat (fun p q hne he => hne (congrArg UInt32.toNat he)) hnumbers

namespace Arena

theorem get?_eq_some_iff {a : Arena} {p : PositionId} {x : Position} :
    a.get? p = some x ↔ p ≠ 0 ∧ a.positions[p.toNat - 1]? = some x := by
  unfold get?
  split <;> simp [*]

theorem isSome_get?_iff {a : Arena} {p : PositionId} : (a.get? p).isSome ↔ p ≠ 0 ∧ p.toNat ≤ a.size := by
  unfold get? size
  split
  · simp [*]
  · rename_i hp
    have := toNat_ne_zero hp
    rw [Option.isSome_iff_ne_none, ne_eq, Array.getElem?_eq_none_iff, and_iff_right hp]
    omega

/-- The entry at an index below `2 ^ 32 - 1` is the position with the next number. -/
theorem get?_one_add (a : Arena) {i : Nat} (h : i + 1 < 2 ^ 32) : a.get? (1 + .ofNat i) = a.positions[i]? := by
  rw [get?, if_neg (one_add_ofNat_ne_zero h), toNat_one_add_ofNat h, Nat.add_sub_cancel]

/-! ### New positions -/

/-- The arena with a new position for each of the symbols. -/
def allocateAll (a : Arena) (symbols : List Symbol) : Arena :=
  symbols.foldl (fun a s => (a.allocate s).2) a

@[simp]
theorem allocateAll_nil (a : Arena) : a.allocateAll [] = a :=
  rfl

theorem allocateAll_append (a : Arena) (ss ts : List Symbol) :
    a.allocateAll (ss ++ ts) = (a.allocateAll ss).allocateAll ts :=
  List.foldl_append

theorem nextId_allocate (a : Arena) (s : Symbol) : (a.allocate s).2.nextId = a.nextId + 1 := by
  simp [allocate, nextId, size, ofNat_succ]

theorem nextId_allocateAll (a : Arena) (ss : List Symbol) :
    (a.allocateAll ss).nextId = a.nextId + .ofNat ss.length := by
  induction ss generalizing a with
  | nil => simp
  | cons s ss ih =>
    show ((a.allocate s).2.allocateAll ss).nextId = _
    rw [ih, nextId_allocate, List.length_cons, ofNat_succ, UInt32.add_assoc, UInt32.add_comm 1]

/-- The new positions come after the old ones, numbered on and not followed by any. -/
theorem toList_allocateAll (a : Arena) (ss : List Symbol) :
    (a.allocateAll ss).toList = a.toList ++ (numbered a.nextId ss).map fun p => { id := p.1, symbol := p.2 } := by
  induction ss generalizing a with
  | nil => simp [numbered]
  | cons s ss ih =>
    show ((a.allocate s).2.allocateAll ss).toList = _
    rw [ih, nextId_allocate, numbered]
    simp [allocate, toList]

theorem size_allocateAll (a : Arena) (ss : List Symbol) : (a.allocateAll ss).size = a.size + ss.length := by
  have := congrArg List.length (a.toList_allocateAll ss)
  simpa [toList, size] using this

/-- The arena has the old positions and behind them one for each of the symbols, numbered on and not followed by any. -/
structure ExtendedBy (arena : Arena) (added : List Symbol) (arena' : Arena) : Prop where
  old : arena'.toList.take arena.size = arena.toList
  ids : (arena'.toList.drop arena.size).map (·.id.toNat) = List.range' (arena.size + 1) added.length
  symbols : (arena'.toList.drop arena.size).map (·.symbol) = added
  followpos : ∀ p ∈ arena'.toList.drop arena.size, p.followpos = ∅

theorem drop_allocateAll (arena : Arena) (symbols : List Symbol) :
    (arena.allocateAll symbols).toList.drop arena.size =
      (numbered arena.nextId symbols).map fun p => { id := p.1, symbol := p.2 } := by
  rw [toList_allocateAll]
  exact List.drop_left

theorem extendedBy_allocateAll {arena : Arena} {symbols : List Symbol}
    (h : arena.size + symbols.length ≤ 2 ^ 32 - 1) : arena.ExtendedBy symbols (arena.allocateAll symbols) where
  old := by
    rw [toList_allocateAll]
    exact List.take_left
  ids := by
    rw [drop_allocateAll, List.map_map, nextId, ← ofNat_succ]
    exact map_toNat_numbered_ofNat (by omega)
  symbols := by
    rw [drop_allocateAll, List.map_map]
    exact map_snd_numbered arena.nextId symbols
  followpos p hp := by
    rw [drop_allocateAll] at hp
    obtain ⟨q, -, rfl⟩ := List.mem_map.1 hp
    rfl

/-! ### From the empty arena -/

theorem nextId_empty : (∅ : Arena).nextId = 1 :=
  rfl

theorem get?_allocateAll_empty (ss : List Symbol) (id : PositionId) :
    ((∅ : Arena).allocateAll ss).get? id =
      if id = 0 then none else ss[id.toNat - 1]?.map fun s => { id, symbol := s } := by
  unfold get?
  split
  · rfl
  · rename_i h0
    rw [← Array.getElem?_toList]
    show ((∅ : Arena).allocateAll ss).toList[id.toNat - 1]? = _
    rw [toList_allocateAll]
    show ([] ++ _)[id.toNat - 1]? = _
    rw [List.nil_append, List.getElem?_map, getElem?_numbered, nextId_empty, Option.map_map, one_add_ofNat_pred h0]
    rfl

/-- The number of a symbol leads to that symbol. -/
theorem symbol?_of_mem_numbered {ss : List Symbol} (h : ss.length < 2 ^ 32) {p : PositionId × Symbol}
    (hp : p ∈ numbered 1 ss) : ((∅ : Arena).allocateAll ss).symbol? p.1 = some p.2 := by
  obtain ⟨i, hi⟩ := List.mem_iff_getElem?.1 hp
  rw [getElem?_numbered] at hi
  obtain ⟨s, hs, rfl⟩ := Option.map_eq_some_iff.1 hi
  have hlen : i < ss.length := (List.getElem?_eq_some_iff.1 hs).1
  have hlt : i + 1 < 2 ^ 32 := by omega
  rw [symbol?, get?_allocateAll_empty, if_neg (one_add_ofNat_ne_zero hlt), toNat_one_add_ofNat hlt]
  simp [hs]

/-- A position that is found has one of the numbers, with its symbol, and is not followed by any. -/
theorem mem_numbered_of_get? {ss : List Symbol} {id : PositionId} {x : Position}
    (hx : ((∅ : Arena).allocateAll ss).get? id = some x) :
    (id, x.symbol) ∈ numbered 1 ss ∧ x.id = id ∧ x.followpos = ∅ := by
  rw [get?_allocateAll_empty] at hx
  split at hx
  · cases hx
  · rename_i h0
    obtain ⟨s, hs, rfl⟩ := Option.map_eq_some_iff.1 hx
    refine ⟨List.mem_iff_getElem?.2 ⟨id.toNat - 1, ?_⟩, rfl, rfl⟩
    rw [getElem?_numbered, hs, one_add_ofNat_pred h0]
    rfl

end Arena

end PositionAutomaton
