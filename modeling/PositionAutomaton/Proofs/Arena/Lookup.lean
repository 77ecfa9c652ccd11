import PositionAutomaton.Proofs.Arena.Numbering

/-!
# Looking for symbols

In an arena where each position is found by its own number (`Indexed`), the list of positions and the numbers say the
same: the first position of a symbol is the one with the least number (`Indexed.exists_firstMatching?`), and the
alphabet holds the characters of the numbered positions (`Indexed.mem_alphabet`).
-/

namespace PositionAutomaton

namespace Arena

/-- The numbers are below `2 ^ 32`, so each is given once, and each position is found by its own. -/
structure Indexed (a : Arena) : Prop where
  size_lt : a.size < 2 ^ 32
  id_eq : ∀ {p x}, a.get? p = some x → x.id = p

variable {a : Arena}

/-- The position at index `i` has the number `i + 1`. -/
theorem Indexed.get?_of_getElem? (h : a.Indexed) {i : Nat} {x : Position} (hx : a.positions[i]? = some x) :
    x.id.toNat = i + 1 ∧ a.get? x.id = some x := by
  have hi : i < a.size := (Array.getElem?_eq_some_iff.1 hx).1
  have hsize := h.size_lt
  have hlt : i + 1 < 2 ^ 32 := by omega
  have hget : a.get? (1 + .ofNat i) = some x := by
    rw [get?_one_add a hlt, hx]
  rw [h.id_eq hget]
  exact ⟨toNat_one_add_ofNat hlt, hget⟩

theorem Indexed.mem_toList_iff (h : a.Indexed) {x : Position} : x ∈ a.toList ↔ a.get? x.id = some x := by
  constructor
  · intro hx
    obtain ⟨i, hi⟩ := Array.mem_iff_getElem?.1 (Array.mem_toList_iff.1 hx)
    exact (h.get?_of_getElem? hi).2
  · intro hx
    exact Array.mem_toList_iff.2 (Array.mem_of_getElem? (get?_eq_some_iff.1 hx).2)

theorem symbol?_eq_some_iff {p : PositionId} {s : Symbol} :
    a.symbol? p = some s ↔ ∃ x, a.get? p = some x ∧ x.symbol = s := by
  rw [symbol?, Option.map_eq_some_iff]

/-- The position found for a symbol has the least number of all positions of this symbol. -/
theorem Indexed.exists_firstMatching? (h : a.Indexed) {p : PositionId} {s : Symbol} (hp : a.symbol? p = some s) :
    ∃ e, a.firstMatching? s = some e ∧ a.symbol? e = some s ∧ ∀ q, a.symbol? q = some s → e ≤ q := by
  obtain ⟨y, hy, rfl⟩ := symbol?_eq_some_iff.1 hp
  cases hfind : a.positions.find? (·.symbol == y.symbol) with
  | none =>
    have := Array.find?_eq_none.1 hfind y (Array.mem_of_getElem? (get?_eq_some_iff.1 hy).2)
    simp at this
  | some x =>
    obtain ⟨hx, i, hi, hxi, hbefore⟩ := Array.find?_eq_some_iff_getElem.1 hfind
    obtain ⟨hid, hget⟩ := h.get?_of_getElem? (Array.getElem?_eq_some_iff.2 ⟨hi, hxi⟩)
    have hfirst : a.firstMatching? y.symbol = some x.id := by
      rw [firstMatching?, hfind]
      rfl
    refine ⟨x.id, hfirst, symbol?_eq_some_iff.2 ⟨x, hget, by simpa using hx⟩, ?_⟩
    -- a smaller number of the symbol would have been found first
    intro q hq
    obtain ⟨z, hz, hzs⟩ := symbol?_eq_some_iff.1 hq
    obtain ⟨hq0, hzq⟩ := get?_eq_some_iff.1 hz
    have hq0 := toNat_ne_zero hq0
    rw [UInt32.le_iff_toNat_le, hid]
    refine Nat.le_of_not_lt fun hlt => ?_
    have hbad := hbefore (q.toNat - 1) (by omega)
    obtain ⟨hlen, hz'⟩ := Array.getElem?_eq_some_iff.1 hzq
    rw [hz'] at hbad
    simp [hzs] at hbad

theorem Indexed.firstMatching?_eq_none (h : a.Indexed) {s : Symbol} (hs : ∀ p, a.symbol? p ≠ some s) :
    a.firstMatching? s = none := by
  rw [firstMatching?, Option.map_eq_none_iff, Array.find?_eq_none]
  intro x hx hxs
  have hget := h.mem_toList_iff.1 (Array.mem_toList_iff.2 hx)
  exact hs x.id (symbol?_eq_some_iff.2 ⟨x, hget, by simpa using hxs⟩)

/-- The alphabet holds the characters that some position matches. -/
theorem Indexed.mem_alphabet (h : a.Indexed) {c : Char} : c ∈ a.alphabet ↔ ∃ p, a.symbol? p = some (.char c) := by
  rw [alphabet, OrderedSet.mem_ofList, List.mem_filterMap]
  constructor
  · intro hc
    obtain ⟨x, hx, hc⟩ := hc
    refine ⟨x.id, symbol?_eq_some_iff.2 ⟨x, h.mem_toList_iff.1 hx, ?_⟩⟩
    cases hs : x.symbol with
    | char d => simpa [hs, Symbol.char?] using hc
    | endMarker => simp [hs, Symbol.char?] at hc
  · intro hc
    obtain ⟨p, hp⟩ := hc
    obtain ⟨x, hx, hs⟩ := symbol?_eq_some_iff.1 hp
    have hchar : x.symbol.char? = some c := by
      rw [hs]
      rfl
    refine ⟨x, h.mem_toList_iff.2 ?_, hchar⟩
    rw [h.id_eq hx]
    exact hx

end Arena

end PositionAutomaton
