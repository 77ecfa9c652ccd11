import PositionAutomaton.Proofs.PatternTree.Followpos

/-!
# Linking any arena

What linking does to an arena that holds the positions of the tree, whatever else it holds and whatever its positions are
followed by already.  `Arena.Extended` says it of every entry of the arena, those beyond the last number included, so
it determines the new arena (`Extended.eq_of_iff`).  Hence linking again changes nothing, and the links of two trees may
be added in any order (`linkPositions_adjacent`).
-/

namespace PositionAutomaton

namespace Arena

variable {R S : PositionId → PositionId → Prop} {a b c : Arena}

/-! ### Entries and numbers -/

/-- Two arenas are equal if they agree on all numbers and on the entries that are too late for a number. -/
theorem ext_get? (h : ∀ p, a.get? p = b.get? p)
    (hrest : ∀ i, 2 ^ 32 ≤ i + 1 → a.positions[i]? = b.positions[i]?) : a = b := by
  have hpositions : a.positions = b.positions := by
    apply Array.ext_getElem?
    intro i
    by_cases hi : i + 1 < 2 ^ 32
    · rw [← get?_one_add a hi, ← get?_one_add b hi, h]
    · exact hrest i (by omega)
  cases a
  cases b
  exact congrArg Arena.mk hpositions

/-! ### Followers added to some positions -/

/-- The second arena is the first one with the positions related by `R` added to those that may follow, and the entries
too late for a number are as they were. -/
structure Extended (R : PositionId → PositionId → Prop) (a b : Arena) : Prop extends Linked R a b where
  rest_eq : ∀ i, 2 ^ 32 ≤ i + 1 → b.positions[i]? = a.positions[i]?

theorem Extended.trans (h : Extended R a b) (h' : Extended S b c) : Extended (fun p q => R p q ∨ S p q) a c where
  toLinked := h.toLinked.trans h'.toLinked
  rest_eq i hi := (h'.rest_eq i hi).trans (h.rest_eq i hi)

/-- Adding the same followers gives the same arena. -/
theorem Extended.eq_of_iff (hb : Extended R a b) (hc : Extended S a c) (hRS : ∀ p q, R p q ↔ S p q) : b = c := by
  refine ext_get? (fun p => ?_) fun i hi => (hb.rest_eq i hi).trans (hc.rest_eq i hi).symm
  cases hp : a.get? p with
  | none => rw [hb.get?_none hp, hc.get?_none hp]
  | some x =>
    obtain ⟨s, hs, hmem⟩ := hb.get?_some hp
    obtain ⟨s', hs', hmem'⟩ := hc.get?_some hp
    have hsets : s = s' := by
      ext q
      rw [hmem, hmem', hRS]
    rw [hs, hs', hsets]

/-- Adding the same followers once more changes nothing. -/
theorem Extended.eq_of_again (hb : Extended R a b) (hc : Extended R b c) : c = b :=
  (hb.trans hc).eq_of_iff hb fun _ _ => or_self_iff

/-- The positions keep their numbers and symbols, and none is added or lost. -/
theorem Extended.map_toList (h : Extended R a b) :
    b.toList.map (fun x => (x.id, x.symbol)) = a.toList.map fun x => (x.id, x.symbol) := by
  apply List.ext_getElem?
  intro i
  rw [List.getElem?_map, List.getElem?_map, toList, toList, Array.getElem?_toList, Array.getElem?_toList]
  by_cases hi : i + 1 < 2 ^ 32
  · rw [← get?_one_add a hi, ← get?_one_add b hi]
    cases hp : a.get? (1 + .ofNat i) with
    | none => rw [h.get?_none hp]
    | some x =>
      obtain ⟨s, hs, -⟩ := h.get?_some hp
      rw [hs]
      rfl
  · rw [h.rest_eq i (by omega)]

theorem Linked.get?_eq (h : Linked R a b) {p : PositionId} (hp : ∀ q, ¬ R p q) : b.get? p = a.get? p := by
  cases hx : a.get? p with
  | none => exact h.get?_none hx
  | some x =>
    obtain ⟨s, hs, hmem⟩ := h.get?_some hx
    have hsame : s = x.followpos := by
      ext q
      rw [hmem, or_iff_left (hp q)]
    rw [hs, hsame]

theorem Linked.followpos?_of_some (h : Linked R a b) {p : PositionId} {old : PositionSet}
    (hp : a.followpos? p = some old) : ∃ new, b.followpos? p = some new ∧ ∀ q, q ∈ new ↔ q ∈ old ∨ R p q := by
  obtain ⟨x, hx, rfl⟩ := Option.map_eq_some_iff.1 hp
  obtain ⟨s, hs, hmem⟩ := h.get?_some hx
  refine ⟨s, ?_, hmem⟩
  rw [followpos?, hs]
  rfl

/-- An entry is as it was unless it has a number to which followers are added. -/
theorem Extended.getElem?_eq (h : Extended R a b) {i : Nat} (hi : ∀ p q, R p q → p.toNat ≠ i + 1) :
    b.positions[i]? = a.positions[i]? := by
  by_cases hlt : i + 1 < 2 ^ 32
  · rw [← get?_one_add a hlt, ← get?_one_add b hlt]
    exact h.get?_eq fun q hq => hi _ q hq (toNat_one_add_ofNat hlt)
  · exact h.rest_eq i (by omega)

/-- Giving followers to a position leaves the entries beyond the last number as they are. -/
theorem rest_eq_of_addFollowers? {id : PositionId} {ids : PositionSet} (h : a.addFollowers? id ids = some b) {i : Nat}
    (hi : 2 ^ 32 ≤ i + 1) : b.positions[i]? = a.positions[i]? := by
  unfold addFollowers? at h
  split at h
  · cases h
  · cases h
    have hlt := id.toNat_lt
    rename_i hid
    have h0 := toNat_ne_zero fun h0 => hid (Or.inl h0)
    rw [Array.getElem?_modify, if_neg (by omega)]

end Arena

namespace PatternTree

open Arena

/-- Linking an annotated tree adds the pairs of numbers that stand side by side in a word of the tree, and touches no
other entry. -/
theorem linkPositions_extended {t : PatternTree} {arena : Arena} (h : t.Allocated arena) :
    ∃ linked, t.annotated.linkPositions arena = .ok linked ∧ Extended t.idRegex.Adjacent arena linked := by
  obtain ⟨linked, hl, hlinked⟩ := linkPositions_annotated h
  refine ⟨linked, hl, hlinked, fun i hi => ?_⟩
  have hrest : (t.annotated.link arena).2.positions[i]? = arena.positions[i]? :=
    linkNodes_induction (P := fun b => b.positions[i]? = arena.positions[i]?)
      (fun hadd hb => (rest_eq_of_addFollowers? hadd hi).trans hb) _ rfl
  rwa [linkPositions_eq_ok_iff.1 hl] at hrest

/-- The tree with its attributes links any arena that holds its positions: every position is followed by those that
followed it before and those that come right after it in some word of the tree.  All else stays, and what is not a
position of the tree stays altogether.  Linking again changes nothing, and with a second tree of which the arena holds the
positions, the order of the two does not matter. -/
theorem linkPositions_adjacent {t t' : PatternTree} {arena : Arena} (ht : t.withAttributes = .ok t')
    (h : t.Allocated arena) :
    ∃ linked, t'.linkPositions arena = .ok linked ∧
      (∀ p old, arena.followpos? p = some old → ∃ new, linked.followpos? p = some new ∧
        ∀ q, q ∈ new ↔ q ∈ old ∨ ∃ u v, t.Matches (u ++ p :: q :: v)) ∧
      linked.toList.map (fun x => (x.id, x.symbol)) = arena.toList.map (fun x => (x.id, x.symbol)) ∧
      (∀ i, (∀ p ∈ t.regex.letters.map Prod.fst, p.toNat ≠ i + 1) → linked.positions[i]? = arena.positions[i]?) ∧
      t'.linkPositions linked = .ok linked ∧
      ∀ u u' : PatternTree, u.withAttributes = .ok u' → u.Allocated arena → ∃ other both,
        u'.linkPositions arena = .ok other ∧ t'.linkPositions other = .ok both ∧ u'.linkPositions linked = .ok both := by
  obtain rfl := Except.ok.inj (t.withAttributes_eq.symm.trans ht)
  obtain ⟨linked, hl, hlinked⟩ := linkPositions_extended h
  refine ⟨linked, hl, fun p old hp => hlinked.followpos?_of_some hp, hlinked.map_toList, fun i hi => ?_, ?_, ?_⟩
  · refine hlinked.getElem?_eq fun p q hpq => hi p ?_
    obtain ⟨u, v, huv⟩ := hpq
    exact t.letters_idRegex ▸ huv.letter_mem
  · obtain ⟨again, ha, hagain⟩ := linkPositions_extended (h.linked hlinked.toLinked)
    rw [ha, hlinked.eq_of_again hagain]
  · intro u u' hu hallocated
    obtain rfl := Except.ok.inj (u.withAttributes_eq.symm.trans hu)
    obtain ⟨other, ho, hother⟩ := linkPositions_extended hallocated
    obtain ⟨both, hb, hboth⟩ := linkPositions_extended (h.linked hother.toLinked)
    obtain ⟨both', hb', hboth'⟩ := linkPositions_extended (hallocated.linked hlinked.toLinked)
    -- in either order the followers of both trees are added
    have heq : both' = both := (hlinked.trans hboth').eq_of_iff (hother.trans hboth) fun _ _ => or_comm
    exact ⟨other, both, ho, hb, heq ▸ hb'⟩

/-- A loop within a loop, in an arena with one more position and with followers from before. -/
theorem linkPositions_adjacent_loop : ∃ (t t' : PatternTree) (arena : Arena),
    t = .star none (.concat none (.star none (.leaf none 1 (.char 'a'))) (.leaf none 2 (.char 'b'))) ∧
    arena.toList = [⟨1, .char 'a', {3}⟩, ⟨2, .char 'b', ∅⟩, ⟨3, .endMarker, {1}⟩] ∧
    t.withAttributes = .ok t' ∧ t.Allocated arena ∧
    ∃ linked, t'.linkPositions arena = .ok linked ∧ t'.linkPositions linked = .ok linked ∧
      (∃ new, linked.followpos? 1 = some new ∧ ∀ q, q ∈ new ↔ q ∈ ({3} : PositionSet) ∨
        ∃ u v, t.Matches (u ++ 1 :: q :: v)) ∧
      linked.positions[2]? = arena.positions[2]? := by
  let t : PatternTree :=
    .star none (.concat none (.star none (.leaf none 1 (.char 'a'))) (.leaf none 2 (.char 'b')))
  let arena : Arena := ⟨#[⟨1, .char 'a', {3}⟩, ⟨2, .char 'b', ∅⟩, ⟨3, .endMarker, {1}⟩]⟩
  have hids : ∀ p ∈ t.regex.letters.map Prod.fst, p = 1 ∨ p = 2 := by
    simp [t, regex, Regex.letters]
  have h : t.Allocated arena := by
    intro p hp
    rcases hids p hp with rfl | rfl <;> rfl
  have h2 : ∀ p ∈ t.regex.letters.map Prod.fst, p.toNat ≠ 2 + 1 := by
    intro p hp
    rcases hids p hp with rfl | rfl <;> decide
  obtain ⟨linked, hl, hfollow, -, hrest, hagain, -⟩ := linkPositions_adjacent t.withAttributes_eq h
  exact ⟨t, _, arena, rfl, rfl, t.withAttributes_eq, h, linked, hl, hagain, hfollow 1 {3} rfl, hrest 2 h2⟩

end PatternTree

end PositionAutomaton
