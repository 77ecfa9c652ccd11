import PositionAutomaton.Proofs.Compilation.Passes
import PositionAutomaton.Proofs.Parser.Renumbering

/-!
# Passes over an arena that is in use

An arena that has positions already keeps them as they are: parsing, the attribute pass and linking do what they do from
an empty arena, with every number moved on by the positions that were there (`passes_shift`).  While all positions
together stay below `2 ^ 32`, no number wraps around.
-/

namespace PositionAutomaton

/-- A tree whose positions are in the second arena has them behind the first one once it is renumbered. -/
theorem PatternTree.Allocated.followedBy {a b : Arena} {t : PatternTree} (h : t.Allocated b)
    (hsize : a.size + b.size < 2 ^ 32) : (t.renumber a.shift).Allocated (a.followedBy b) := by
  intro p hp
  rw [← letters_idRegex, idRegex_renumber, Regex.letters_map] at hp
  obtain ⟨q, hq, rfl⟩ := List.mem_map.1 hp
  have hsome := h q (t.letters_idRegex ▸ hq)
  obtain ⟨h0, hle⟩ := Arena.isSome_get?_iff.1 hsome
  rw [Arena.get?_followedBy_shift b h0 (by omega), Option.isSome_map, hsome]

/-- Behind other positions, the renumbered tree adds the links that the tree adds without them. -/
theorem PatternTree.linkPositions_followedBy {a b : Arena} {t : PatternTree} (h : t.Allocated b)
    (hsize : a.size + b.size < 2 ^ 32) : ∃ linked, t.annotated.linkPositions b = .ok linked ∧
      (t.annotated.renumber a.shift).linkPositions (a.followedBy b) = .ok (a.followedBy linked) := by
  obtain ⟨linked, hl, hlinked⟩ := linkPositions_extended h
  obtain ⟨linked', hl', hlinked'⟩ := linkPositions_extended (h.followedBy hsize)
  have hfollowed := hlinked.followedBy a hsize fun p q hpq => by
    obtain ⟨u, v, huv⟩ := hpq
    exact h p (t.letters_idRegex ▸ huv.letter_mem)
  obtain rfl : linked' = a.followedBy linked := hlinked'.eq_of_iff hfollowed fun p q => by
    rw [idRegex_renumber, Regex.adjacent_map_iff]
  exact ⟨linked, hl, t.annotated_renumber a.shift ▸ hl'⟩

/-- The numbers of a parsed tree go up to the number of its positions. -/
theorem toNat_le_of_parse {tokens : List Token} {t : PatternTree} {arena₀ : Arena}
    (hparse : PatternTree.parse tokens ∅ = (.ok (some t), arena₀)) (hsize : (Token.symbols tokens).length < 2 ^ 32)
    {p : PositionId} (hp : p ∈ t.idRegex.letters) : p.toNat ≤ (Token.symbols tokens).length := by
  obtain ⟨hletters, -⟩ := letters_of_parse hparse
  rw [t.letters_idRegex, hletters] at hp
  have hmem := List.mem_map_of_mem (f := UInt32.toNat) hp
  rw [List.map_map] at hmem
  have hrange : p.toNat ∈ List.range' 1 (Token.symbols tokens).length := map_toNat_numbered hsize ▸ hmem
  have := List.mem_range'_1.1 hrange
  omega

/-- From an arena with positions, whatever these are, tokens get the same error as from an empty one, or the same tree,
the same attributes and the same links with all numbers moved on by the number of positions that were there; and these
positions stay as they were. -/
theorem passes_shift (arena : Arena) (tokens : List Token)
    (hsize : arena.size + (Token.symbols tokens).length ≤ 2 ^ 32 - 1) :
    PatternTree.parse tokens arena =
      ((PatternTree.parse tokens ∅).1.map (Option.map (·.renumber arena.shift)),
        arena.followedBy (PatternTree.parse tokens ∅).2) ∧
    ∀ t, (PatternTree.parse tokens ∅).1 = .ok (some t) → ∃ root linked,
      t.withAttributes = .ok root ∧
      (t.renumber arena.shift).withAttributes = .ok (root.renumber arena.shift) ∧
      root.linkPositions (PatternTree.parse tokens ∅).2 = .ok linked ∧
      (root.renumber arena.shift).linkPositions (PatternTree.parse tokens arena).2 = .ok (arena.followedBy linked) ∧
      (arena.followedBy linked).toList = arena.toList ++ linked.toList.map (·.renumber arena.shift) ∧
      (∀ p ∈ root.numbers, (arena.shift p).toNat = p.toNat + arena.size) ∧
      ∀ x ∈ linked.toList, ∀ p, p = x.id ∨ p ∈ x.followpos → (arena.shift p).toNat = p.toNat + arena.size := by
  have hshift := parse_followedBy arena ∅ tokens
  rw [Arena.followedBy_empty] at hshift
  refine ⟨hshift, fun t ht => ?_⟩
  have hparse : PatternTree.parse tokens ∅ = (.ok (some t), (PatternTree.parse tokens ∅).2) := Prod.ext ht rfl
  have hsmall : (Token.symbols tokens).length < 2 ^ 32 := by omega
  have hnew := size_of_parse hparse
  obtain ⟨linked, hlink, hlink'⟩ := PatternTree.linkPositions_followedBy (a := arena)
    (allocated_of_parse hparse hsmall) (by omega)
  obtain ⟨linked', hl, hfits⟩ := fits_of_parse hparse hsmall
  obtain rfl := Except.ok.inj (hl.symm.trans hlink)
  have hwrap : ∀ p ∈ t.idRegex.letters, (arena.shift p).toNat = p.toNat + arena.size := by
    intro p hp
    have hle := toNat_le_of_parse hparse hsmall hp
    exact Arena.toNat_shift (by omega)
  refine ⟨t.annotated, _, t.withAttributes_eq, ?_, hlink, ?_, Arena.toList_followedBy _ _, fun p hp => ?_, ?_⟩
  · rw [PatternTree.withAttributes_eq, PatternTree.annotated_renumber]
  · rw [hshift]
    exact hlink'
  · exact hwrap p (PatternTree.mem_letters_of_mem_numbers hp)
  · intro x hx p hp
    have hget := hfits.indexed.mem_toList_iff.1 hx
    refine hwrap p ?_
    rcases hp with rfl | hp
    · exact hfits.mem_letters hget
    · exact hfits.mem_letters_of_followpos hget hp

/-- A position that is followed by itself and by the one after it, behind two others of which one is followed by the
other. -/
theorem passes_shift_loop : ∃ (arena : Arena) (tokens : List Token) (t root : PatternTree) (linked : Arena),
    arena.toList = [⟨1, .char 'x', {2}⟩, ⟨2, .endMarker, ∅⟩] ∧
    tokens = [.literal 'a', .star, .concat, .endMarker] ∧
    arena.size + (Token.symbols tokens).length ≤ 2 ^ 32 - 1 ∧
    (PatternTree.parse tokens ∅).1 = .ok (some t) ∧
    PatternTree.parse tokens arena =
      (.ok (some (t.renumber arena.shift)), arena.followedBy (PatternTree.parse tokens ∅).2) ∧
    t = .concat none (.star none (.leaf none 1 (.char 'a'))) (.leaf none 2 .endMarker) ∧
    t.renumber arena.shift = .concat none (.star none (.leaf none 3 (.char 'a'))) (.leaf none 4 .endMarker) ∧
    t.withAttributes = .ok root ∧
    (t.renumber arena.shift).withAttributes = .ok (root.renumber arena.shift) ∧
    root.linkPositions (PatternTree.parse tokens ∅).2 = .ok linked ∧
    (root.renumber arena.shift).linkPositions (PatternTree.parse tokens arena).2 = .ok (arena.followedBy linked) ∧
    (arena.followedBy linked).toList = arena.toList ++ linked.toList.map (·.renumber arena.shift) ∧
    linked.toList = [⟨1, .char 'a', .ofList [1, 2]⟩, ⟨2, .endMarker, ∅⟩] ∧
    (arena.followedBy linked).toList =
      [⟨1, .char 'x', {2}⟩, ⟨2, .endMarker, ∅⟩, ⟨3, .char 'a', .ofList [3, 4]⟩, ⟨4, .endMarker, ∅⟩] ∧
    (∀ p ∈ root.numbers, (arena.shift p).toNat = p.toNat + 2) ∧
    ∀ x ∈ linked.toList, ∀ p, p = x.id ∨ p ∈ x.followpos → (arena.shift p).toNat = p.toNat + 2 := by
  let arena : Arena := ⟨#[⟨1, .char 'x', {2}⟩, ⟨2, .endMarker, ∅⟩]⟩
  let tokens : List Token := [.literal 'a', .star, .concat, .endMarker]
  have hsize : arena.size + (Token.symbols tokens).length ≤ 2 ^ 32 - 1 := by decide
  obtain ⟨hparse, hpasses⟩ := passes_shift arena tokens hsize
  obtain ⟨root, linked, hroot, hroot', hlink, hlink', hlist, hnumbers, hlinked⟩ := hpasses _ rfl
  obtain rfl := Except.ok.inj ((PatternTree.withAttributes_eq _).symm.trans hroot)
  have hlinks : (PatternTree.annotated (.concat none (.star none (.leaf none 1 (.char 'a')))
      (.leaf none 2 .endMarker))).linkPositions (PatternTree.parse tokens ∅).2 =
        .ok ⟨#[⟨1, .char 'a', .ofList [1, 2]⟩, ⟨2, .endMarker, ∅⟩]⟩ := by
    decide +kernel
  obtain rfl := Except.ok.inj (hlink.symm.trans hlinks)
  exact ⟨arena, tokens, _, _, _, rfl, rfl, hsize, rfl, hparse, rfl, rfl, hroot, hroot', hlink, hlink', hlist, rfl,
    by decide +kernel, hnumbers, hlinked⟩

end PositionAutomaton
