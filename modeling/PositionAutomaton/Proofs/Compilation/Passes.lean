import PositionAutomaton.Compilation
import PositionAutomaton.Proofs.Exploration.Discovery
import PositionAutomaton.Proofs.Exploration.Termination
import PositionAutomaton.Proofs.Parser.Soundness
import PositionAutomaton.Proofs.PatternTree.Prefixes

/-!
# The passes of a compilation

After parsing, no pass fails while the numbers of the positions are below `2 ^ 32`: linking gives an arena that fits the
tree (`fits_of_parse`), and if there is an end marker, the exploration gives an automaton with all states expanded
(`PatternTree.Fits.exists_determinize`).
-/

namespace PositionAutomaton

/-! ### Linking -/

section Numbered

variable {t : PatternTree} {symbols : List Symbol}

/-- A tree whose leaves are numbered by an arena has all its positions there. -/
theorem PatternTree.exists_get?_of_numbered (hsize : symbols.length < 2 ^ 32)
    (hletters : t.regex.letters = numbered 1 symbols) {p : PositionId} (hp : p ∈ t.regex.letters.map Prod.fst) :
    ∃ x, ((∅ : Arena).allocateAll symbols).get? p = some x := by
  obtain ⟨y, hy, rfl⟩ := List.mem_map.1 hp
  have hsymbol := Arena.symbol?_of_mem_numbered hsize (hletters ▸ hy)
  obtain ⟨x, hx, -⟩ := Arena.symbol?_eq_some_iff.1 hsymbol
  exact ⟨x, hx⟩

/-- Once it is linked, the arena fits the tree whose leaves it numbered. -/
theorem PatternTree.fits_of_linked {arena : Arena} (hsize : symbols.length < 2 ^ 32)
    (hletters : t.regex.letters = numbered 1 symbols)
    (hlinked : Arena.Linked t.idRegex.Adjacent ((∅ : Arena).allocateAll symbols) arena) : t.Fits arena := by
  -- a position of the linked arena is one that was handed out, with followers added
  have hback : ∀ {p x}, arena.get? p = some x →
      ∃ y, ((∅ : Arena).allocateAll symbols).get? p = some y ∧ x.id = y.id := by
    intro p x hx
    cases hy : ((∅ : Arena).allocateAll symbols).get? p with
    | none => simp [hlinked.get?_none hy] at hx
    | some y =>
      obtain ⟨s, hs, -⟩ := hlinked.get?_some hy
      obtain rfl : _ = x := Option.some.inj (hs.symm.trans hx)
      exact ⟨y, rfl, rfl⟩
  have hsmall : arena.size < 2 ^ 32 := by
    rw [hlinked.size_eq, Arena.size_allocateAll]
    show 0 + _ < _
    omega
  have hid : ∀ {p x}, arena.get? p = some x → x.id = p := by
    intro p x hx
    obtain ⟨y, hy, hid⟩ := hback hx
    exact hid.trans (Arena.mem_numbered_of_get? hy).2.1
  exact
    { indexed := ⟨hsmall, hid⟩
      nodup := by
        rw [t.letters_idRegex, hletters]
        exact nodup_numbered hsize
      symbol?_eq := by
        intro x hx
        rw [hlinked.symbol?_eq]
        exact Arena.symbol?_of_mem_numbered hsize (hletters ▸ hx)
      mem_letters := by
        intro p x hx
        obtain ⟨y, hy, -⟩ := hback hx
        rw [t.letters_idRegex, hletters]
        exact List.mem_map.2 ⟨_, (Arena.mem_numbered_of_get? hy).1, rfl⟩
      followpos := by
        intro p hp
        rw [t.letters_idRegex] at hp
        obtain ⟨x, hx⟩ := exists_get?_of_numbered hsize hletters hp
        obtain ⟨s, hs, hmem⟩ := hlinked.get?_some hx
        have hfollow : arena.followpos? p = some s := by
          rw [Arena.followpos?, hs]
          rfl
        refine ⟨s, hfollow, fun q => ?_⟩
        rw [hmem, (Arena.mem_numbered_of_get? hx).2.2]
        simp }

end Numbered

/-- The tree that is parsed has all its positions in its arena. -/
theorem allocated_of_parse {tokens : List Token} {t : PatternTree} {arena₀ : Arena}
    (hp : PatternTree.parse tokens ∅ = (.ok (some t), arena₀)) (hsize : (Token.symbols tokens).length < 2 ^ 32) :
    t.Allocated arena₀ := by
  obtain ⟨hletters, rfl⟩ := letters_of_parse hp
  intro p hp
  obtain ⟨x, hx⟩ := PatternTree.exists_get?_of_numbered hsize hletters hp
  rw [hx]
  rfl

/-- There is a position for each symbol of the tokens. -/
theorem size_of_parse {tokens : List Token} {t : PatternTree} {arena₀ : Arena}
    (hp : PatternTree.parse tokens ∅ = (.ok (some t), arena₀)) : arena₀.size = (Token.symbols tokens).length := by
  obtain ⟨-, rfl⟩ := letters_of_parse hp
  exact (Arena.size_allocateAll ..).trans (Nat.zero_add _)

/-- The tree that is parsed can be linked in its arena, and the arena then fits it. -/
theorem fits_of_parse {tokens : List Token} {t : PatternTree} {arena₀ : Arena}
    (hp : PatternTree.parse tokens ∅ = (.ok (some t), arena₀)) (hsize : (Token.symbols tokens).length < 2 ^ 32) :
    ∃ arena, t.annotated.linkPositions arena₀ = .ok arena ∧ t.Fits arena := by
  obtain ⟨arena, harena, hlinked⟩ := PatternTree.linkPositions_annotated (allocated_of_parse hp hsize)
  obtain ⟨hletters, rfl⟩ := letters_of_parse hp
  exact ⟨arena, harena, PatternTree.fits_of_linked hsize hletters hlinked⟩

/-- The positions of an arena that fits a parsed tree match the symbols of the tokens. -/
theorem exists_symbol?_iff {tokens : List Token} {t : PatternTree} {arena₀ arena : Arena}
    (hp : PatternTree.parse tokens ∅ = (.ok (some t), arena₀)) (hfits : t.Fits arena) {s : Symbol} :
    (∃ p, arena.symbol? p = some s) ↔ s ∈ Token.symbols tokens := by
  obtain ⟨hletters, -⟩ := letters_of_parse hp
  have hsymbols : t.regex.letters.map Prod.snd = Token.symbols tokens := by
    rw [hletters, map_snd_numbered]
  rw [← hsymbols]
  constructor
  · intro h
    obtain ⟨p, hps⟩ := h
    exact List.mem_map_of_mem (hfits.mem_regex_letters hps)
  · intro h
    obtain ⟨x, hx, rfl⟩ := List.mem_map.1 h
    exact ⟨x.1, hfits.symbol?_eq hx⟩

/-- Linking does not change how many positions there are. -/
theorem PatternTree.size_linkPositions {t : PatternTree} {a b : Arena} (h : t.linkPositions a = .ok b) :
    b.size = a.size := by
  have hsize : (t.link a).2 = b := by rw [linkPositions_eq_ok_iff.1 h]
  rw [← hsize]
  refine linkNodes_induction (P := fun b => b.size = a.size) (fun hadd hb => ?_) _ rfl
  rw [← hb]
  unfold Arena.addFollowers? at hadd
  split at hadd
  · cases hadd
  · cases hadd
    exact Array.size_modify ..

/-! ### Exploring -/

section Fits

variable {t : PatternTree} {arena : Arena}

/-- The numbers that an arena of this size has handed out. -/
def Arena.numbers (arena : Arena) : Finset PositionId :=
  (Finset.range arena.size).image fun i => 1 + .ofNat i

theorem Arena.mem_numbers {p : PositionId} {x : Position} (h : arena.get? p = some x) : p ∈ arena.numbers := by
  have hsome : (arena.get? p).isSome := by
    rw [h]
    rfl
  obtain ⟨h0, hsize⟩ := isSome_get?_iff.1 hsome
  have h0' := toNat_ne_zero h0
  exact Finset.mem_image.2 ⟨p.toNat - 1, Finset.mem_range.2 (by omega), one_add_ofNat_pred h0⟩

theorem Arena.card_numbers_le (arena : Arena) : arena.numbers.card ≤ arena.size :=
  Finset.card_image_le.trans (Finset.card_range _).le

theorem PatternTree.Fits.mem_numbers (h : t.Fits arena) {p : PositionId} (hp : p ∈ t.idRegex.letters) :
    p ∈ arena.numbers := by
  obtain ⟨s, hs, -⟩ := h.followpos hp
  obtain ⟨x, hx, -⟩ := Option.map_eq_some_iff.1 hs
  exact Arena.mem_numbers hx

/-- Only positions of the tree follow a position. -/
theorem PatternTree.Fits.mem_letters_of_followpos (h : t.Fits arena) {p q : PositionId} {x : Position}
    (hx : arena.get? p = some x) (hq : q ∈ x.followpos) : q ∈ t.idRegex.letters := by
  obtain ⟨s, hs, hmem⟩ := h.followpos (h.mem_letters hx)
  rw [Arena.followpos?, hx] at hs
  obtain rfl : x.followpos = s := Option.some.inj hs
  obtain ⟨u, v, huv⟩ := (hmem q).1 hq
  exact Regex.Matches.letter_mem (u := u ++ [p]) (by simpa using huv)

theorem PatternTree.Fits.mem_letters_of_successor (h : t.Fits arena) {set : PositionSet} {c : Char} {q : PositionId}
    (hq : q ∈ arena.successor set c) : q ∈ t.idRegex.letters := by
  obtain ⟨p, -, -, s, hs, hqs⟩ := Arena.mem_successor.1 hq
  obtain ⟨x, hx, rfl⟩ := Option.map_eq_some_iff.1 hs
  exact h.mem_letters_of_followpos hx hqs

theorem PatternTree.Fits.mem_alphabet_of_successor (h : t.Fits arena) {set : PositionSet} {c : Char}
    (hne : (arena.successor set c).isEmpty = false) : c ∈ arena.alphabet := by
  obtain ⟨q, hq⟩ := OrderedSet.isEmpty_eq_false_iff.1 hne
  obtain ⟨p, -, hp, -⟩ := Arena.mem_successor.1 hq
  exact h.indexed.mem_alphabet.2 ⟨p, hp⟩

/-- A tree with a position has a word that begins with a position. -/
theorem PatternTree.firstpos_ne_empty {p : PositionId} (hp : p ∈ t.idRegex.letters) :
    t.rootAttributes.firstpos.isEmpty = false := by
  obtain ⟨u, v, huv⟩ := Regex.exists_matches_around hp
  obtain ⟨q, w, hw⟩ := List.exists_cons_of_ne_nil (show u ++ p :: v ≠ [] by simp)
  exact OrderedSet.isEmpty_eq_false_iff.2 ⟨q, t.mem_firstpos_rootAttributes.2 ⟨w, hw ▸ huv⟩⟩

/-- The positions that begin a word and those that come after others are in the arena. -/
theorem PatternTree.Fits.mem_numbers_of_firstpos (h : t.Fits arena) {q : PositionId}
    (hq : q ∈ t.rootAttributes.firstpos) : q ∈ arena.numbers := by
  obtain ⟨v, hv⟩ := t.mem_firstpos_rootAttributes.1 hq
  exact h.mem_numbers (Regex.Matches.letter_mem (u := []) hv)

theorem PatternTree.Fits.mem_numbers_of_successor (h : t.Fits arena) {set : PositionSet} {c : Char} {q : PositionId}
    (hq : q ∈ arena.successor set c) : q ∈ arena.numbers :=
  h.mem_numbers (h.mem_letters_of_successor hq)

/-- With a position to begin with and an end marker, the automaton is explored to the end, each of its states once, and
its transitions find its states in order. -/
theorem exists_determinize {root : Attributes} {e : PositionId} {positions : Finset PositionId}
    (hne : root.firstpos.isEmpty = false) (hmarker : arena.firstMatching? .endMarker = some e)
    (hcard : positions.card ≤ arena.size) (hfirst : ∀ q ∈ root.firstpos, q ∈ positions)
    (hnext : ∀ set c, ∀ q ∈ arena.successor set c, q ∈ positions) (name : String) :
    ∃ (x : Exploration) (n : Nat), determinize root arena name = .ok (x.automaton, x.events) ∧
      n = x.automaton.stateCount ∧
      Exploration.Explored arena e name root.firstpos arena.alphabet n (Exploration.followedBelow arena.alphabet n) x ∧
      Finds x.automaton.transitions n ∧
      Exploration.Halts arena e name (.start root.firstpos arena.alphabet) (List.range n) x := by
  have hstart : Exploration.Explored arena e name root.firstpos arena.alphabet 0 (fun _ => [])
      (Exploration.start root.firstpos arena.alphabet) := Exploration.explored_start hne
  obtain ⟨n, x, hn, hhalts, hx⟩ := hstart.exists_halts hfirst hnext
  rw [Nat.zero_add] at hn hx
  -- so many steps are at hand that the exploration runs to its end
  have hrun : (Exploration.start root.firstpos arena.alphabet).run arena e name (Nat.pow 2 arena.size) = x := by
    refine hhalts.run_eq ?_
    have hlt := hx.stateCount_lt hfirst hnext
    have hpow : 2 ^ positions.card ≤ Nat.pow 2 arena.size := Nat.pow_le_pow_right (by omega) hcard
    rw [List.length_range']
    omega
  have hfinds := hstart.finds_run .start (Nat.pow 2 arena.size)
  rw [hrun, ← hn] at hfinds
  refine ⟨x, n, ?_, hn, hx, hfinds, List.range_eq_range' ▸ hhalts⟩
  simp only [determinize, hne, hmarker, hrun]
  rfl

/-- With an end marker among its positions, an arena that fits is explored to the end, for the first of its end
markers. -/
theorem PatternTree.Fits.exists_determinize (h : t.Fits arena) {p : PositionId}
    (hp : arena.symbol? p = some .endMarker) (name : String) :
    ∃ e x, arena.firstMatching? .endMarker = some e ∧ arena.symbol? e = some .endMarker ∧
      (∀ q, arena.symbol? q = some .endMarker → e ≤ q) ∧
      determinize t.rootAttributes arena name = .ok (x.automaton, x.events) ∧
      Exploration.Explored arena e name t.rootAttributes.firstpos arena.alphabet x.automaton.stateCount
        (Exploration.followedBelow arena.alphabet x.automaton.stateCount) x ∧
      Exploration.Halts arena e name (.start t.rootAttributes.firstpos arena.alphabet)
        (List.range x.automaton.stateCount) x := by
  obtain ⟨e, hmarker, he, hle⟩ := h.indexed.exists_firstMatching? hp
  obtain ⟨y, hy, -⟩ := Arena.symbol?_eq_some_iff.1 hp
  have hne := PatternTree.firstpos_ne_empty (h.mem_letters hy)
  obtain ⟨x, n, hexplore, rfl, hexplored, -, hhalts⟩ := PositionAutomaton.exists_determinize hne hmarker
    arena.card_numbers_le (fun _ => h.mem_numbers_of_firstpos) (fun _ _ _ => h.mem_numbers_of_successor) name
  exact ⟨e, x, hmarker, he, hle, hexplore, hexplored, hhalts⟩

end Fits

/-! ### All passes -/

/-- What is compiled, from the automaton that is explored and the events of its exploration. -/
def Compilation.ofExploration (t : PatternTree) (arena : Arena) (name : String) (m : Automaton)
    (events : Array CompileEvent) : Compilation where
  automaton := m
  tree := some t.annotated
  arena := arena
  events := events.push (.finished name arena.size m.stateCount m.acceptingStates.length)

/-- After parsing, only linking and the exploration can fail. -/
theorem compileTokens_eq_bind {tokens : List Token} {t : PatternTree} {arena₀ : Arena}
    (hparse : PatternTree.parse tokens ∅ = (.ok (some t), arena₀)) (name : String) :
    compileTokens tokens name = t.annotated.linkPositions arena₀ >>= fun arena =>
      (determinize t.rootAttributes arena name).map fun x => .ofExploration t arena name x.1 x.2 := by
  unfold compileTokens
  rw [hparse]
  show t.withAttributes >>= _ = _
  rw [t.withAttributes_eq]
  show t.annotated.linkPositions arena₀ >>= _ = _
  refine bind_congr fun arena => ?_
  show t.annotated.attributes >>= _ = _
  rw [t.attributes_annotated]
  show determinize t.rootAttributes arena name >>= _ = _
  cases determinize t.rootAttributes arena name <;> rfl

/-- After parsing, the compilation succeeds with what the passes give, if they succeed. -/
theorem compileTokens_eq_ok_iff {tokens : List Token} {name : String} {t : PatternTree} {arena₀ : Arena}
    (hparse : PatternTree.parse tokens ∅ = (.ok (some t), arena₀)) {c : Compilation} :
    compileTokens tokens name = .ok c ↔ ∃ arena m events, t.annotated.linkPositions arena₀ = .ok arena ∧
      determinize t.rootAttributes arena name = .ok (m, events) ∧ .ofExploration t arena name m events = c := by
  rw [compileTokens_eq_bind hparse, bind_eq_ok_iff]
  simp only [map_eq_ok_iff, Prod.exists, exists_and_left]

theorem compileTokens_of_error {tokens : List Token} {name : String} {e : CompileError} {arena : Arena}
    (h : PatternTree.parse tokens ∅ = (.error e, arena)) : compileTokens tokens name = .error e := by
  rw [compileTokens, h]

/-- Tokens with a tree and an end marker are compiled, and the automaton is explored to the end. -/
theorem exists_compileTokens {tokens : List Token} {t : PatternTree} {arena₀ : Arena}
    (hparse : PatternTree.parse tokens ∅ = (.ok (some t), arena₀)) (hsize : (Token.symbols tokens).length < 2 ^ 32)
    (hend : .endMarker ∈ tokens) (name : String) :
    ∃ (c : Compilation) (e : PositionId), compileTokens tokens name = .ok c ∧ t.Fits c.arena ∧
      c.arena.symbol? e = some .endMarker ∧ (∀ q, c.arena.symbol? q = some .endMarker → e ≤ q) ∧
      c.automaton.Expanded c.arena e name t.rootAttributes.firstpos := by
  obtain ⟨arena, hlink, hfits⟩ := fits_of_parse hparse hsize
  obtain ⟨p, hp⟩ := (exists_symbol?_iff hparse hfits).2 (Token.endMarker_mem_symbols.2 hend)
  obtain ⟨e, x, -, he, hle, hexplore, hx, -⟩ := hfits.exists_determinize hp name
  exact ⟨_, e, (compileTokens_eq_ok_iff hparse).2 ⟨_, _, _, hlink, hexplore, rfl⟩, hfits, he, hle,
    hx.automaton_expanded rfl fun _ _ => hfits.mem_alphabet_of_successor⟩

/-- Tokens that are compiled have a tree, unless there are none. -/
theorem exists_parse_of_compileTokens {tokens : List Token} {name : String} {c : Compilation}
    (h : compileTokens tokens name = .ok c) (hne : tokens ≠ []) :
    ∃ t arena₀, PatternTree.parse tokens ∅ = (.ok (some t), arena₀) := by
  rcases hparse : PatternTree.parse tokens ∅ with ⟨e | _ | t, arena₀⟩
  · cases h.symm.trans (compileTokens_of_error hparse)
  · exact absurd (PatternTree.eq_nil_of_parse hparse) hne
  · exact ⟨t, arena₀, rfl⟩

/-- Compiled tokens have a tree and no more positions than the arena, unless there were no tokens. -/
theorem parse_of_compileTokens {tokens : List Token} {name : String} {c : Compilation}
    (h : compileTokens tokens name = .ok c) (hne : tokens ≠ []) :
    ∃ t arena₀, PatternTree.parse tokens ∅ = (.ok (some t), arena₀) ∧
      c.arena.size = (Token.symbols tokens).length := by
  obtain ⟨t, arena₀, hparse⟩ := exists_parse_of_compileTokens h hne
  obtain ⟨arena, m, events, hlink, -, rfl⟩ := (compileTokens_eq_ok_iff hparse).1 h
  exact ⟨t, arena₀, hparse, (PatternTree.size_linkPositions hlink).trans (size_of_parse hparse)⟩

end PositionAutomaton
