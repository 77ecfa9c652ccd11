import PositionAutomaton.Proofs.Compilation.Canonical
import PositionAutomaton.Proofs.Compilation.Rejection

/-!
# What becomes of tokens

The result of a compilation can be told from the tokens (`compileTokens_outcome`): without tokens there is no state,
without positions one that accepts, and with positions it depends on whether there is an end marker.  No compilation
ends with a broken invariant or with the automaton of the empty language.
-/

namespace PositionAutomaton

variable {tokens : List Token} {name : String} {t : PatternTree} {arena₀ : Arena}

/-- The words of a parsed tree begin with a position if there is a position. -/
theorem isEmpty_firstpos_iff (hparse : PatternTree.parse tokens ∅ = (.ok (some t), arena₀)) :
    t.rootAttributes.firstpos.isEmpty = true ↔ Token.symbols tokens = [] := by
  obtain ⟨hletters, -⟩ := letters_of_parse hparse
  have hnil : t.idRegex.letters = [] ↔ Token.symbols tokens = [] := by
    rw [t.letters_idRegex, List.map_eq_nil_iff, hletters, ← List.length_eq_zero_iff, length_numbered,
      List.length_eq_zero_iff]
  rw [← hnil]
  constructor
  · intro h
    refine List.eq_nil_iff_forall_not_mem.2 fun p hp => ?_
    cases h.symm.trans (PatternTree.firstpos_ne_empty hp)
  · intro h
    rw [OrderedSet.isEmpty_iff]
    ext q
    refine iff_of_false (fun hq => ?_) OrderedSet.not_mem_empty
    obtain ⟨v, hv⟩ := t.mem_firstpos_rootAttributes.1 hq
    exact List.not_mem_nil (h ▸ Regex.Matches.letter_mem (u := []) hv)

/-- After parsing and while the positions can be numbered, only the exploration can fail. -/
theorem compileTokens_eq_map (hparse : PatternTree.parse tokens ∅ = (.ok (some t), arena₀))
    (hsize : (Token.symbols tokens).length < 2 ^ 32) (name : String) :
    ∃ arena, t.Fits arena ∧ compileTokens tokens name =
      (determinize t.rootAttributes arena name).map fun x => .ofExploration t arena name x.1 x.2 := by
  obtain ⟨arena, hlink, hfits⟩ := fits_of_parse hparse hsize
  refine ⟨arena, hfits, ?_⟩
  rw [compileTokens_eq_bind hparse, hlink]
  rfl

theorem compileTokens_ne_brokenInvariant (hsize : (Token.symbols tokens).length < 2 ^ 32) (cause : BrokenInvariant) :
    compileTokens tokens name ≠ .error (.brokenInvariant cause) := by
  intro h
  rcases hparse : PatternTree.parse tokens ∅ with ⟨e | _ | t, arena₀⟩
  · rw [compileTokens_of_error hparse] at h
    cases h
    cases isDefect_of_parse hparse
  · rw [compileTokens, hparse] at h
    cases h
  · obtain ⟨arena, -, heq⟩ := compileTokens_eq_map hparse hsize name
    rw [heq] at h
    cases error_of_determinize (map_eq_error_iff.1 h)

/-- No state stands for the empty language. -/
theorem compileTokens_ne_emptyLanguage {c : Compilation} (h : compileTokens tokens name = .ok c) (i : Nat) :
    c.automaton.label? i ≠ some .emptyLanguage := by
  intro hi
  by_cases hne : tokens = []
  · subst hne
    cases h
    cases hi
  · obtain ⟨t, -, -, ⟨hempty, hm⟩ | ⟨e, x, hm, hx, -⟩⟩ := explored_of_compileTokens h hne
    · rw [hm, PatternTree.nullable_of_isEmpty hempty] at hi
      cases i with
      | zero => cases hi
      | succ i => cases hi
    · rw [hm] at hi
      obtain ⟨set, hset, -⟩ := hx.origin hi
      cases hset

/-- Without positions, the one state accepts the empty word. -/
theorem compileTokens_of_symbols_eq_nil (hparse : PatternTree.parse tokens ∅ = (.ok (some t), arena₀))
    (hnil : Token.symbols tokens = []) (name : String) :
    ∃ c, compileTokens tokens name = .ok c ∧ c.automaton = .withoutPositions true ∅ name := by
  have hempty := (isEmpty_firstpos_iff hparse).2 hnil
  have hsize : (Token.symbols tokens).length < 2 ^ 32 := by
    rw [hnil]
    decide
  obtain ⟨arena, hfits, heq⟩ := compileTokens_eq_map hparse hsize name
  have halphabet : arena.alphabet = ∅ := by
    ext ch
    refine iff_of_false (fun hch => ?_) OrderedSet.not_mem_empty
    have hmem := (exists_symbol?_iff hparse hfits).1 (hfits.indexed.mem_alphabet.1 hch)
    exact List.not_mem_nil (hnil ▸ hmem)
  rw [determinize, if_pos hempty, PatternTree.nullable_of_isEmpty hempty, halphabet] at heq
  exact ⟨_, heq, rfl⟩

/-- With positions but no end marker, the exploration finds no position to accept at. -/
theorem compileTokens_of_endMarker_notMem (hparse : PatternTree.parse tokens ∅ = (.ok (some t), arena₀))
    (hsize : (Token.symbols tokens).length < 2 ^ 32) {ch : Char} (hch : .literal ch ∈ tokens)
    (hend : .endMarker ∉ tokens) (name : String) :
    compileTokens tokens name = .error (.positionNotFound .endMarker) := by
  obtain ⟨arena, hfits, heq⟩ := compileTokens_eq_map hparse hsize name
  have hne : ¬ t.rootAttributes.firstpos.isEmpty = true := by
    rw [isEmpty_firstpos_iff hparse]
    exact List.ne_nil_of_mem (Token.char_mem_symbols.2 hch)
  have hmarker : arena.firstMatching? .endMarker = none := by
    refine hfits.indexed.firstMatching?_eq_none fun p hp => hend ?_
    exact Token.endMarker_mem_symbols.1 ((exists_symbol?_iff hparse hfits).1 ⟨p, hp⟩)
  rw [heq, determinize, if_neg hne, hmarker]
  rfl

/-- With an end marker, the first state stands for the positions that begin a word. -/
theorem exists_start_of_endMarker (hparse : PatternTree.parse tokens ∅ = (.ok (some t), arena₀))
    (hsize : (Token.symbols tokens).length < 2 ^ 32) (hend : .endMarker ∈ tokens) (name : String) :
    ∃ c start, compileTokens tokens name = .ok c ∧ c.tree = some t.annotated ∧ c.automaton.start = some start ∧
      c.automaton.label? start = some (.positions t.rootAttributes.firstpos) := by
  obtain ⟨c, e, hc, -, -, -, hm⟩ := exists_compileTokens hparse hsize hend name
  obtain ⟨arena, m, events, -, -, rfl⟩ := (compileTokens_eq_ok_iff hparse).1 hc
  exact ⟨_, 0, hc, rfl, hm.start_eq, hm.label_zero⟩

/-- What becomes of tokens whose positions can be numbered.  It is never a broken invariant and never a state for the
empty language.  No tokens have no states, and an error of the parser is passed on.  A tree gets its attributes, and one
in which no word begins with a position has the empty word; so from tokens with a tree comes one accepting state if they
have no position, an error if they have one but no end marker, and otherwise an automaton that starts at the positions
that begin a word, of which there is one. -/
theorem compileTokens_outcome (tokens : List Token) (name : String) (hsize : (Token.symbols tokens).length < 2 ^ 32) :
    (∀ cause, compileTokens tokens name ≠ .error (.brokenInvariant cause)) ∧
    (∀ c, compileTokens tokens name = .ok c → ∀ i, c.automaton.label? i ≠ some .emptyLanguage) ∧
    (tokens = [] → ∃ c, compileTokens tokens name = .ok c ∧ c.automaton.stateCount = 0 ∧ c.automaton.start = none) ∧
    (∀ e, (PatternTree.parse tokens ∅).1 = .error e → compileTokens tokens name = .error e) ∧
    ∀ t, (PatternTree.parse tokens ∅).1 = .ok (some t) → ∃ root a, t.withAttributes = .ok root ∧
      root.attributes = .ok a ∧
      (a.firstpos = ∅ → a.nullable = true) ∧
      ((∀ ch, .literal ch ∉ tokens) → .endMarker ∉ tokens → ∃ c, compileTokens tokens name = .ok c ∧
        c.automaton.labels = #[.epsilonOnly] ∧ c.automaton.start = some 0 ∧
        c.automaton.accepting = .ofList [(0, {name})] ∧ c.automaton.alphabet = ∅ ∧ c.automaton.transitions = []) ∧
      (∀ ch, .literal ch ∈ tokens → .endMarker ∉ tokens →
        compileTokens tokens name = .error (.positionNotFound .endMarker)) ∧
      (.endMarker ∈ tokens → a.firstpos ≠ ∅ ∧ ∃ c start, compileTokens tokens name = .ok c ∧ c.tree = some root ∧
        c.automaton.start = some start ∧ c.automaton.label? start = some (.positions a.firstpos)) := by
  refine ⟨compileTokens_ne_brokenInvariant hsize, fun c hc => compileTokens_ne_emptyLanguage hc, ?_,
    fun e he => compileTokens_of_error (Prod.ext he rfl), ?_⟩
  · rintro rfl
    exact ⟨_, rfl, rfl, rfl⟩
  · intro t ht
    have hparse : PatternTree.parse tokens ∅ = (.ok (some t), _) := Prod.ext ht rfl
    refine ⟨_, _, t.withAttributes_eq, t.attributes_annotated, fun hempty => ?_, fun hliteral hend => ?_,
      fun ch hch hend => ?_, fun hend => ⟨?_, ?_⟩⟩
    · exact PatternTree.nullable_of_isEmpty (OrderedSet.isEmpty_iff.2 hempty)
    · have hnil : Token.symbols tokens = [] := by
        refine List.eq_nil_iff_forall_not_mem.2 fun s hs => ?_
        cases s with
        | char ch => exact hliteral ch (Token.char_mem_symbols.1 hs)
        | endMarker => exact hend (Token.endMarker_mem_symbols.1 hs)
      obtain ⟨c, hc, hm⟩ := compileTokens_of_symbols_eq_nil hparse hnil name
      exact ⟨c, hc, hm ▸ ⟨rfl, rfl, rfl, rfl, rfl⟩⟩
    · exact compileTokens_of_endMarker_notMem hparse hsize hch hend name
    · intro hempty
      have hnil := (isEmpty_firstpos_iff hparse).1 (OrderedSet.isEmpty_iff.2 hempty)
      exact List.not_mem_nil (hnil ▸ Token.endMarker_mem_symbols.2 hend)
    · exact exists_start_of_endMarker hparse hsize hend name

/-- The empty word alone, a literal alone, and a literal before an end marker. -/
theorem compileTokens_outcome_each :
    (Token.symbols [.literal 'a', .concat, .endMarker]).length < 2 ^ 32 ∧
    (∃ c, compileTokens [.epsilon] "p" = .ok c ∧ c.automaton.labels = #[.epsilonOnly] ∧
      c.automaton.transitions = []) ∧
    compileTokens [.literal 'a'] "p" = .error (.positionNotFound .endMarker) ∧
    ∃ t root a c start, (PatternTree.parse [.literal 'a', .concat, .endMarker] ∅).1 = .ok (some t) ∧
      t.withAttributes = .ok root ∧ root.attributes = .ok a ∧ a.firstpos ≠ ∅ ∧
      compileTokens [.literal 'a', .concat, .endMarker] "p" = .ok c ∧ c.automaton.start = some start ∧
      c.automaton.label? start = some (.positions a.firstpos) := by
  refine ⟨by decide, ?_, ?_, ?_⟩
  · obtain ⟨-, -, -, -, h⟩ := compileTokens_outcome [.epsilon] "p" (by decide)
    obtain ⟨root, a, -, -, -, h, -, -⟩ := h _ rfl
    obtain ⟨c, hc, hlabels, -, -, -, htransitions⟩ := h (by simp) (by simp)
    exact ⟨c, hc, hlabels, htransitions⟩
  · obtain ⟨-, -, -, -, h⟩ := compileTokens_outcome [.literal 'a'] "p" (by decide)
    obtain ⟨root, a, -, -, -, -, h, -⟩ := h _ rfl
    exact h 'a' (by simp) (by simp)
  · obtain ⟨-, -, -, -, h⟩ := compileTokens_outcome [.literal 'a', .concat, .endMarker] "p" (by decide)
    obtain ⟨root, a, hroot, ha, -, -, -, h⟩ := h _ rfl
    obtain ⟨hne, c, start, hc, -, hstart, hlabel⟩ := h (by simp)
    exact ⟨_, root, a, c, start, rfl, hroot, ha, hne, hc, hstart, hlabel⟩

end PositionAutomaton
