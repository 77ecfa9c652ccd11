import PositionAutomaton.Proofs.Compilation.Language

/-!
# No state is dead

In the automaton of a pattern every state lies on a walk from the start to an accepting state, every position and every
character of the alphabet is of use, and a walk breaks off as soon as no word goes on (`compile_useful`).  An expression
always has a word, so whatever may come next can be completed to one (`exists_completion`).
-/

namespace PositionAutomaton

namespace PatternTree.Augments

variable {t : PatternTree} {arena : Arena} {r : Regex Symbol}

/-! ### Completing a word -/

/-- Before any position of a word of the tree stand the characters that begin a word of the expression. -/
theorem exists_word_of_matches_around (h : t.Augments arena r) {ps rest : List PositionId} {q : PositionId}
    (hm : t.Matches (ps ++ q :: rest)) :
    ∃ w v : List Char, r.Matches ((w ++ v).map .char) ∧ ps.map arena.symbol? = w.map fun c => some (.char c) := by
  obtain ⟨u, hu, hids⟩ := h.exists_word_of_matches hm
  rw [List.map_append] at hids
  -- the position stands within the characters of the word, or it is the end marker behind them
  rcases List.append_eq_append_iff.1 hids with ⟨symbols, hword, -⟩ | ⟨symbols, hps, hlast⟩
  · obtain ⟨w, v, rfl, hw, -⟩ := List.map_eq_append_iff.1 hword
    exact ⟨w, v, hu, hw.symm⟩
  · obtain ⟨rfl, -⟩ : symbols = [] ∧ _ := by simpa [List.cons_eq_append_iff] using hlast
    exact ⟨u, [], by rwa [List.append_nil], hps.trans (List.append_nil _)⟩

/-- A word after which some position may come next begins a word of the expression. -/
theorem exists_completion (h : t.Augments arena r) {w : List Char} {q : PositionId} (hq : t.NextAfter arena w q) :
    ∃ v, r.Matches ((w ++ v).map .char) := by
  obtain ⟨ps, rest, hm, hps⟩ := hq
  obtain ⟨w', v, hv, hps'⟩ := h.exists_word_of_matches_around hm
  obtain rfl : w = w' := map_char_injective (hps.symm.trans hps')
  exact ⟨v, hv⟩

/-- Every position may come next after some word. -/
theorem exists_nextAfter (h : t.Augments arena r) {p : PositionId} (hp : p ∈ t.idRegex.letters) :
    ∃ w, t.NextAfter arena w p := by
  obtain ⟨ps, rest, hm⟩ := Regex.exists_matches_around hp
  obtain ⟨w, -, -, hps⟩ := h.exists_word_of_matches_around hm
  exact ⟨w, ps, rest, hm, hps⟩

/-- After a position of a character another position comes next. -/
theorem exists_nextAfter_concat (h : t.Augments arena r) {p : PositionId} {c : Char}
    (hp : arena.symbol? p = some (.char c)) : ∃ w q, t.NextAfter arena (w ++ [c]) q := by
  obtain ⟨x, hx, -⟩ := Arena.symbol?_eq_some_iff.1 hp
  obtain ⟨ps, rest, hm⟩ := Regex.exists_matches_around (h.fits.mem_letters hx)
  obtain ⟨w, -, -, hps⟩ := h.exists_word_of_matches_around hm
  cases rest with
  | nil =>
    -- the last position of a word is the end marker
    obtain ⟨u, -, hids⟩ := h.exists_word_of_matches hm
    rw [List.map_append, List.map_singleton, hp] at hids
    have := (List.append_inj' hids rfl).2
    simp at this
  | cons q rest =>
    refine ⟨w, q, ps ++ [p], rest, ?_, by simp [hps, hp]⟩
    rwa [List.append_assoc]

/-! ### States, positions and characters -/

section Expanded

variable {m : Automaton} {e : PositionId} {name : String}

/-- There is a walk over a word exactly if the word begins a word of the expression. -/
theorem isSome_run?_iff (h : t.Augments arena r) (he : arena.symbol? e = some .endMarker)
    (hm : m.Expanded arena e name t.rootAttributes.firstpos) (w : List Char) :
    (m.run? 0 w).isSome = true ↔ ∃ v, r.Matches ((w ++ v).map .char) := by
  constructor
  · intro hw
    obtain ⟨q, hq⟩ := (h.fits.isSome_run?_iff hm w).1 hw
    exact h.exists_completion hq
  · intro hw
    -- the walk over the whole word starts with a walk over its beginning
    obtain ⟨v, hv⟩ := hw
    have haccepts := (h.accepts_iff he hm (w ++ v)).2 hv
    obtain ⟨s, hs, -⟩ := (Automaton.accepts_iff hm.start_eq _).1 haccepts
    rw [Automaton.run?_append] at hs
    obtain ⟨s', hs', -⟩ := Option.bind_eq_some_iff.1 hs
    rw [hs']
    rfl

/-- Every state reaches an accepting state. -/
theorem exists_run?_isFinal (h : t.Augments arena r) (he : arena.symbol? e = some .endMarker)
    (hm : m.Expanded arena e name t.rootAttributes.firstpos) {s : Nat} (hs : s < m.stateCount) :
    ∃ w s', m.run? s w = some s' ∧ m.isFinal s' = true := by
  obtain ⟨w, hw⟩ := hm.exists_run? hs
  have hsome : (m.run? 0 w).isSome = true := by
    rw [hw]
    rfl
  obtain ⟨v, hv⟩ := (h.isSome_run?_iff he hm w).1 hsome
  have haccepts := (h.accepts_iff he hm (w ++ v)).2 hv
  obtain ⟨s', hs', hfinal⟩ := (Automaton.accepts_iff hm.start_eq _).1 haccepts
  rw [Automaton.run?_append, hw] at hs'
  exact ⟨v, s', hs', hfinal⟩

/-- Every position is in the label of some state. -/
theorem exists_label? (h : t.Augments arena r) (hm : m.Expanded arena e name t.rootAttributes.firstpos)
    {p : PositionId} (hp : (arena.get? p).isSome = true) :
    ∃ s set, m.label? s = some (.positions set) ∧ p ∈ set := by
  obtain ⟨x, hx⟩ := Option.isSome_iff_exists.1 hp
  obtain ⟨w, hw⟩ := h.exists_nextAfter (h.fits.mem_letters hx)
  have hmem := (h.fits.mem_successors w).2 hw
  have hne := OrderedSet.isEmpty_eq_false_iff.2 ⟨p, hmem⟩
  obtain ⟨s, -, hs⟩ := hm.run?_of_ne_empty hm.label_zero hne
  exact ⟨s, _, hs, hmem⟩

/-- The alphabet holds the characters of the expression. -/
theorem mem_alphabet_iff (h : t.Augments arena r) (hm : m.Expanded arena e name t.rootAttributes.firstpos) {d : Char} :
    d ∈ m.alphabet ↔ .char d ∈ r.letters := by
  have hletters : .char d ∈ r.letters ↔ .char d ∈ t.regex.letters.map Prod.snd := by
    rw [h.map_snd_letters]
    simp
  rw [hm.alphabet_eq, h.fits.indexed.mem_alphabet, hletters, List.mem_map]
  constructor
  · intro hd
    obtain ⟨p, hp⟩ := hd
    exact ⟨_, h.fits.mem_regex_letters hp, rfl⟩
  · intro hd
    obtain ⟨x, hx, hs⟩ := hd
    exact ⟨x.1, hs ▸ h.fits.symbol?_eq hx⟩

/-- Every character of the alphabet is on some transition. -/
theorem exists_next? (h : t.Augments arena r) (hm : m.Expanded arena e name t.rootAttributes.firstpos) {d : Char}
    (hd : d ∈ m.alphabet) : ∃ s s', m.next? s d = some s' := by
  rw [hm.alphabet_eq, h.fits.indexed.mem_alphabet] at hd
  obtain ⟨p, hp⟩ := hd
  obtain ⟨w, q, hq⟩ := h.exists_nextAfter_concat hp
  have hsome := (h.fits.isSome_run?_iff hm (w ++ [d])).2 ⟨q, hq⟩
  obtain ⟨s', hs'⟩ := Option.isSome_iff_exists.1 hsome
  -- the last step of this walk is on the character
  rw [Automaton.run?_append] at hs'
  obtain ⟨s, -, hs⟩ := Option.bind_eq_some_iff.1 hs'
  obtain ⟨s'', hnext, -⟩ := Option.bind_eq_some_iff.1 hs
  exact ⟨s, s'', hnext⟩

end Expanded

end PatternTree.Augments

/-- The automaton of a pattern has no useless part: every state is reached from the start and reaches an accepting
state, every position is in the label of some state, the alphabet holds the literals of the pattern, each of them on
some transition, and there is a walk over a word exactly if the word begins a word of the expression. -/
theorem compile_useful {pattern : String} {ts : List Token} {r : Regex Symbol} (hscan : Token.scan pattern = .ok ts)
    (h : Derives .union ts r) (hsize : r.letters.length ≤ 2 ^ 32 - 2) (name : String) :
    ∃ (c : Compilation) (start : Nat), compile pattern name = .ok c ∧
      Automaton.ofPattern pattern name = .ok c.automaton ∧ c.automaton.start = some start ∧
      (∀ s < c.automaton.stateCount, ∃ w, c.automaton.run? start w = some s) ∧
      (∀ s < c.automaton.stateCount, ∃ w s', c.automaton.run? s w = some s' ∧ c.automaton.isFinal s' = true) ∧
      (∀ p, (c.arena.get? p).isSome = true → ∃ s set, c.automaton.label? s = some (.positions set) ∧ p ∈ set) ∧
      (∀ d, d ∈ c.automaton.alphabet ↔ .literal d ∈ ts) ∧
      (∀ d ∈ c.automaton.alphabet, ∃ s s', c.automaton.next? s d = some s') ∧
      ∀ w, (c.automaton.run? start w).isSome = true ↔ ∃ v, r.Matches ((w ++ v).map .char) := by
  obtain ⟨c, t, e, hc, ht, he, hm⟩ := exists_compilation hscan h hsize name
  have hautomaton : Automaton.ofPattern pattern name = .ok c.automaton := map_eq_ok_iff.2 ⟨c, hc, rfl⟩
  refine ⟨c, 0, hc, hautomaton, hm.start_eq, ?_, ?_, ?_, ?_, ?_, ht.isSome_run?_iff he hm⟩
  · intro s hs
    exact hm.exists_run? hs
  · intro s hs
    exact ht.exists_run?_isFinal he hm hs
  · intro p hp
    exact ht.exists_label? hm hp
  · intro d
    rw [ht.mem_alphabet_iff hm, h.letters_eq, Token.char_mem_symbols]
  · intro d hd
    exact ht.exists_next? hm hd

/-- The automaton of `ab*`. -/
theorem compile_useful_tail : Token.scan "ab*" = .ok [.literal 'a', .literal 'b', .star] ∧
    ∃ (c : Compilation) (start : Nat), compile "ab*" "p" = .ok c ∧
      Automaton.ofPattern "ab*" "p" = .ok c.automaton ∧ c.automaton.start = some start ∧
      (∀ s < c.automaton.stateCount, ∃ w, c.automaton.run? start w = some s) ∧
      (∀ s < c.automaton.stateCount, ∃ w s', c.automaton.run? s w = some s' ∧ c.automaton.isFinal s' = true) ∧
      (∀ p, (c.arena.get? p).isSome = true → ∃ s set, c.automaton.label? s = some (.positions set) ∧ p ∈ set) ∧
      (∀ d, d ∈ c.automaton.alphabet ↔ .literal d ∈ [Token.literal 'a', .literal 'b', .star]) ∧
      (∀ d ∈ c.automaton.alphabet, ∃ s s', c.automaton.next? s d = some s') ∧
      ∀ w, (c.automaton.run? start w).isSome = true ↔
        ∃ v, Regex.Matches (.concat (.letter (.char 'a')) (.star (.letter (.char 'b')))) ((w ++ v).map Symbol.char) := by
  have hterm : Derives .term [.literal 'a', .literal 'b', .star]
      (.concat (.letter (.char 'a')) (.star (.letter (.char 'b')))) :=
    .concat (.factor (.atom (.literal 'a'))) (.star (.atom (.literal 'b')))
  exact ⟨rfl, compile_useful rfl (.term hterm) (by decide) "p"⟩

end PositionAutomaton
