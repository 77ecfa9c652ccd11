import PositionAutomaton.Proofs.Compilation.Passes
import PositionAutomaton.Proofs.Token.Scanning

/-!
# The language of a compiled pattern

The automaton of a pattern accepts the words of the expression that the pattern writes (`compile_language`).  The tree
of a pattern is that of its expression with one end marker behind it, so after a word of the expression, and only there,
the end marker may come next (`nextAfter_endMarker_iff`).
-/

namespace PositionAutomaton

/-- The text writes the expression; the empty text writes the empty word. -/
def Writes (pattern : String) (r : Regex Symbol) : Prop :=
  pattern = "" ∧ r = .epsilon ∨ ∃ ts, Token.scan pattern = .ok ts ∧ Derives .union ts r

/-! ### The end marker of a pattern -/

theorem Token.endMarker_mem_augmented (ts : List Token) : .endMarker ∈ augmented ts := by
  rw [augmented, insertConcats_eq_joinAfter, mem_joinAfter (by simp)]
  simp

theorem Token.symbols_augmented (ts : List Token) : symbols (augmented ts) = symbols ts ++ [.endMarker] := by
  rw [augmented, symbols_insertConcats, List.cons_append, symbols_cons, symbols_append]
  rfl

/-- With at most `2 ^ 32 - 2` literals, there are numbers for their positions and that of the end marker. -/
theorem Token.length_symbols_augmented_lt {ts : List Token} (hsize : (symbols ts).length ≤ 2 ^ 32 - 2) :
    (symbols (augmented ts)).length < 2 ^ 32 := by
  rw [symbols_augmented, List.length_append, List.length_singleton]
  omega

/-- In parentheses and followed by the end marker, a pattern writes its expression and the end marker. -/
theorem Derives.augmented {ts : List Token} {r : Regex Symbol} (h : Derives .union ts r) :
    Derives .union (.openParen :: ts ++ [.closeParen, .endMarker]) (.concat r (.letter .endMarker)) := by
  have := Derives.concat (.factor (.atom (.group h))) (.atom .endMarker)
  simpa using Derives.term this

/-- A word is determined by the symbols that match it. -/
theorem map_char_injective : Function.Injective (List.map fun c => some (Symbol.char c)) :=
  List.map_injective_iff.2 fun a b h => by simpa using h

section EndMarker

variable {t : PatternTree} {arena : Arena} {r : Regex Symbol} {e : PositionId}

/-- The words of the expression with the end marker behind it. -/
private theorem matches_concat_endMarker_iff {w : List Symbol} :
    Regex.Matches (.concat r (.letter .endMarker)) w ↔ ∃ u, w = u ++ [.endMarker] ∧ r.Matches u := by
  rw [Regex.matches_concat_iff]
  simp only [Regex.matches_letter_iff]
  grind

/-- Symbols without an end marker are characters. -/
private theorem exists_chars {u : List Symbol} (hu : .endMarker ∉ u) : ∃ w : List Char, u = w.map .char := by
  induction u with
  | nil => exact ⟨[], rfl⟩
  | cons s u ih =>
    obtain ⟨hs, hu⟩ := not_or.1 (List.mem_cons.not.1 hu)
    obtain ⟨w, rfl⟩ := ih hu
    cases s with
    | char c => exact ⟨c :: w, rfl⟩
    | endMarker => exact absurd rfl hs

/-- The tree of the expression with one end marker behind it, in its arena. -/
structure PatternTree.Augments (t : PatternTree) (arena : Arena) (r : Regex Symbol) : Prop where
  fits : t.Fits arena
  regex_eq : t.regex.map Prod.snd = .concat r (.letter .endMarker)
  endMarker_notMem : .endMarker ∉ r.letters

namespace PatternTree.Augments

/-- The symbols of a word of the tree are the characters of a word of the expression, and the end marker. -/
theorem exists_word_of_matches (h : t.Augments arena r) {ids : List PositionId} (hm : t.Matches ids) :
    ∃ w : List Char, r.Matches (w.map .char) ∧
      ids.map arena.symbol? = w.map (fun c => some (.char c)) ++ [some .endMarker] := by
  obtain ⟨v, hv, rfl⟩ := Regex.matches_map_iff.1 hm
  obtain ⟨u, hvu, hu⟩ := matches_concat_endMarker_iff.1 (h.regex_eq ▸ hv.map Prod.snd)
  obtain ⟨w, rfl⟩ := exists_chars fun hmem => h.endMarker_notMem (hu.subset_letters _ hmem)
  refine ⟨w, hu, ?_⟩
  rw [h.fits.map_symbol? hv.subset_letters, hvu]
  simp

/-- Every word of the expression is spelled by a word of the tree. -/
theorem exists_matches_of_word (h : t.Augments arena r) {w : List Char} (hw : r.Matches (w.map .char)) :
    ∃ ids, t.Matches ids ∧ ids.map arena.symbol? = w.map (fun c => some (.char c)) ++ [some .endMarker] := by
  have hm : (t.regex.map Prod.snd).Matches (w.map .char ++ [.endMarker]) :=
    h.regex_eq ▸ matches_concat_endMarker_iff.2 ⟨_, rfl, hw⟩
  obtain ⟨v, hv, hvw⟩ := Regex.matches_map_iff.1 hm
  refine ⟨v.map Prod.fst, hv.map Prod.fst, ?_⟩
  rw [h.fits.map_symbol? hv.subset_letters, hvw]
  simp

theorem map_snd_letters (h : t.Augments arena r) : t.regex.letters.map Prod.snd = r.letters ++ [.endMarker] := by
  rw [← Regex.letters_map, h.regex_eq]
  rfl

/-- There is one end marker. -/
theorem eq_of_symbol?_endMarker (h : t.Augments arena r) {p q : PositionId}
    (hp : arena.symbol? p = some .endMarker) (hq : arena.symbol? q = some .endMarker) : p = q := by
  obtain ⟨v, last, hv, hvr, hlast⟩ := List.map_eq_append_iff.1 h.map_snd_letters
  obtain ⟨x, rfl, -⟩ := List.map_eq_singleton_iff.1 hlast
  have hx : ∀ {p}, arena.symbol? p = some .endMarker → (p, .endMarker) = x := by
    intro p hp
    have hmem := h.fits.mem_regex_letters hp
    rw [hv, List.mem_append, List.mem_singleton] at hmem
    exact hmem.resolve_left fun hpv => h.endMarker_notMem (hvr ▸ List.mem_map_of_mem hpv)
  exact congrArg Prod.fst ((hx hp).trans (hx hq).symm)

/-- After a word of the expression, and only there, the end marker may come next. -/
theorem nextAfter_endMarker_iff (h : t.Augments arena r) (he : arena.symbol? e = some .endMarker) (w : List Char) :
    t.NextAfter arena w e ↔ r.Matches (w.map .char) := by
  constructor
  · intro hnext
    obtain ⟨ps, rest, hm, hps⟩ := hnext
    obtain ⟨w', hw', hids⟩ := h.exists_word_of_matches hm
    rw [List.map_append, hps, List.map_cons, he] at hids
    -- the end marker stands behind all characters, so the characters before it are the whole word
    rcases append_cons_eq_append hids with ⟨v, hv, -⟩ | ⟨v, hv, hlast⟩
    · have : some Symbol.endMarker ∈ w'.map fun c => some (Symbol.char c) := hv ▸ by simp
      simp at this
    · obtain ⟨rfl, -⟩ : v = [] ∧ rest = [] := by simpa [List.cons_eq_append_iff] using hlast
      rwa [map_char_injective (hv.trans (List.append_nil _))]
  · intro hw
    obtain ⟨ids, hm, hids⟩ := h.exists_matches_of_word hw
    obtain ⟨ps, last, rfl, hps, hlast⟩ := List.map_eq_append_iff.1 hids
    obtain ⟨q, rfl, hq⟩ := List.map_eq_singleton_iff.1 hlast
    obtain rfl := h.eq_of_symbol?_endMarker hq he
    exact ⟨ps, [], hm, hps⟩

/-- An automaton of the tree accepts the words of the expression. -/
theorem accepts_iff (h : t.Augments arena r) (he : arena.symbol? e = some .endMarker) {m : Automaton} {name : String}
    (hm : m.Expanded arena e name t.rootAttributes.firstpos) (w : List Char) :
    m.accepts w = true ↔ r.Matches (w.map .char) := by
  rw [h.fits.accepts_iff hm, h.nextAfter_endMarker_iff he]

end PatternTree.Augments

end EndMarker

/-! ### Compiling a pattern -/

section Pattern

variable {pattern : String} {ts : List Token} {r : Regex Symbol}

/-- Scanned tokens have no end marker, so neither has their expression. -/
theorem Derives.endMarker_notMem_letters (h : Derives .union ts r) (hscan : Token.scan pattern = .ok ts) :
    .endMarker ∉ r.letters := by
  rw [h.letters_eq, Token.endMarker_mem_symbols]
  exact fun hmem => (Token.ne_of_mem_scan hscan _ hmem).2 rfl

/-- A text that is not empty is compiled from its augmented tokens. -/
theorem compile_eq_bind (hne : pattern ≠ "") (name : String) :
    compile pattern name = Token.scan pattern >>= fun ts => compileTokens (Token.augmented ts) name := by
  rw [compile, if_neg (fun hempty => hne (String.isEmpty_iff.1 hempty)), Token.scanAugmented]
  cases Token.scan pattern <;> rfl

theorem compile_eq_compileTokens (hscan : Token.scan pattern = .ok ts) (hne : pattern ≠ "") (name : String) :
    compile pattern name = compileTokens (Token.augmented ts) name := by
  rw [compile_eq_bind hne, hscan]
  rfl

/-- What is compiled is empty, or the compilation of its augmented tokens. -/
theorem eq_empty_or_exists_scan {name : String} {c : Compilation} (h : compile pattern name = .ok c) :
    pattern = "" ∨ ∃ ts, Token.scan pattern = .ok ts ∧ compileTokens (Token.augmented ts) name = .ok c := by
  by_cases hne : pattern = ""
  · exact Or.inl hne
  · exact Or.inr (bind_eq_ok_iff.1 (compile_eq_bind hne name ▸ h))

theorem Derives.pattern_ne_empty (h : Derives .union ts r) (hscan : Token.scan pattern = .ok ts) : pattern ≠ "" := by
  rintro rfl
  cases hscan
  obtain ⟨t, us, hnil, -⟩ := h.exists_cons
  cases hnil

theorem Derives.length_symbols_augmented_lt (h : Derives .union ts r) (hsize : r.letters.length ≤ 2 ^ 32 - 2) :
    (Token.symbols (Token.augmented ts)).length < 2 ^ 32 :=
  Token.length_symbols_augmented_lt (h.letters_eq ▸ hsize)

/-- A pattern with at most `2 ^ 32 - 2` literals is compiled, from the tree of its expression and the end marker. -/
theorem exists_compilation (hscan : Token.scan pattern = .ok ts) (h : Derives .union ts r)
    (hsize : r.letters.length ≤ 2 ^ 32 - 2) (name : String) :
    ∃ (c : Compilation) (t : PatternTree) (e : PositionId), compile pattern name = .ok c ∧
      t.Augments c.arena r ∧ c.arena.symbol? e = some .endMarker ∧
      c.automaton.Expanded c.arena e name t.rootAttributes.firstpos := by
  have hend : .endMarker ∈ Token.augmented ts := Token.endMarker_mem_augmented ts
  obtain ⟨c, e, hc, hfits, he, -, hm⟩ :=
    exists_compileTokens (h.augmented.parse_eq ∅) (h.length_symbols_augmented_lt hsize) hend name
  have hregex := PatternTree.map_snd_regex_ofRegex (∅ : Arena).nextId (.concat r (.letter .endMarker))
  refine ⟨c, _, e, ?_, ⟨hfits, hregex, h.endMarker_notMem_letters hscan⟩, he, hm⟩
  exact (compile_eq_compileTokens hscan (h.pattern_ne_empty hscan) name).trans hc

/-- The automaton of the empty pattern accepts the empty word only. -/
theorem accepts_ofEmptyPattern (name : String) (w : List Char) :
    (Automaton.ofEmptyPattern name).accepts w = true ↔ w = [] := by
  cases w with
  | nil => exact iff_of_true rfl rfl
  | cons c w =>
    have hreject : (Automaton.ofEmptyPattern name).accepts (c :: w) = false := rfl
    simp [hreject]

theorem namesAt?_ofEmptyPattern (name : String) (s : Nat) :
    (Automaton.ofEmptyPattern name).namesAt? s = if s = 0 then some {name} else none :=
  Automaton.namesAt?_markAccepting (m := (Automaton.empty.internState .epsilonOnly).2.withStart 0) Nat.one_pos name s

/-- The automaton of a pattern accepts the words of the expression that the pattern writes, for the name of the
pattern. -/
theorem compile_language (h : Writes pattern r) (hsize : r.letters.length ≤ 2 ^ 32 - 2) (name : String) :
    ∃ c, compile pattern name = .ok c ∧
      (∀ w, c.automaton.accepts w = true ↔ r.Matches (w.map .char)) ∧
      ∀ s, c.automaton.isFinal s = true → c.automaton.namesAt? s = some {name} := by
  rcases h with ⟨rfl, rfl⟩ | ⟨ts, hscan, h⟩
  · refine ⟨_, rfl, fun w => ?_, fun s hs => ?_⟩
    · rw [accepts_ofEmptyPattern, Regex.matches_epsilon_iff, List.map_eq_nil_iff]
    · change (Automaton.namesAt? _ s).isSome = true at hs
      show (Automaton.ofEmptyPattern name).namesAt? s = _
      rw [namesAt?_ofEmptyPattern] at hs ⊢
      split at hs
      · exact if_pos ‹_›
      · cases hs
  · obtain ⟨c, t, e, hc, ht, he, hm⟩ := exists_compilation hscan h hsize name
    exact ⟨c, hc, ht.accepts_iff he hm, fun s hs => hm.namesAt?_of_isFinal hs⟩

/-- The words over `a` and `b` that end with `a`. -/
theorem compile_language_ending : ∃ r, Writes "(a|b)*a" r ∧ r.letters.length ≤ 2 ^ 32 - 2 ∧
    ∃ c, compile "(a|b)*a" "p" = .ok c ∧
      (∀ w, c.automaton.accepts w = true ↔ r.Matches (w.map .char)) ∧
      ∀ s, c.automaton.isFinal s = true → c.automaton.namesAt? s = some {"p"} := by
  have hunion : Derives .union [.literal 'a', .union, .literal 'b']
      (.union (.letter (.char 'a')) (.letter (.char 'b'))) :=
    .union (.term (.factor (.atom (.literal 'a')))) (.factor (.atom (.literal 'b')))
  have hwrites : Writes "(a|b)*a" _ :=
    Or.inr ⟨_, rfl, .term (.concat (.factor (.star (.atom (.group hunion)))) (.atom (.literal 'a')))⟩
  exact ⟨_, hwrites, by decide, compile_language hwrites (by decide) "p"⟩

end Pattern

end PositionAutomaton
