import PositionAutomaton.Proofs.Compilation.Language
import PositionAutomaton.Proofs.PatternTree.Relinking
import PositionAutomaton.Proofs.Regex.Linearized

/-!
# Brackets leave no trace

Trees over the same positions with the same words are compiled to the same automaton (`compileTokens_of_matches_iff`).
So a pattern may be bracketed in any way that keeps its letters and the words over their numbers
(`ofPattern_sameLinearized`).
-/

namespace PositionAutomaton

/-! ### Trees with the same words -/

/-- Over the numbers of its positions, the tree of an expression is the expression with its letters numbered. -/
theorem PatternTree.idRegex_ofRegex (first : Nat) (r : Regex Symbol) :
    (ofRegex (.ofNat first) r).idRegex = (r.linearized first).map UInt32.ofNat := by
  induction r generalizing first with
  | letter | epsilon => rfl
  | concat left right ihl ihr | union left right ihl ihr =>
    simp only [ofRegex, idRegex, regex, Regex.linearized, Regex.map, ← UInt32.ofNat_add] at ihl ihr ⊢
    rw [ihl, ihr]
  | star body ih => exact congrArg Regex.star (ih first)

/-- Expressions with the same words over the numbers of their letters have trees with the same words. -/
theorem PatternTree.matches_ofRegex_iff {r s : Regex Symbol} (h : r.SameLinearized s) (w : List PositionId) :
    (ofRegex 1 r).Matches w ↔ (ofRegex 1 s).Matches w := by
  rw [matches_iff, matches_iff, show (1 : PositionId) = .ofNat 1 from rfl, idRegex_ofRegex, idRegex_ofRegex,
    Regex.matches_map_iff, Regex.matches_map_iff]
  simp only [h.matches_iff]

/-- Trees with the same words over the positions of an arena add the same links to it. -/
theorem PatternTree.linkPositions_eq {t u : PatternTree} {arena : Arena} (ht : t.Allocated arena)
    (hu : u.Allocated arena) (h : ∀ w, t.Matches w ↔ u.Matches w) :
    t.annotated.linkPositions arena = u.annotated.linkPositions arena := by
  obtain ⟨linked, hl, hlinked⟩ := linkPositions_extended ht
  obtain ⟨linked', hl', hlinked'⟩ := linkPositions_extended hu
  have hadjacent : ∀ p q, t.idRegex.Adjacent p q ↔ u.idRegex.Adjacent p q := fun p q =>
    exists_congr fun x => exists_congr fun y => h (x ++ p :: q :: y)
  rw [hl, hl', hlinked.eq_of_iff hlinked' hadjacent]

/-- Tokens whose trees have the same words in the same arena are compiled to the same automaton. -/
theorem compileTokens_of_matches_iff {tokens tokens' : List Token} {t u : PatternTree} {arena₀ : Arena} {name : String}
    {c : Compilation} (ht : PatternTree.parse tokens ∅ = (.ok (some t), arena₀))
    (hu : PatternTree.parse tokens' ∅ = (.ok (some u), arena₀)) (hsize : (Token.symbols tokens).length < 2 ^ 32)
    (hsize' : (Token.symbols tokens').length < 2 ^ 32) (h : ∀ w, t.Matches w ↔ u.Matches w)
    (hc : compileTokens tokens name = .ok c) :
    ∃ c', compileTokens tokens' name = .ok c' ∧ c'.automaton = c.automaton := by
  obtain ⟨arena, m, events, hlink, hexplore, rfl⟩ := (compileTokens_eq_ok_iff ht).1 hc
  rw [PatternTree.linkPositions_eq (allocated_of_parse ht hsize) (allocated_of_parse hu hsize') h] at hlink
  rw [PatternTree.rootAttributes_eq h] at hexplore
  exact ⟨_, (compileTokens_eq_ok_iff hu).2 ⟨_, _, _, hlink, hexplore, rfl⟩, rfl⟩

/-! ### Patterns and their parts -/

/-- The text writes the expression as a phrase of the grammar. -/
def WritesAs (φ : Phrase) (pattern : String) (r : Regex Symbol) : Prop :=
  ∃ ts, Token.scan pattern = .ok ts ∧ Derives φ ts r

/-- The pattern in parentheses. -/
def group (pattern : String) : String :=
  "(" ++ pattern ++ ")"

namespace WritesAs

variable {φ : Phrase} {P Q : String} {r s : Regex Symbol}

theorem of_atom (h : WritesAs .atom P r) (φ : Phrase) : WritesAs φ P r := by
  obtain ⟨ts, hts, h⟩ := h
  refine ⟨ts, hts, ?_⟩
  cases φ with
  | atom => exact h
  | factor => exact .atom h
  | term => exact .factor (.atom h)
  | union => exact .term (.factor (.atom h))

theorem epsilon : WritesAs .atom "ε" .epsilon :=
  ⟨_, rfl, .epsilon⟩

theorem group (h : WritesAs .union P r) : WritesAs .atom (group P) r := by
  obtain ⟨ts, hts, h⟩ := h
  exact ⟨_, Token.scan_append (Token.scan_append rfl hts) rfl, .group h⟩

theorem star (h : WritesAs .factor P r) : WritesAs .factor (P ++ "*") (.star r) := by
  obtain ⟨ts, hts, h⟩ := h
  exact ⟨_, Token.scan_append hts rfl, .star h⟩

theorem concat (hP : WritesAs .term P r) (hQ : WritesAs .factor Q s) : WritesAs .term (P ++ Q) (.concat r s) := by
  obtain ⟨ts, hts, hP⟩ := hP
  obtain ⟨us, hus, hQ⟩ := hQ
  exact ⟨_, Token.scan_append hts hus, .concat hP hQ⟩

theorem factor (h : WritesAs .factor P r) : WritesAs .term P r := by
  obtain ⟨ts, hts, h⟩ := h
  exact ⟨ts, hts, .factor h⟩

theorem term (h : WritesAs .term P r) : WritesAs .union P r := by
  obtain ⟨ts, hts, h⟩ := h
  exact ⟨ts, hts, .term h⟩

theorem union (hP : WritesAs .union P r) (hQ : WritesAs .term Q s) :
    WritesAs .union (P ++ "|" ++ Q) (.union r s) := by
  obtain ⟨ts, hts, hP⟩ := hP
  obtain ⟨us, hus, hQ⟩ := hQ
  refine ⟨_, Token.scan_append (Token.scan_append hts rfl) hus, ?_⟩
  simpa using Derives.union hP hQ

end WritesAs

/-- The patterns are compiled, under each name to one automaton. -/
def SameAutomaton (P Q : String) : Prop :=
  ∀ name, ∃ m, Automaton.ofPattern P name = .ok m ∧ Automaton.ofPattern Q name = .ok m

namespace SameAutomaton

variable {P Q R S T : String} {r s t : Regex Symbol}

/-- Patterns with the same letters, and the same words over their numbers, have the same automaton. -/
theorem of_sameLinearized (hP : WritesAs .union P r) (hQ : WritesAs .union Q s) (h : r.SameLinearized s)
    (hsize : r.letters.length ≤ 2 ^ 32 - 2) : SameAutomaton P Q := by
  intro name
  obtain ⟨ts, hts, hP⟩ := hP
  obtain ⟨us, hus, hQ⟩ := hQ
  have hmarked := h.concat_letter .endMarker
  have hparseP := hP.augmented.parse_eq ∅
  have hparseQ := hQ.augmented.parse_eq ∅
  rw [← hmarked.letters_eq] at hparseQ
  have hsizeP := hP.length_symbols_augmented_lt hsize
  have hsizeQ := hQ.length_symbols_augmented_lt (h.letters_eq ▸ hsize)
  obtain ⟨c, -, hc, -⟩ := exists_compileTokens hparseP hsizeP (Token.endMarker_mem_augmented ts) name
  obtain ⟨c', hc', hm⟩ := compileTokens_of_matches_iff hparseP hparseQ hsizeP hsizeQ
    (PatternTree.matches_ofRegex_iff hmarked) hc
  have hP' := (compile_eq_compileTokens hts (hP.pattern_ne_empty hts) name).trans hc
  have hQ' := (compile_eq_compileTokens hus (hQ.pattern_ne_empty hus) name).trans hc'
  exact ⟨c.automaton, map_eq_ok_iff.2 ⟨c, hP', rfl⟩, map_eq_ok_iff.2 ⟨c', hQ', hm⟩⟩

theorem concat_assoc (hR : WritesAs .union R r) (hS : WritesAs .union S s) (hT : WritesAs .union T t)
    (hsize : (r.letters ++ s.letters ++ t.letters).length ≤ 2 ^ 32 - 2) :
    SameAutomaton (group (group R ++ group S) ++ group T) (group R ++ group (group S ++ group T)) := by
  have hRS := (hR.group.of_atom .term).concat (hS.group.of_atom .factor)
  have hST := (hS.group.of_atom .term).concat (hT.group.of_atom .factor)
  have hleft := (hRS.term.group.of_atom .term).concat (hT.group.of_atom .factor)
  have hright := (hR.group.of_atom .term).concat (hST.term.group.of_atom .factor)
  exact of_sameLinearized hleft.term hright.term (.concat_assoc r s t) hsize

theorem union_assoc (hR : WritesAs .union R r) (hS : WritesAs .union S s) (hT : WritesAs .union T t)
    (hsize : (r.letters ++ s.letters ++ t.letters).length ≤ 2 ^ 32 - 2) :
    SameAutomaton (group (group R ++ "|" ++ group S) ++ "|" ++ group T)
      (group R ++ "|" ++ group (group S ++ "|" ++ group T)) := by
  have hRS := (hR.group.of_atom .union).union (hS.group.of_atom .term)
  have hST := (hS.group.of_atom .union).union (hT.group.of_atom .term)
  have hleft := (hRS.group.of_atom .union).union (hT.group.of_atom .term)
  have hright := (hR.group.of_atom .union).union (hST.group.of_atom .term)
  exact of_sameLinearized hleft hright (.union_assoc r s t) hsize

theorem star_star (hR : WritesAs .union R r) (hsize : r.letters.length ≤ 2 ^ 32 - 2) :
    SameAutomaton (group (group R ++ "*") ++ "*") (group R ++ "*") := by
  have hstar := (hR.group.of_atom .factor).star.factor.term
  have htwice := (hstar.group.of_atom .factor).star.factor.term
  exact of_sameLinearized htwice hstar (.star_star r) hsize

theorem self_group (hR : WritesAs .union R r) (hsize : r.letters.length ≤ 2 ^ 32 - 2) : SameAutomaton R (group R) :=
  of_sameLinearized hR (hR.group.of_atom .union) (.refl r) hsize

theorem concat_epsilon (hR : WritesAs .union R r) (hsize : r.letters.length ≤ 2 ^ 32 - 2) :
    SameAutomaton (group R ++ "ε") R := by
  have hconcat := (hR.group.of_atom .term).concat (WritesAs.epsilon.of_atom .factor)
  refine of_sameLinearized hconcat.term hR (.concat_epsilon r) ?_
  rwa [(Regex.SameLinearized.concat_epsilon r).letters_eq]

theorem epsilon_concat (hR : WritesAs .union R r) (hsize : r.letters.length ≤ 2 ^ 32 - 2) :
    SameAutomaton ("ε" ++ group R) R := by
  have hconcat := (WritesAs.epsilon.of_atom .term).concat (hR.group.of_atom .factor)
  exact of_sameLinearized hconcat.term hR (.epsilon_concat r) hsize

end SameAutomaton

/-- The automaton of a pattern depends only on its letters and on the words over their numbers.  So it does not depend
on how a concatenation or a union of three patterns is bracketed, on a second star, on parentheses around the pattern,
or on the empty word beside it. -/
theorem ofPattern_sameLinearized :
    (∀ P Q r s, WritesAs .union P r → WritesAs .union Q s → r.SameLinearized s → r.letters.length ≤ 2 ^ 32 - 2 →
      SameAutomaton P Q) ∧
    (∀ R S T r s t, WritesAs .union R r → WritesAs .union S s → WritesAs .union T t →
      (r.letters ++ s.letters ++ t.letters).length ≤ 2 ^ 32 - 2 →
      SameAutomaton (group (group R ++ group S) ++ group T) (group R ++ group (group S ++ group T)) ∧
      SameAutomaton (group (group R ++ "|" ++ group S) ++ "|" ++ group T)
        (group R ++ "|" ++ group (group S ++ "|" ++ group T))) ∧
    ∀ R r, WritesAs .union R r → r.letters.length ≤ 2 ^ 32 - 2 →
      SameAutomaton (group (group R ++ "*") ++ "*") (group R ++ "*") ∧ SameAutomaton R (group R) ∧
      SameAutomaton (group R ++ "ε") R ∧ SameAutomaton ("ε" ++ group R) R := by
  refine ⟨fun P Q r s => .of_sameLinearized, fun R S T r s t hR hS hT hsize => ?_, fun R r hR hsize => ?_⟩
  · exact ⟨.concat_assoc hR hS hT hsize, .union_assoc hR hS hT hsize⟩
  · exact ⟨.star_star hR hsize, .self_group hR hsize, .concat_epsilon hR hsize, .epsilon_concat hR hsize⟩

/-- Rounds of `a*b*` and rounds of `a|b` are the same over the numbers of the letters. -/
theorem ofPattern_sameLinearized_rounds :
    (∃ r s, WritesAs .union "(a*b*)*" r ∧ WritesAs .union "(a|b)*" s ∧ r.SameLinearized s ∧
      r.letters.length ≤ 2 ^ 32 - 2 ∧ SameAutomaton "(a*b*)*" "(a|b)*") ∧
    (∃ r s, WritesAs .union "(a*b*)*" r ∧ WritesAs .union "(a|b)*" s ∧
      (r.letters ++ s.letters ++ s.letters).length ≤ 2 ^ 32 - 2 ∧
      SameAutomaton (group (group "(a*b*)*" ++ group "(a|b)*") ++ group "(a|b)*")
        (group "(a*b*)*" ++ group (group "(a|b)*" ++ group "(a|b)*"))) ∧
    ∃ r, WritesAs .union "(a*b*)*" r ∧ r.letters.length ≤ 2 ^ 32 - 2 ∧
      SameAutomaton (group (group "(a*b*)*" ++ "*") ++ "*") (group "(a*b*)*" ++ "*") := by
  have hletter : ∀ c, Derives .factor [.literal c] (.letter (.char c)) := fun c => .atom (.literal c)
  have hstars := Derives.concat (.factor (.star (hletter 'a'))) (.star (hletter 'b'))
  have hunion := Derives.union (.term (.factor (hletter 'a'))) (.factor (hletter 'b'))
  have hrounds : WritesAs .union "(a*b*)*" _ := ⟨_, rfl, .term (.factor (.star (.atom (.group (.term hstars)))))⟩
  have hchoices : WritesAs .union "(a|b)*" _ := ⟨_, rfl, .term (.factor (.star (.atom (.group hunion))))⟩
  refine ⟨⟨_, _, hrounds, hchoices, .star_concat_star _ _, by decide, ?_⟩,
    ⟨_, _, hrounds, hchoices, by decide, ?_⟩, ⟨_, hrounds, by decide, ?_⟩⟩
  · exact ofPattern_sameLinearized.1 _ _ _ _ hrounds hchoices (.star_concat_star _ _) (by decide)
  · exact (ofPattern_sameLinearized.2.1 _ _ _ _ _ _ hrounds hchoices hchoices (by decide)).1
  · exact (ofPattern_sameLinearized.2.2 _ _ hrounds (by decide)).1

end PositionAutomaton
