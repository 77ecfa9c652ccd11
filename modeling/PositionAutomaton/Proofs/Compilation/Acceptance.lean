import PositionAutomaton.Proofs.Compilation.Language
import PositionAutomaton.Proofs.Parser.Defects

/-!
# Which patterns are compiled

A pattern is compiled if its tokens are a pattern of the grammar in parentheses (`compile_isOk_iff`).  That is more than
the patterns of the grammar: parentheses that the text does not open itself can pair up with those around it, as in
`a)|(b`, and only then is a text compiled that is no pattern.  Every other text is rejected for what it is.
-/

namespace PositionAutomaton

/-- At some place more parentheses have been closed than opened. -/
def Token.Overclosed (ts : List Token) : Prop :=
  ∃ p, p <+: ts ∧ p.count .openParen < p.count .closeParen

/-- In parentheses the tokens are a pattern. -/
def Token.IsGroup (ts : List Token) : Prop :=
  ∃ r, Derives .union (.openParen :: ts ++ [.closeParen]) r

/-- What a text is rejected for: a character that stands for nothing where it is scanned, or else a defect of its tokens
in the order in which they are read.  The defect is in the parentheses, an operator without an operand, or a shorthand that
is among the tokens; operands are never left over. -/
def Rejected (pattern : String) (e : CompileError) : Prop :=
  (∃ c i, Token.scan pattern = .error e ∧ e = .unknownToken c i) ∨
    ∃ ts, Token.scan pattern = .ok ts ∧ Token.Defect (Token.augmented ts) e ∧
      ((∃ i, e = .unmatchedCloseParen i) ∨ e = .unclosedOpenParen ∨ (∃ c, e = .missingOperand c) ∨
        ∃ t i, t ∈ ts ∧ t.isShorthand = true ∧ e = .unsupportedOperator t.char i)

/-! ### Tokens in parentheses -/

namespace Token

theorem closes_concat {n : Nat} {t : Token} (ho : t ≠ .openParen) (hc : t ≠ .closeParen) {ts : List Token} :
    Closes n (ts ++ [t]) ↔ Closes n ts := by
  have hcount : ∀ {u}, t ≠ u → (ts ++ [t]).count u = ts.count u := by
    intro u hu
    rw [List.count_append, List.count_cons_of_ne hu, List.count_nil, Nat.add_zero]
  rw [Closes, Closes, hcount ho, hcount hc]
  refine and_congr_left fun htotal => ⟨fun h p hp => h p (hp.trans (List.prefix_append ..)), fun h p hp => ?_⟩
  rcases List.prefix_concat_iff.1 hp with rfl | hp
  · rw [hcount ho, hcount hc]
    exact Nat.le_of_eq htotal
  · exact h p hp

/-- One more closing parenthesis closes one more group, unless the tokens close it themselves. -/
theorem closes_iff_closeParen {ts : List Token} :
    Closes 0 ts ↔ Closes 1 (ts ++ [.closeParen]) ∧ ¬ Overclosed ts := by
  have hopen : (ts ++ [Token.closeParen]).count .openParen = ts.count .openParen := by simp
  have hclose : (ts ++ [Token.closeParen]).count .closeParen = ts.count .closeParen + 1 := by simp
  constructor
  · intro h
    obtain ⟨hle, htotal⟩ := h
    refine ⟨⟨fun p hp => ?_, by omega⟩, ?_⟩
    · rcases List.prefix_concat_iff.1 hp with rfl | hp
      · omega
      · have := hle p hp
        omega
    · intro hover
      obtain ⟨p, hp, hlt⟩ := hover
      have := hle p hp
      omega
  · intro h
    obtain ⟨⟨-, htotal⟩, hover⟩ := h
    refine ⟨fun p hp => ?_, by omega⟩
    refine Nat.le_of_not_lt fun hlt => hover ⟨p, hp, ?_⟩
    omega

end Token

/-- Tokens in parentheses are a pattern under conditions on the tokens alone: they and the parenthesis behind them close
one group. -/
theorem Token.isGroup_iff {ts : List Token} : IsGroup ts ↔
    (∀ t ∈ ts, t.isWritten = true) ∧ Placed false ts ∧ closedAfter false ts = true ∧
      Closes 1 (ts ++ [.closeParen]) := by
  have hwritten : (∀ t ∈ .openParen :: ts ++ [.closeParen], t.isWritten = true) ↔ ∀ t ∈ ts, t.isWritten = true := by
    rw [List.cons_append, List.forall_mem_cons, List.forall_mem_append, List.forall_mem_singleton]
    exact ⟨fun h => h.2.1, fun h => ⟨rfl, h, rfl⟩⟩
  have hplaced : Placed false (.openParen :: ts ++ [.closeParen]) ↔ Placed false ts ∧ closedAfter false ts = true := by
    rw [List.cons_append, Placed, placed_append]
    simp [Placed, opensOperand, closesOperand, isLeaf]
  have hlast : closedAfter false (.openParen :: ts ++ [.closeParen]) = true := closedAfter_concat ..
  unfold IsGroup
  rw [derives_iff, hwritten, hplaced, List.cons_append, closes_openParen, and_assoc]
  rw [List.cons_append] at hlast
  rw [and_iff_right hlast]

/-- An end marker behind the parentheses changes nothing. -/
theorem Token.isGroup_iff_endMarker {ts : List Token} :
    IsGroup ts ↔ ∃ r, Derives .union (.openParen :: ts ++ [.closeParen, .endMarker]) r := by
  have hsplit : openParen :: ts ++ [.closeParen, .endMarker] = (.openParen :: ts ++ [.closeParen]) ++ [.endMarker] := by
    simp
  unfold IsGroup
  rw [hsplit]
  generalize hgroup : openParen :: ts ++ [.closeParen] = group
  have hlast : closedAfter false group = true := by
    rw [← hgroup]
    exact closedAfter_concat ..
  have hwritten : (∀ t ∈ group ++ [.endMarker], t.isWritten = true) ↔ ∀ t ∈ group, t.isWritten = true := by
    rw [List.forall_mem_append, List.forall_mem_singleton]
    exact and_iff_left rfl
  have hplaced : Placed false (group ++ [.endMarker]) ↔ Placed false group := by
    rw [placed_append]
    exact and_iff_left ⟨Or.inl rfl, trivial⟩
  have hlast' : closedAfter false (group ++ [.endMarker]) = true := closedAfter_concat ..
  rw [derives_iff, derives_iff, hwritten, hplaced, and_iff_right hlast, and_iff_right hlast',
    closes_concat (by simp) (by simp)]

/-- Tokens are a pattern exactly if they are one in parentheses and pair up with none of these. -/
theorem exists_derives_iff {ts : List Token} :
    (∃ r, Derives .union ts r) ↔ Token.IsGroup ts ∧ ¬ Token.Overclosed ts := by
  rw [derives_iff, Token.isGroup_iff, Token.closes_iff_closeParen, and_assoc, and_assoc, and_assoc]

/-- In parentheses, tokens with different totals of the two parentheses are no pattern. -/
theorem Token.IsGroup.count_eq {ts : List Token} (h : IsGroup ts) : ts.count .openParen = ts.count .closeParen := by
  have htotal := (isGroup_iff.1 h).2.2.2.2
  simp at htotal
  omega

/-! ### Compiling any text -/

section Pattern

variable {pattern : String} {ts : List Token}

theorem exists_parse_augmented_iff (hscan : Token.scan pattern = .ok ts) :
    (∃ t arena, PatternTree.parse (Token.augmented ts) ∅ = (.ok (some t), arena)) ↔ Token.IsGroup ts := by
  have hconcat : .concat ∉ .openParen :: ts ++ [.closeParen, .endMarker] := by
    have : .concat ∉ ts := fun hmem => (Token.ne_of_mem_scan hscan _ hmem).1 rfl
    simp [this]
  rw [Token.augmented, parse_insertConcats_iff hconcat, Token.isGroup_iff_endMarker]

/-- The augmented tokens of a text end with an operand, so none is left over. -/
theorem error_of_parse_augmented (hscan : Token.scan pattern = .ok ts) {e : CompileError} {arena : Arena}
    (h : PatternTree.parse (Token.augmented ts) ∅ = (.error e, arena)) :
    (∃ i, e = .unmatchedCloseParen i) ∨ e = .unclosedOpenParen ∨ (∃ c, e = .missingOperand c) ∨
      ∃ c i, e = .unsupportedOperator c i := by
  have hsplit : Token.openParen :: ts ++ [.closeParen, .endMarker] =
      (.openParen :: ts ++ [.closeParen]) ++ [.endMarker] := by
    simp
  have hconcat : .concat ∉ (.openParen :: ts ++ [.closeParen]) ++ [Token.endMarker] := by
    have : .concat ∉ ts := fun hmem => (Token.ne_of_mem_scan hscan _ hmem).1 rfl
    simp [this]
  rw [Token.augmented, hsplit] at h
  have hinvalid := ne_invalidExpression_of_parse hconcat rfl h
  rcases error_of_parse h with hkind | hkind | hkind | hkind | ⟨n, hn⟩
  · exact Or.inl hkind
  · exact Or.inr (Or.inl hkind)
  · exact Or.inr (Or.inr (Or.inl hkind))
  · exact Or.inr (Or.inr (Or.inr hkind))
  · exact absurd hn (hinvalid n)

theorem rejected_of_scan {e : CompileError} (h : Token.scan pattern = .error e) : Rejected pattern e := by
  obtain ⟨c, i, hkind⟩ := Token.exists_unknownToken_of_scan h
  exact .inl ⟨c, i, h, hkind⟩

theorem rejected_of_parse (hscan : Token.scan pattern = .ok ts) {e : CompileError} {arena : Arena}
    (h : PatternTree.parse (Token.augmented ts) ∅ = (.error e, arena)) : Rejected pattern e := by
  have hdefect := defect_of_parse h
  refine .inr ⟨ts, hscan, hdefect, ?_⟩
  rcases error_of_parse_augmented hscan h with hkind | hkind | hkind | ⟨c, i, rfl⟩
  · exact .inl hkind
  · exact .inr (.inl hkind)
  · exact .inr (.inr (.inl hkind))
  · cases hdefect with
    | @unsupportedOperator _ t hget ht =>
      -- the parentheses, the end marker and the concatenations that were added are no shorthands
      have hmem := List.mem_of_getElem? hget
      rw [Token.augmented, Token.insertConcats_eq_joinAfter, Token.mem_joinAfter (by rintro rfl; cases ht)] at hmem
      refine .inr (.inr (.inr ⟨t, i, ?_, ht, rfl⟩))
      rcases List.mem_append.1 hmem with hmem | hmem
      · rcases List.mem_cons.1 hmem with rfl | hmem
        · cases ht
        · exact hmem
      · rcases List.mem_pair.1 hmem with rfl | rfl <;> cases ht

theorem compile_of_scan_error {e : CompileError} (hscan : Token.scan pattern = .error e) (name : String) :
    compile pattern name = .error e := by
  have hne : pattern ≠ "" := by
    rintro rfl
    cases hscan
  rw [compile_eq_bind hne, hscan]
  rfl

theorem Rejected.isDefect_eq_false {e : CompileError} (h : Rejected pattern e) : e.isDefect = false := by
  rcases h with ⟨c, i, -, rfl⟩ | ⟨ts, -, -, ⟨i, rfl⟩ | rfl | ⟨c, rfl⟩ | ⟨t, i, -, -, rfl⟩⟩ <;> rfl

/-- A text that is no pattern in parentheses is rejected for what it is, before its positions are linked. -/
theorem exists_error_of_not_isGroup (hne : pattern ≠ "") (h : ∀ ts, Token.scan pattern = .ok ts → ¬ Token.IsGroup ts)
    (name : String) : ∃ e, compile pattern name = .error e ∧ e.isDefect = false ∧ Rejected pattern e := by
  suffices h : ∃ e, compile pattern name = .error e ∧ Rejected pattern e by
    obtain ⟨e, he, hrejected⟩ := h
    exact ⟨e, he, hrejected.isDefect_eq_false, hrejected⟩
  cases hscan : Token.scan pattern with
  | error e => exact ⟨e, compile_of_scan_error hscan name, rejected_of_scan hscan⟩
  | ok ts =>
    rw [compile_eq_compileTokens hscan hne]
    rcases hparse : PatternTree.parse (Token.augmented ts) ∅ with ⟨e | _ | t, arena⟩
    · exact ⟨e, compileTokens_of_error hparse, rejected_of_parse hscan hparse⟩
    · have hnil := PatternTree.eq_nil_of_parse hparse
      exact absurd hnil (List.ne_nil_of_mem (Token.endMarker_mem_augmented ts))
    · have hgroup := (exists_parse_augmented_iff hscan).1 ⟨t, arena, hparse⟩
      exact absurd hgroup (h ts hscan)

/-- A text that is a pattern in parentheses is compiled while its positions can be numbered. -/
theorem exists_compile_of_isGroup (hscan : Token.scan pattern = .ok ts) (h : Token.IsGroup ts)
    (hsize : (Token.symbols ts).length ≤ 2 ^ 32 - 2) (name : String) : ∃ c, compile pattern name = .ok c := by
  by_cases hne : pattern = ""
  · subst hne
    exact ⟨_, rfl⟩
  · rw [compile_eq_compileTokens hscan hne]
    obtain ⟨t, arena, hparse⟩ := (exists_parse_augmented_iff hscan).2 h
    obtain ⟨c, -, hc, -⟩ := exists_compileTokens hparse (Token.length_symbols_augmented_lt hsize)
      (Token.endMarker_mem_augmented ts) name
    exact ⟨c, hc⟩

/-- A text is a pattern exactly if it is empty or its tokens are one in parentheses and pair up with none of these. -/
theorem exists_writes_iff : (∃ r, Writes pattern r) ↔
    pattern = "" ∨ ∃ ts, Token.scan pattern = .ok ts ∧ Token.IsGroup ts ∧ ¬ Token.Overclosed ts := by
  constructor
  · intro h
    obtain ⟨r, ⟨hempty, -⟩ | ⟨ts, hscan, hr⟩⟩ := h
    · exact Or.inl hempty
    · exact Or.inr ⟨ts, hscan, exists_derives_iff.1 ⟨r, hr⟩⟩
  · intro h
    rcases h with hempty | ⟨ts, hscan, h⟩
    · exact ⟨.epsilon, Or.inl ⟨hempty, rfl⟩⟩
    · obtain ⟨r, hr⟩ := exists_derives_iff.2 h
      exact ⟨r, Or.inr ⟨ts, hscan, hr⟩⟩

/-- A text is compiled exactly if it is empty or its tokens are a pattern in parentheses. -/
theorem exists_compile_iff (hsize : ∀ ts, Token.scan pattern = .ok ts → (Token.symbols ts).length ≤ 2 ^ 32 - 2)
    (name : String) : (∃ c, compile pattern name = .ok c) ↔
      pattern = "" ∨ ∃ ts, Token.scan pattern = .ok ts ∧ Token.IsGroup ts := by
  constructor
  · intro h
    obtain ⟨c, hc⟩ := h
    by_cases hne : pattern = ""
    · exact Or.inl hne
    · refine Or.inr (Classical.byContradiction fun hno => ?_)
      have hnone : ∀ ts, Token.scan pattern = .ok ts → ¬ Token.IsGroup ts := fun ts hscan hgroup =>
        hno ⟨ts, hscan, hgroup⟩
      obtain ⟨e, he, -⟩ := exists_error_of_not_isGroup hne hnone name
      cases hc.symm.trans he
  · intro h
    rcases h with rfl | ⟨ts, hscan, hgroup⟩
    · exact ⟨_, rfl⟩
    · exact exists_compile_of_isGroup hscan hgroup (hsize ts hscan) name

end Pattern

/-- A text that is neither empty nor a pattern in parentheses is rejected for what it is, as is one with different totals of
the two parentheses; the error is one of the syntax, or it names a shorthand among the tokens.  With at most `2 ^ 32 - 2`
literals every other text is compiled; so the texts that are compiled are the patterns, except where the tokens of a text pair
up with the parentheses around them. -/
theorem compile_isOk_iff (pattern name : String) :
    (pattern ≠ "" → (∀ ts, Token.scan pattern = .ok ts → ¬ Token.IsGroup ts) →
      ∃ e, compile pattern name = .error e ∧ e.isDefect = false ∧ Rejected pattern e) ∧
    (∀ ts, Token.scan pattern = .ok ts → ts.count .openParen ≠ ts.count .closeParen →
      ∃ e, compile pattern name = .error e ∧ e.isDefect = false ∧ Rejected pattern e) ∧
    ((∀ ts, Token.scan pattern = .ok ts → (Token.symbols ts).length ≤ 2 ^ 32 - 2) →
      ((∃ c, compile pattern name = .ok c) ↔
        pattern = "" ∨ ∃ ts, Token.scan pattern = .ok ts ∧ Token.IsGroup ts) ∧
      (((∃ c, compile pattern name = .ok c) ↔ ∃ r, Writes pattern r) ↔
        ¬ ∃ ts, Token.scan pattern = .ok ts ∧ Token.IsGroup ts ∧ Token.Overclosed ts)) := by
  refine ⟨fun hne h => exists_error_of_not_isGroup hne h name, ?_, fun hsize => ⟨exists_compile_iff hsize name, ?_⟩⟩
  · intro ts hscan htotal
    have hne : pattern ≠ "" := by
      intro hempty
      subst hempty
      cases hscan
      exact htotal rfl
    refine exists_error_of_not_isGroup hne (fun ts' hscan' hgroup => ?_) name
    obtain rfl : ts = ts' := Except.ok.inj (hscan.symm.trans hscan')
    exact htotal hgroup.count_eq
  · rw [exists_compile_iff hsize name, exists_writes_iff]
    constructor
    · intro h hbad
      obtain ⟨ts, hscan, hgroup, hover⟩ := hbad
      rcases h.1 (Or.inr ⟨ts, hscan, hgroup⟩) with hempty | ⟨ts', hscan', -, hnot⟩
      · subst hempty
        cases hscan
        obtain ⟨p, hp, hlt⟩ := hover
        simp [List.prefix_nil.1 hp] at hlt
      · obtain rfl : ts = ts' := Except.ok.inj (hscan.symm.trans hscan')
        exact hnot hover
    · intro hgood
      refine or_congr_right ⟨fun h => ?_, fun h => ?_⟩
      · obtain ⟨ts, hscan, hgroup⟩ := h
        exact ⟨ts, hscan, hgroup, fun hover => hgood ⟨ts, hscan, hgroup, hover⟩⟩
      · obtain ⟨ts, hscan, hgroup, -⟩ := h
        exact ⟨ts, hscan, hgroup⟩

/-- A text that closes a group it has not opened, and opens no other. -/
theorem compile_isOk_iff_unopened :
    (∃ e, compile "a)" "p" = .error e ∧ e.isDefect = false ∧ Rejected "a)" e) ∧
      (∀ ts, Token.scan "a)" = .ok ts → (Token.symbols ts).length ≤ 2 ^ 32 - 2) ∧
        (((∃ c, compile "a)" "p" = .ok c) ↔ ∃ r, Writes "a)" r) ↔
          ¬ ∃ ts, Token.scan "a)" = .ok ts ∧ Token.IsGroup ts ∧ Token.Overclosed ts) := by
  have hsize : ∀ ts, Token.scan "a)" = .ok ts → (Token.symbols ts).length ≤ 2 ^ 32 - 2 := by
    intro ts h
    cases h
    decide
  obtain ⟨-, hreject, hsized⟩ := compile_isOk_iff "a)" "p"
  exact ⟨hreject _ rfl (by decide), hsize, (hsized hsize).2⟩

/-- A text that is no pattern is compiled: its parentheses pair up with those around it. -/
theorem compile_overclosed : (∃ c, compile "a)|(b" "p" = .ok c) ∧ ¬ ∃ r, Writes "a)|(b" r := by
  constructor
  · have hok : (compile "a)|(b" "p").isOk = true := by decide +kernel
    cases h : compile "a)|(b" "p" with
    | ok c => exact ⟨c, rfl⟩
    | error e => simp [h, Except.isOk, Except.toBool] at hok
  · intro h
    obtain ⟨r, ⟨hempty, -⟩ | ⟨ts, hscan, hr⟩⟩ := h
    · simp at hempty
    · cases hscan
      have := hr.closes.1 [.literal 'a', .closeParen] ⟨_, rfl⟩
      simp at this

end PositionAutomaton
