import PositionAutomaton.Proofs.Compilation.Acceptance

/-!
# Why a text is rejected

After parsing only defects can be met (`error_of_compileTokens`), and in a text with at most `2 ^ 32 - 2` literals
none is.  So a text is rejected for a character that stands for nothing, for its parentheses, for an operator without
an operand or for a shorthand that no tree has nodes for, and which of these it is, is known from the text
(`compile_error`).
-/

namespace PositionAutomaton

variable {e : CompileError}

/-! ### Defects -/

theorem Arena.isDefect_of_link {arena : Arena} {next : PositionSet} {ps : List PositionId}
    (h : (arena.link next ps).1 = .error e) : e.isDefect = true := by
  induction ps generalizing arena with
  | nil => cases h
  | cons p ps ih =>
    rw [link] at h
    split at h
    · exact ih h
    · cases h
      rfl

namespace PatternTree

theorem isDefect_of_attributes {t : PatternTree} (h : t.attributes = .error e) : e.isDefect = true := by
  unfold attributes at h
  split at h <;> cases h
  rfl

theorem isDefect_of_ownLinks {t : PatternTree} (h : t.ownLinks = .error e) : e.isDefect = true := by
  cases t with
  | concat a left right =>
    rcases bind_eq_error_iff.1 h with h | ⟨l, -, h⟩
    · exact isDefect_of_attributes h
    · rcases bind_eq_error_iff.1 h with h | ⟨r, -, h⟩
      · exact isDefect_of_attributes h
      · cases h
  | star a child =>
    rcases bind_eq_error_iff.1 h with h | ⟨c, -, h⟩
    · exact isDefect_of_attributes h
    · cases h
  | leaf | epsilon | union => cases h

theorem isDefect_of_linkNodes {ts : List PatternTree} {arena : Arena} (h : (linkNodes arena ts).1 = .error e) :
    e.isDefect = true := by
  induction ts generalizing arena with
  | nil => cases h
  | cons t ts ih =>
    rw [linkNodes] at h
    split at h
    · exact ih h
    · rename_i e' arena' hnode
      cases h
      rw [linkNode] at hnode
      split at hnode
      · exact Arena.isDefect_of_link (congrArg Prod.fst hnode)
      · cases hnode
        exact isDefect_of_ownLinks ‹_›

end PatternTree

/-- The exploration fails only for want of an end marker. -/
theorem error_of_determinize {root : Attributes} {arena : Arena} {name : String}
    (h : determinize root arena name = .error e) : e = .positionNotFound .endMarker := by
  unfold determinize at h
  split at h
  · cases h
  · split at h
    · cases h
      rfl
    · cases h

/-- Tokens are rejected by the parser, or a defect is met. -/
theorem error_of_compileTokens {tokens : List Token} {name : String} (h : compileTokens tokens name = .error e) :
    (∃ arena, PatternTree.parse tokens ∅ = (.error e, arena)) ∨ e.isDefect = true := by
  rcases hparse : PatternTree.parse tokens ∅ with ⟨e' | _ | t, arena⟩
  · rw [compileTokens_of_error hparse] at h
    exact Or.inl ⟨arena, Except.error.inj h ▸ rfl⟩
  · rw [compileTokens, hparse] at h
    cases h
  · refine Or.inr ?_
    rw [compileTokens_eq_bind hparse] at h
    rcases bind_eq_error_iff.1 h with h | ⟨arena', -, h⟩
    · exact PatternTree.isDefect_of_linkNodes (PatternTree.linkPositions_eq_error_iff.1 h)
    · rw [error_of_determinize (map_eq_error_iff.1 h)]
      rfl

/-! ### Texts -/

section Pattern

variable {pattern name : String} {ts : List Token}

/-- A text is rejected where it is scanned, or its augmented tokens are. -/
theorem error_of_compile (h : compile pattern name = .error e) :
    Token.scan pattern = .error e ∨
      ∃ ts, Token.scan pattern = .ok ts ∧ compileTokens (Token.augmented ts) name = .error e := by
  have hne : pattern ≠ "" := by
    rintro rfl
    cases h
  exact bind_eq_error_iff.1 (compile_eq_bind hne name ▸ h)

/-- While the positions can be numbered, augmented tokens are rejected by the parser only. -/
theorem exists_parse_of_compileTokens_error (hsize : (Token.symbols ts).length ≤ 2 ^ 32 - 2)
    (h : compileTokens (Token.augmented ts) name = .error e) :
    ∃ arena, PatternTree.parse (Token.augmented ts) ∅ = (.error e, arena) := by
  have hend := Token.endMarker_mem_augmented ts
  rcases hparse : PatternTree.parse (Token.augmented ts) ∅ with ⟨e' | _ | t, arena⟩
  · rw [compileTokens_of_error hparse] at h
    exact ⟨arena, Except.error.inj h ▸ rfl⟩
  · exact absurd (PatternTree.eq_nil_of_parse hparse) (List.ne_nil_of_mem hend)
  · obtain ⟨c, -, hc, -⟩ := exists_compileTokens hparse (Token.length_symbols_augmented_lt hsize) hend name
    cases hc.symm.trans h

/-- A text is rejected for one of its characters exactly if it is rejected where it is scanned. -/
theorem compile_eq_unknownToken_iff {c : Char} {i : Nat} :
    compile pattern name = .error (.unknownToken c i) ↔ Token.scan pattern = .error (.unknownToken c i) := by
  constructor
  · intro h
    rcases error_of_compile h with hscan | ⟨ts, -, h⟩
    · exact hscan
    · rcases error_of_compileTokens h with ⟨arena, hparse⟩ | hdefect
      · rcases error_of_parse hparse with ⟨_, he⟩ | he | ⟨_, he⟩ | ⟨_, _, he⟩ | ⟨_, he⟩ <;> cases he
      · cases hdefect
  · exact fun hscan => compile_of_scan_error hscan name

/-- A sign `+` or `?` that is not escaped is among the augmented tokens. -/
theorem exists_isShorthand_mem_augmented (hscan : Token.scan pattern = .ok ts)
    (h : ∃ p ∈ Token.unescaped 0 pattern.toList, p.2 = '+' ∨ p.2 = '?') :
    ∃ t ∈ Token.augmented ts, t.isShorthand = true := by
  obtain ⟨⟨i, c⟩, hp, hc⟩ := h
  have hmem : ∀ {t : Token}, t.isShorthand = true → Token.ofChar? c = some t → t ∈ Token.augmented ts := by
    intro t ht hct
    have hts : t ∈ ts := (Token.mem_iff_of_scanFrom hscan (by rintro d rfl; cases ht)).2 ⟨_, hp, hct⟩
    rw [Token.augmented, Token.insertConcats_eq_joinAfter, Token.mem_joinAfter (by rintro rfl; cases ht)]
    exact List.mem_cons_of_mem _ (List.mem_append_left _ hts)
  rcases hc with rfl | rfl
  · exact ⟨.positiveClosure, hmem rfl rfl, rfl⟩
  · exact ⟨.optional, hmem rfl rfl, rfl⟩

/-- What a text is rejected for.  With at most `2 ^ 32 - 2` literals it is never a defect, and never an operand that is
left over.  It is a character exactly if the text is rejected where it is scanned, and then the same one at the same
place.  A text with a `+` or `?` that is not escaped is rejected, for the first of them unless reading the augmented
tokens before it fails already. -/
theorem compile_error (pattern name : String) :
    ((∀ ts, Token.scan pattern = .ok ts → (Token.symbols ts).length ≤ 2 ^ 32 - 2) →
      ∀ e, compile pattern name = .error e → e.isDefect = false ∧
        ((∃ c i, e = .unknownToken c i) ∨ (∃ i, e = .unmatchedCloseParen i) ∨ e = .unclosedOpenParen ∨
          (∃ c, e = .missingOperand c) ∨ ∃ c i, e = .unsupportedOperator c i)) ∧
    (∀ e, Token.scan pattern = .error e → ∃ c i, e = .unknownToken c i) ∧
    (∀ c i, compile pattern name = .error (.unknownToken c i) ↔ Token.scan pattern = .error (.unknownToken c i)) ∧
    ∀ ts, Token.scan pattern = .ok ts → (∃ p ∈ Token.unescaped 0 pattern.toList, p.2 = '+' ∨ p.2 = '?') →
      ∃ before t after, Token.augmented ts = before ++ t :: after ∧ t.isShorthand = true ∧
        (∀ u ∈ before, u.isShorthand = false) ∧
        ((∃ s, (ParseStacks.readAll {} ∅ 0 before).1 = .ok s) ∧
            compile pattern name = .error (.unsupportedOperator t.char before.length) ∨
          ∃ e, (ParseStacks.readAll {} ∅ 0 before).1 = .error e ∧ compile pattern name = .error e ∧
            ((∃ i, e = .unmatchedCloseParen i) ∨ ∃ c, e = .missingOperand c)) := by
  refine ⟨fun hsize e h => ?_, fun e => Token.exists_unknownToken_of_scan, fun c i => compile_eq_unknownToken_iff,
    fun ts hscan hsign => ?_⟩
  · rcases error_of_compile h with hscan | ⟨ts, hscan, h⟩
    · exact ⟨Token.isDefect_of_scan hscan, Or.inl (Token.exists_unknownToken_of_scan hscan)⟩
    · obtain ⟨arena, hparse⟩ := exists_parse_of_compileTokens_error (hsize ts hscan) h
      exact ⟨isDefect_of_parse hparse, Or.inr (error_of_parse_augmented hscan hparse)⟩
  · have hne : pattern ≠ "" := by
      rintro rfl
      obtain ⟨p, hp, -⟩ := hsign
      cases hp
    obtain ⟨before, t, after, hsplit, ht, hbefore, hcases⟩ :=
      parse_of_isShorthand ∅ (exists_isShorthand_mem_augmented hscan hsign)
    rw [compile_eq_compileTokens hscan hne]
    refine ⟨before, t, after, hsplit, ht, hbefore, ?_⟩
    rcases hcases with ⟨s, arena, hread, hparse⟩ | ⟨e, arena, hread, hparse, hkind⟩
    · exact Or.inl ⟨⟨s, congrArg Prod.fst hread⟩, compileTokens_of_error hparse⟩
    · exact Or.inr ⟨e, congrArg Prod.fst hread, compileTokens_of_error hparse, hkind⟩

/-- A shorthand that is not escaped, behind one that is. -/
theorem compile_error_shorthand :
    (∀ ts, Token.scan "\\?+" = .ok ts → (Token.symbols ts).length ≤ 2 ^ 32 - 2) ∧
    compile "\\?+" "p" = .error (.unsupportedOperator '+' 2) ∧
    CompileError.isDefect (.unsupportedOperator '+' 2) = false ∧
    Token.scan "\\?+" = .ok [.literal '?', .positiveClosure] ∧
    (∃ p ∈ Token.unescaped 0 "\\?+".toList, p.2 = '+' ∨ p.2 = '?') ∧
    ∃ before t after, Token.augmented [.literal '?', .positiveClosure] = before ++ t :: after ∧ t.isShorthand = true ∧
      ∀ u ∈ before, u.isShorthand = false := by
  have hsize : ∀ ts, Token.scan "\\?+" = .ok ts → (Token.symbols ts).length ≤ 2 ^ 32 - 2 := by
    intro ts h
    cases h
    decide
  have herror : compile "\\?+" "p" = .error (.unsupportedOperator '+' 2) := rfl
  have hscan : Token.scan "\\?+" = .ok [.literal '?', .positiveClosure] := rfl
  have hsign : ∃ p ∈ Token.unescaped 0 "\\?+".toList, p.2 = '+' ∨ p.2 = '?' := ⟨(2, '+'), by decide, Or.inl rfl⟩
  obtain ⟨hkind, -, -, hshorthand⟩ := compile_error "\\?+" "p"
  obtain ⟨before, t, after, hsplit, ht, hbefore, -⟩ := hshorthand _ hscan hsign
  exact ⟨hsize, herror, (hkind hsize _ herror).1, hscan, hsign, before, t, after, hsplit, ht, hbefore⟩

end Pattern

end PositionAutomaton
