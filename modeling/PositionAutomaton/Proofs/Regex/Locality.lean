import PositionAutomaton.Proofs.Regex.Words

/-!
# Neighbouring letters and locality

Which letters begin the words of an expression, which end them, and which stand side by side; for each constructor
these are read off its parts (`begins_concat`, `ends_concat`, `adjacent_concat` and so on).  If no letter occurs twice
in the expression, its words are determined by these three relations: what may follow a letter does not depend on what
came before it (`Matches.exchange`).
-/

namespace PositionAutomaton

namespace Regex

variable {σ : Type}

/-- Some word begins with the letter. -/
def Begins (r : Regex σ) (a : σ) : Prop :=
  ∃ v, Matches r (a :: v)

/-- Some word ends with the letter. -/
def Ends (r : Regex σ) (a : σ) : Prop :=
  ∃ u, Matches r (u ++ [a])

/-- In some word the second letter comes right after the first. -/
def Adjacent (r : Regex σ) (a b : σ) : Prop :=
  ∃ u v, Matches r (u ++ a :: b :: v)

/-! ### The first letter -/

theorem begins_letter {s a : σ} : Begins (.letter s) a ↔ a = s := by
  constructor
  · intro h
    obtain ⟨v, h⟩ := h
    exact (List.cons.inj (matches_letter_iff.1 h)).1
  · intro h
    subst h
    exact ⟨[], .letter a⟩

theorem not_begins_epsilon {a : σ} : ¬ Begins .epsilon a := by
  intro h
  obtain ⟨v, h⟩ := h
  exact List.cons_ne_nil _ _ (matches_epsilon_iff.1 h)

theorem begins_concat {l r : Regex σ} {a : σ} :
    Begins (.concat l r) a ↔ Begins l a ∨ Matches l [] ∧ Begins r a := by
  constructor
  · intro h
    obtain ⟨v, h⟩ := h
    obtain ⟨x, y, hxy, hx, hy⟩ := matches_concat_iff.1 h
    rcases List.cons_eq_append_iff.1 hxy with ⟨rfl, rfl⟩ | ⟨x, rfl, -⟩
    · exact Or.inr ⟨hx, v, hy⟩
    · exact Or.inl ⟨x, hx⟩
  · intro h
    rcases h with ⟨v, h⟩ | ⟨hl, v, h⟩
    · obtain ⟨w, hw⟩ := exists_matches r
      exact ⟨v ++ w, .concat h hw⟩
    · exact ⟨v, by simpa using Matches.concat hl h⟩

theorem begins_union {l r : Regex σ} {a : σ} : Begins (.union l r) a ↔ Begins l a ∨ Begins r a := by
  simp only [Begins, matches_union_iff, exists_or]

theorem begins_star {b : Regex σ} {a : σ} : Begins (.star b) a ↔ Begins b a := by
  constructor
  · intro h
    obtain ⟨v, h⟩ := h
    obtain ⟨u₁, u₂, v₁, v₂, hu, -, -, hb, -⟩ := Matches.star_around (u := []) h
    obtain ⟨-, rfl⟩ := List.append_eq_nil_iff.1 hu.symm
    exact ⟨v₁, hb⟩
  · intro h
    obtain ⟨v, h⟩ := h
    exact ⟨v, h.star_single⟩

/-! ### The last letter -/

theorem ends_letter {s a : σ} : Ends (.letter s) a ↔ a = s := by
  constructor
  · intro h
    obtain ⟨u, h⟩ := h
    obtain ⟨-, hs⟩ := List.append_eq_singleton_iff.1 (matches_letter_iff.1 h) |>.resolve_right (by simp)
    exact (List.cons.inj hs).1
  · intro h
    subst h
    exact ⟨[], .letter a⟩

theorem not_ends_epsilon {a : σ} : ¬ Ends .epsilon a := by
  intro h
  obtain ⟨u, h⟩ := h
  simpa using matches_epsilon_iff.1 h

theorem ends_concat {l r : Regex σ} {a : σ} :
    Ends (.concat l r) a ↔ Ends r a ∨ Matches r [] ∧ Ends l a := by
  constructor
  · intro h
    obtain ⟨u, h⟩ := h
    obtain ⟨x, y, hxy, hx, hy⟩ := matches_concat_iff.1 h
    rcases append_cons_eq_append hxy with ⟨v, rfl, hv⟩ | ⟨u, -, rfl⟩
    · obtain ⟨rfl, rfl⟩ := List.append_eq_nil_iff.1 hv.symm
      exact Or.inr ⟨hy, u, hx⟩
    · exact Or.inl ⟨u, hy⟩
  · intro h
    rcases h with ⟨u, h⟩ | ⟨hr, u, h⟩
    · obtain ⟨w, hw⟩ := exists_matches l
      exact ⟨w ++ u, by simpa using Matches.concat hw h⟩
    · exact ⟨u, by simpa using Matches.concat h hr⟩

theorem ends_union {l r : Regex σ} {a : σ} : Ends (.union l r) a ↔ Ends l a ∨ Ends r a := by
  simp only [Ends, matches_union_iff, exists_or]

theorem ends_star {b : Regex σ} {a : σ} : Ends (.star b) a ↔ Ends b a := by
  constructor
  · intro h
    obtain ⟨u, h⟩ := h
    obtain ⟨u₁, u₂, v₁, v₂, -, hv, -, hb, -⟩ := h.star_around
    obtain ⟨rfl, -⟩ := List.append_eq_nil_iff.1 hv.symm
    exact ⟨u₂, hb⟩
  · intro h
    obtain ⟨u, h⟩ := h
    exact ⟨u, h.star_single⟩

/-! ### Letters side by side -/

theorem not_adjacent_letter {s a b : σ} : ¬ Adjacent (.letter s) a b := by
  intro h
  obtain ⟨u, v, h⟩ := h
  have := congrArg List.length (matches_letter_iff.1 h)
  simp at this
  omega

theorem not_adjacent_epsilon {a b : σ} : ¬ Adjacent .epsilon a b := by
  intro h
  obtain ⟨u, v, h⟩ := h
  simpa using matches_epsilon_iff.1 h

theorem adjacent_concat {l r : Regex σ} {a b : σ} :
    Adjacent (.concat l r) a b ↔ Adjacent l a b ∨ Adjacent r a b ∨ Ends l a ∧ Begins r b := by
  constructor
  · intro h
    obtain ⟨u, v, h⟩ := h
    obtain ⟨x, y, hxy, hx, hy⟩ := matches_concat_iff.1 h
    rcases append_cons_eq_append hxy with ⟨v', rfl, hv⟩ | ⟨u, -, rfl⟩
    · rcases List.cons_eq_append_iff.1 hv with ⟨rfl, rfl⟩ | ⟨v', rfl, -⟩
      · exact Or.inr (Or.inr ⟨⟨u, hx⟩, v, hy⟩)
      · exact Or.inl ⟨u, v', hx⟩
    · exact Or.inr (Or.inl ⟨u, v, hy⟩)
  · intro h
    rcases h with ⟨u, v, h⟩ | ⟨u, v, h⟩ | ⟨⟨u, hu⟩, v, hv⟩
    · obtain ⟨w, hw⟩ := exists_matches r
      exact ⟨u, v ++ w, by simpa using Matches.concat h hw⟩
    · obtain ⟨w, hw⟩ := exists_matches l
      exact ⟨w ++ u, v, by simpa using Matches.concat hw h⟩
    · exact ⟨u, v, by simpa using Matches.concat hu hv⟩

theorem adjacent_union {l r : Regex σ} {a b : σ} :
    Adjacent (.union l r) a b ↔ Adjacent l a b ∨ Adjacent r a b := by
  simp only [Adjacent, matches_union_iff, exists_or]

theorem adjacent_star {r : Regex σ} {a b : σ} :
    Adjacent (.star r) a b ↔ Adjacent r a b ∨ Ends r a ∧ Begins r b := by
  constructor
  · intro h
    obtain ⟨u, v, h⟩ := h
    obtain ⟨u₁, u₂, v₁, v₂, -, hv, -, hb, hstar⟩ := h.star_around
    rcases List.cons_eq_append_iff.1 hv with ⟨rfl, rfl⟩ | ⟨v₁, rfl, -⟩
    · exact Or.inr ⟨⟨u₂, hb⟩, begins_star.1 ⟨v, hstar⟩⟩
    · exact Or.inl ⟨u₂, v₁, hb⟩
  · intro h
    rcases h with ⟨u, v, h⟩ | ⟨⟨u, hu⟩, v, hv⟩
    · exact ⟨u, v, h.star_single⟩
    · exact ⟨u, v, by simpa using Matches.starAppend hu hv.star_single⟩

/-- Side by side stand the new letters of two letters that stood side by side. -/
theorem adjacent_map_iff {τ : Type} {f : σ → τ} {r : Regex σ} {a b : τ} :
    Adjacent (r.map f) a b ↔ ∃ c d, Adjacent r c d ∧ f c = a ∧ f d = b := by
  constructor
  · intro h
    obtain ⟨u, v, h⟩ := h
    obtain ⟨w, hw, hmap⟩ := matches_map_iff.1 h
    obtain ⟨u', w', rfl, -, hw'⟩ := List.map_eq_append_iff.1 hmap
    obtain ⟨c, w'', rfl, rfl, hw''⟩ := List.map_eq_cons_iff.1 hw'
    obtain ⟨d, v', rfl, rfl, -⟩ := List.map_eq_cons_iff.1 hw''
    exact ⟨c, d, ⟨u', v', hw⟩, rfl, rfl⟩
  · intro h
    obtain ⟨c, d, ⟨u, v, h⟩, rfl, rfl⟩ := h
    exact ⟨u.map f, v.map f, by simpa using h.map f⟩

/-! ### Locality -/

/-- A word of a concatenation, cut at a letter of the left side. -/
private theorem concat_cut_left {l r : Regex σ} (hd : ∀ a ∈ l.letters, a ∉ r.letters) {u v : List σ} {a : σ}
    (ha : a ∈ l.letters) (h : Matches (.concat l r) (u ++ a :: v)) :
    ∃ v' y, v = v' ++ y ∧ Matches l (u ++ a :: v') ∧ Matches r y := by
  obtain ⟨x, y, hxy, hx, hy⟩ := matches_concat_iff.1 h
  rcases append_cons_eq_append hxy with ⟨v', rfl, rfl⟩ | ⟨u', rfl, rfl⟩
  · exact ⟨v', y, rfl, hx, hy⟩
  · exact absurd hy.letter_mem (hd a ha)

/-- A word of a concatenation, cut at a letter of the right side. -/
private theorem concat_cut_right {l r : Regex σ} (hd : ∀ a ∈ l.letters, a ∉ r.letters) {u v : List σ} {a : σ}
    (ha : a ∈ r.letters) (h : Matches (.concat l r) (u ++ a :: v)) :
    ∃ x u', u = x ++ u' ∧ Matches l x ∧ Matches r (u' ++ a :: v) := by
  obtain ⟨x, y, hxy, hx, hy⟩ := matches_concat_iff.1 h
  rcases append_cons_eq_append hxy with ⟨v', rfl, rfl⟩ | ⟨u', rfl, rfl⟩
  · exact absurd ha (hd a hx.letter_mem)
  · exact ⟨x, u', rfl, hx, hy⟩

/-- Where no letter occurs twice, two words can be exchanged behind a letter that they share. -/
theorem Matches.exchange {r : Regex σ} (hr : r.letters.Nodup) {u v u' v' : List σ} {a : σ}
    (h : Matches r (u ++ a :: v)) (h' : Matches r (u' ++ a :: v')) : Matches r (u ++ a :: v') := by
  induction r generalizing u v u' v' with
  | letter s =>
    have hs : ∀ {x y : List σ}, Matches (.letter s) (x ++ a :: y) → y = [] := by
      intro x y h
      have := congrArg List.length (matches_letter_iff.1 h)
      simp at this
      exact List.eq_nil_of_length_eq_zero (by omega)
    rw [hs h'] at *
    rwa [hs h] at h
  | epsilon => exact absurd (matches_epsilon_iff.1 h) (by simp)
  | concat l r ihl ihr =>
    obtain ⟨hl, hr, hd⟩ := List.nodup_append.1 hr
    have hd : ∀ a ∈ l.letters, a ∉ r.letters := fun a hal har => hd a hal a har rfl
    -- the letter is on one side only, and the other side of the first word stays as it is
    rcases List.mem_append.1 h.letter_mem with ha | ha
    · obtain ⟨_, _, rfl, hx, -⟩ := concat_cut_left hd ha h
      obtain ⟨v', y, rfl, hx', hy'⟩ := concat_cut_left hd ha h'
      simpa using Matches.concat (ihl hl hx hx') hy'
    · obtain ⟨x, u, rfl, hx, hy⟩ := concat_cut_right hd ha h
      obtain ⟨_, _, rfl, -, hy'⟩ := concat_cut_right hd ha h'
      simpa using Matches.concat hx (ihr hr hy hy')
  | union l r ihl ihr =>
    obtain ⟨hl, hr, hd⟩ := List.nodup_append.1 hr
    rcases matches_union_iff.1 h with h | h <;> rcases matches_union_iff.1 h' with h' | h'
    · exact .unionLeft (ihl hl h h')
    · exact absurd rfl (hd a h.letter_mem a h'.letter_mem)
    · exact absurd rfl (hd a h'.letter_mem a h.letter_mem)
    · exact .unionRight (ihr hr h h')
  | star b ih =>
    -- the rounds before the letter come from the first word, those after it from the second
    obtain ⟨u₁, u₂, v₁, v₂, rfl, rfl, h₁, h₂, -⟩ := h.star_around
    obtain ⟨u₁', u₂', v₁', v₂', rfl, rfl, -, h₂', h₃'⟩ := h'.star_around
    have := h₁.star_append (.starAppend (ih hr h₂ h₂') h₃')
    simpa using this

end Regex

end PositionAutomaton
