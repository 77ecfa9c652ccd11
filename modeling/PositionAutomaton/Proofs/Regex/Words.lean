import PositionAutomaton.Regex

/-!
# Words of a regular expression

How the words of an expression split along its constructors, and what that says of single letters.  The key facts: a
word of a star splits around any of its letters into whole rounds and the round of that letter
(`Matches.star_around`), every letter of an expression stands in one of its words (`exists_matches_around`), and
replacing the letters replaces them in the words (`matches_map_iff`).
-/

namespace PositionAutomaton

/-- A letter of `x ++ y` lies in `x` or in `y`. -/
theorem append_cons_eq_append {α : Type} {u v x y : List α} {a : α} (h : u ++ a :: v = x ++ y) :
    (∃ v', x = u ++ a :: v' ∧ v = v' ++ y) ∨ (∃ u', u = x ++ u' ∧ y = u' ++ a :: v) := by
  rcases List.append_eq_append_iff.1 h with ⟨t, hx, hy⟩ | ⟨t, hu, hy⟩
  · cases t with
    | nil => exact Or.inr ⟨[], by simpa using hx.symm, by simpa using hy.symm⟩
    | cons b t =>
      obtain ⟨rfl, rfl⟩ := List.cons.inj hy
      exact Or.inl ⟨t, hx, rfl⟩
  · exact Or.inr ⟨t, hu, hy⟩

namespace Regex

variable {σ τ : Type}

/-! ### Splitting words along the constructors -/

theorem matches_letter_iff {s : σ} {w : List σ} : Matches (.letter s) w ↔ w = [s] := by
  constructor
  · intro h
    cases h
    rfl
  · intro hw
    rw [hw]
    exact .letter s

theorem matches_epsilon_iff {w : List σ} : Matches (.epsilon : Regex σ) w ↔ w = [] := by
  constructor
  · intro h
    cases h
    rfl
  · intro hw
    rw [hw]
    exact .epsilon

theorem matches_concat_iff {l r : Regex σ} {w : List σ} :
    Matches (.concat l r) w ↔ ∃ u v, w = u ++ v ∧ Matches l u ∧ Matches r v := by
  constructor
  · intro h
    cases h with
    | concat hu hv => exact ⟨_, _, rfl, hu, hv⟩
  · intro h
    obtain ⟨u, v, rfl, hu, hv⟩ := h
    exact .concat hu hv

theorem matches_union_iff {l r : Regex σ} {w : List σ} :
    Matches (.union l r) w ↔ Matches l w ∨ Matches r w := by
  constructor
  · intro h
    cases h with
    | unionLeft h => exact Or.inl h
    | unionRight h => exact Or.inr h
  · intro h
    rcases h with h | h
    · exact .unionLeft h
    · exact .unionRight h

/-- What holds of `[]` and is kept by one more round in front holds of all words of a star. -/
@[elab_as_elim]
theorem Matches.star_induction {b : Regex σ} {motive : (w : List σ) → Matches (.star b) w → Prop}
    (nil : motive [] .starNil)
    (append : ∀ u v (hu : Matches b u) (hv : Matches (.star b) v), motive v hv → motive (u ++ v) (.starAppend hu hv))
    {w : List σ} (h : Matches (.star b) w) : motive w h := by
  suffices key : ∀ r w (h : Matches r w) (hr : r = .star b), motive w (hr ▸ h) from key _ _ h rfl
  intro r w h hr
  induction h with
  | starNil =>
    cases hr
    exact nil
  | starAppend hu hv _ ih =>
    cases hr
    exact append _ _ hu hv (ih rfl)
  | _ => cases hr

theorem Matches.star_single {b : Regex σ} {w : List σ} (h : Matches b w) : Matches (.star b) w := by
  simpa using Matches.starAppend h .starNil

theorem Matches.star_append {b : Regex σ} {u v : List σ} (hu : Matches (.star b) u)
    (hv : Matches (.star b) v) : Matches (.star b) (u ++ v) := by
  induction hu using Matches.star_induction with
  | nil => exact hv
  | append x y hx _ ih =>
    rw [List.append_assoc]
    exact .starAppend hx ih

/-- Around any letter, a word of a star is whole rounds, the round of the letter, and whole rounds. -/
theorem Matches.star_around {b : Regex σ} {u v : List σ} {a : σ} (h : Matches (.star b) (u ++ a :: v)) :
    ∃ u₁ u₂ v₁ v₂, u = u₁ ++ u₂ ∧ v = v₁ ++ v₂ ∧
      Matches (.star b) u₁ ∧ Matches b (u₂ ++ a :: v₁) ∧ Matches (.star b) v₂ := by
  generalize hw : u ++ a :: v = w at h
  induction h using Matches.star_induction generalizing u with
  | nil => simp at hw
  | append x y hx hy ih =>
    -- the letter stands in the first round or in one of the others
    rcases append_cons_eq_append hw with ⟨v₁, rfl, rfl⟩ | ⟨u', rfl, rfl⟩
    · exact ⟨[], u, v₁, y, rfl, rfl, .starNil, hx, hy⟩
    · obtain ⟨u₁, u₂, v₁, v₂, rfl, rfl, h₁, h₂, h₃⟩ := ih rfl
      exact ⟨x ++ u₁, u₂, v₁, v₂, by simp, rfl, .starAppend hx h₁, h₂, h₃⟩

/-! ### Letters -/

/-- No expression is without words. -/
theorem exists_matches (r : Regex σ) : ∃ w, Matches r w := by
  induction r with
  | letter s => exact ⟨_, .letter s⟩
  | epsilon => exact ⟨_, .epsilon⟩
  | concat l r ihl ihr =>
    obtain ⟨u, hu⟩ := ihl
    obtain ⟨v, hv⟩ := ihr
    exact ⟨_, .concat hu hv⟩
  | union l r ihl _ =>
    obtain ⟨u, hu⟩ := ihl
    exact ⟨u, .unionLeft hu⟩
  | star b _ => exact ⟨_, .starNil⟩

theorem Matches.subset_letters {r : Regex σ} {w : List σ} (h : Matches r w) : ∀ a ∈ w, a ∈ r.letters := by
  induction h with
  | letter s => simp [letters]
  | epsilon => simp
  | concat _ _ ihl ihr =>
    intro a ha
    rcases List.mem_append.1 ha with ha | ha
    · exact List.mem_append_left _ (ihl a ha)
    · exact List.mem_append_right _ (ihr a ha)
  | unionLeft _ ih => exact fun a ha => List.mem_append_left _ (ih a ha)
  | unionRight _ ih => exact fun a ha => List.mem_append_right _ (ih a ha)
  | starNil => simp
  | starAppend _ _ ihu ihv =>
    intro a ha
    rcases List.mem_append.1 ha with ha | ha
    · exact ihu a ha
    · exact ihv a ha

theorem Matches.letter_mem {r : Regex σ} {u v : List σ} {a : σ} (h : Matches r (u ++ a :: v)) :
    a ∈ r.letters :=
  h.subset_letters a (by simp)

/-- Every letter of an expression stands in one of its words. -/
theorem exists_matches_around {r : Regex σ} {a : σ} (ha : a ∈ r.letters) :
    ∃ u v, Matches r (u ++ a :: v) := by
  induction r with
  | letter s =>
    obtain rfl : a = s := List.mem_singleton.1 ha
    exact ⟨[], [], .letter a⟩
  | epsilon => exact absurd ha List.not_mem_nil
  | concat l r ihl ihr =>
    rcases List.mem_append.1 ha with ha | ha
    · obtain ⟨u, v, h⟩ := ihl ha
      obtain ⟨w, hw⟩ := exists_matches r
      exact ⟨u, v ++ w, by simpa using Matches.concat h hw⟩
    · obtain ⟨u, v, h⟩ := ihr ha
      obtain ⟨w, hw⟩ := exists_matches l
      exact ⟨w ++ u, v, by simpa using Matches.concat hw h⟩
  | union l r ihl ihr =>
    rcases List.mem_append.1 ha with ha | ha
    · obtain ⟨u, v, h⟩ := ihl ha
      exact ⟨u, v, .unionLeft h⟩
    · obtain ⟨u, v, h⟩ := ihr ha
      exact ⟨u, v, .unionRight h⟩
  | star b ih =>
    obtain ⟨u, v, h⟩ := ih ha
    exact ⟨u, v, h.star_single⟩

/-! ### Replacing letters -/

@[simp]
theorem letters_map (f : σ → τ) (r : Regex σ) : (r.map f).letters = r.letters.map f := by
  induction r with
  | letter | epsilon => rfl
  | concat l r ihl ihr => simp [map, letters, ihl, ihr]
  | union l r ihl ihr => simp [map, letters, ihl, ihr]
  | star b ih => simp [map, letters, ih]

theorem Matches.map {r : Regex σ} {w : List σ} (h : Matches r w) (f : σ → τ) :
    Matches (r.map f) (w.map f) := by
  induction h with
  | letter s => exact .letter (f s)
  | epsilon => exact .epsilon
  | concat _ _ ihl ihr =>
    rw [List.map_append]
    exact .concat ihl ihr
  | unionLeft _ ih => exact .unionLeft ih
  | unionRight _ ih => exact .unionRight ih
  | starNil => exact .starNil
  | starAppend _ _ ihu ihv =>
    rw [List.map_append]
    exact .starAppend ihu ihv

/-- The words over the new letters are the old words with their letters replaced. -/
theorem matches_map_iff {f : σ → τ} {r : Regex σ} {w : List τ} :
    Matches (r.map f) w ↔ ∃ v, Matches r v ∧ v.map f = w := by
  constructor
  · induction r generalizing w with
    | letter s =>
      intro h
      exact ⟨[s], .letter s, (matches_letter_iff.1 h).symm⟩
    | epsilon =>
      intro h
      exact ⟨[], .epsilon, (matches_epsilon_iff.1 h).symm⟩
    | concat l r ihl ihr =>
      intro h
      obtain ⟨_, _, rfl, hl, hr⟩ := matches_concat_iff.1 h
      obtain ⟨u, hu, rfl⟩ := ihl hl
      obtain ⟨v, hv, rfl⟩ := ihr hr
      exact ⟨u ++ v, .concat hu hv, List.map_append⟩
    | union l r ihl ihr =>
      intro h
      rcases matches_union_iff.1 h with h | h
      · obtain ⟨u, hu, rfl⟩ := ihl h
        exact ⟨u, .unionLeft hu, rfl⟩
      · obtain ⟨u, hu, rfl⟩ := ihr h
        exact ⟨u, .unionRight hu, rfl⟩
    | star b ih =>
      intro h
      induction h using Matches.star_induction with
      | nil => exact ⟨[], .starNil, rfl⟩
      | append _ _ hb _ ihv =>
        obtain ⟨u, hu, rfl⟩ := ih hb
        obtain ⟨v, hv, rfl⟩ := ihv
        exact ⟨u ++ v, .starAppend hu hv, List.map_append⟩
  · intro h
    obtain ⟨v, hv, rfl⟩ := h
    exact hv.map f

end Regex

end PositionAutomaton
