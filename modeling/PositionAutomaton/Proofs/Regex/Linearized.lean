import PositionAutomaton.Proofs.Regex.Words

/-!
# Letters numbered from left to right

Two expressions with the same letters in the same order may still be bracketed differently.  `SameLinearized` says that
they also have the same words over the numbers of their letters; the laws at the end name expressions for which this
holds whatever their parts are.
-/

namespace PositionAutomaton

namespace Regex

variable {σ : Type} {r s t : Regex σ} {w : List σ}

/-- The expression with each letter replaced by its number, from left to right and from `first` on. -/
def linearized (first : Nat) : Regex σ → Regex Nat
  | .letter _ => .letter first
  | .epsilon => .epsilon
  | .concat left right => .concat (left.linearized first) (right.linearized (first + left.letters.length))
  | .union left right => .union (left.linearized first) (right.linearized (first + left.letters.length))
  | .star body => .star (body.linearized first)

/-- The expressions have the same letters from left to right, and the same words over the numbers of their letters. -/
structure SameLinearized (r s : Regex σ) : Prop where
  letters_eq : r.letters = s.letters
  matches_iff : ∀ w, (r.linearized 1).Matches w ↔ (s.linearized 1).Matches w

/-- A letter behind both expressions makes no difference. -/
theorem SameLinearized.concat_letter (h : r.SameLinearized s) (a : σ) :
    SameLinearized (.concat r (.letter a)) (.concat s (.letter a)) where
  letters_eq := by simp only [letters, h.letters_eq]
  matches_iff w := by
    simp only [linearized, matches_concat_iff, h.matches_iff, h.letters_eq]

/-! ### Words that do not depend on the brackets -/

theorem matches_concat_assoc :
    Matches (.concat (.concat r s) t) w ↔ Matches (.concat r (.concat s t)) w := by
  constructor
  · intro h
    obtain ⟨_, z, rfl, hxy, hz⟩ := matches_concat_iff.1 h
    obtain ⟨x, y, rfl, hx, hy⟩ := matches_concat_iff.1 hxy
    rw [List.append_assoc]
    exact .concat hx (.concat hy hz)
  · intro h
    obtain ⟨x, _, rfl, hx, hyz⟩ := matches_concat_iff.1 h
    obtain ⟨y, z, rfl, hy, hz⟩ := matches_concat_iff.1 hyz
    rw [← List.append_assoc]
    exact .concat (.concat hx hy) hz

theorem matches_union_assoc : Matches (.union (.union r s) t) w ↔ Matches (.union r (.union s t)) w := by
  simp only [matches_union_iff, or_assoc]

theorem matches_concat_epsilon : Matches (.concat r .epsilon) w ↔ Matches r w := by
  simp [matches_concat_iff, matches_epsilon_iff]

theorem matches_epsilon_concat : Matches (.concat .epsilon r) w ↔ Matches r w := by
  constructor
  · intro h
    obtain ⟨u, v, rfl, hu, hv⟩ := matches_concat_iff.1 h
    obtain rfl := matches_epsilon_iff.1 hu
    exact hv
  · exact fun h => .concat .epsilon h

/-- A star holds whatever is made of rounds that it holds. -/
theorem Matches.star_of_forall (h : ∀ u, Matches r u → Matches (.star s) u) (hw : Matches (.star r) w) :
    Matches (.star s) w := by
  induction hw using Matches.star_induction with
  | nil => exact .starNil
  | append u v hu _ ih => exact (h u hu).star_append ih

theorem matches_star_star : Matches (.star (.star r)) w ↔ Matches (.star r) w :=
  ⟨.star_of_forall fun _ hu => hu, Matches.star_single⟩

/-- Any number of rounds of either kind, first of the one kind and then of the other, are rounds of both kinds. -/
theorem matches_star_concat_star :
    Matches (.star (.concat (.star r) (.star s))) w ↔ Matches (.star (.union r s)) w := by
  constructor
  · refine .star_of_forall fun u hu => ?_
    obtain ⟨x, y, rfl, hx, hy⟩ := matches_concat_iff.1 hu
    have hleft := Matches.star_of_forall (s := .union r s) (fun u hu => (Matches.unionLeft hu).star_single) hx
    have hright := Matches.star_of_forall (s := .union r s) (fun u hu => (Matches.unionRight hu).star_single) hy
    exact hleft.star_append hright
  · refine .star_of_forall fun u hu => ?_
    have hr : Matches (.star r) [] := .starNil
    have hs : Matches (.star s) [] := .starNil
    rcases matches_union_iff.1 hu with hu | hu
    · simpa using (Matches.concat hu.star_single hs).star_single
    · simpa using (Matches.concat hr hu.star_single).star_single

theorem SameLinearized.concat_assoc (r s t : Regex σ) :
    SameLinearized (.concat (.concat r s) t) (.concat r (.concat s t)) where
  letters_eq := List.append_assoc ..
  matches_iff w := by
    simp only [linearized, letters, List.length_append, ← Nat.add_assoc, matches_concat_assoc]

theorem SameLinearized.union_assoc (r s t : Regex σ) :
    SameLinearized (.union (.union r s) t) (.union r (.union s t)) where
  letters_eq := List.append_assoc ..
  matches_iff w := by
    simp only [linearized, letters, List.length_append, ← Nat.add_assoc, matches_union_assoc]

theorem SameLinearized.star_star (r : Regex σ) : SameLinearized (.star (.star r)) (.star r) where
  letters_eq := rfl
  matches_iff _ := matches_star_star

theorem SameLinearized.concat_epsilon (r : Regex σ) : SameLinearized (.concat r .epsilon) r where
  letters_eq := List.append_nil _
  matches_iff _ := matches_concat_epsilon

theorem SameLinearized.epsilon_concat (r : Regex σ) : SameLinearized (.concat .epsilon r) r where
  letters_eq := rfl
  matches_iff _ := matches_epsilon_concat

theorem SameLinearized.star_concat_star (r s : Regex σ) :
    SameLinearized (.star (.concat (.star r) (.star s))) (.star (.union r s)) where
  letters_eq := rfl
  matches_iff _ := matches_star_concat_star

theorem SameLinearized.refl (r : Regex σ) : r.SameLinearized r where
  letters_eq := rfl
  matches_iff _ := Iff.rfl

end Regex

end PositionAutomaton
