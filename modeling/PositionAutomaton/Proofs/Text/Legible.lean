import Mathlib.Logic.Function.Basic
import PositionAutomaton.Position

/-!
# Texts that can be read back

What was printed is known from a longer text if the text says where the printed part ends.  `Legible P f` says so of a
printer `f`, for the rests that satisfy `P`: a number ends before a character that is no digit (`legible_number`), and a
set of positions ends by itself (`selfDelimiting_set`).  Values printed one after the other, up to a text that begins none
of them, are known one by one (`Legible.flatMap`).
-/

namespace PositionAutomaton

variable {α β : Type}

/-- Two values printed by `f`, each before a rest that satisfies `P`, are equal if the whole texts are, and so are the
rests. -/
def Legible (P : List Char → Prop) (f : α → List Char) : Prop :=
  ∀ ⦃x y : α⦄ ⦃r s : List Char⦄, P r → P s → f x ++ r = f y ++ s → x = y ∧ r = s

/-- Two values printed by `f` are equal if longer texts are, and so are the rests. -/
def SelfDelimiting (f : α → List Char) : Prop :=
  ∀ ⦃x y : α⦄ ⦃r s : List Char⦄, f x ++ r = f y ++ s → x = y ∧ r = s

theorem SelfDelimiting.injective {f : α → List Char} (h : SelfDelimiting f) : Function.Injective f := by
  intro x y hxy
  have happend : f x ++ [] = f y ++ [] := by rw [hxy]
  exact (h happend).1

theorem SelfDelimiting.legible {f : α → List Char} (h : SelfDelimiting f) (P : List Char → Prop) : Legible P f :=
  fun _ _ _ _ _ _ hxy => h hxy

theorem Legible.comp {P : List Char → Prop} {f : α → List Char} (h : Legible P f) {g : β → α}
    (hg : Function.Injective g) : Legible P fun x => f (g x) := by
  intro x y r s hr hs hxy
  obtain ⟨heq, hrest⟩ := h hr hs hxy
  exact ⟨hg heq, hrest⟩

/-- A list of values with a text behind it that begins none of them. -/
theorem Legible.flatMap {P : List Char → Prop} {f : α → List Char} (h : Legible P f) (stop : List Char)
    (hstop : ∀ r, P (stop ++ r)) (hrest : ∀ x r, P (f x ++ r)) (hne : ∀ x r s, f x ++ r ≠ stop ++ s)
    {xs ys : List α} {r s : List Char} (heq : xs.flatMap f ++ (stop ++ r) = ys.flatMap f ++ (stop ++ s)) :
    xs = ys ∧ r = s := by
  have hnext : ∀ (zs : List α) (r : List Char), P (zs.flatMap f ++ (stop ++ r)) := by
    intro zs r
    cases zs with
    | nil => exact hstop r
    | cons z zs =>
      rw [List.flatMap_cons, List.append_assoc]
      exact hrest z _
  induction xs generalizing ys with
  | nil =>
    cases ys with
    | nil => exact ⟨rfl, List.append_cancel_left heq⟩
    | cons y ys =>
      rw [List.flatMap_cons, List.append_assoc] at heq
      exact absurd heq.symm (hne y _ r)
  | cons x xs ih =>
    rw [List.flatMap_cons, List.append_assoc] at heq
    cases ys with
    | nil => exact absurd heq (hne x _ s)
    | cons y ys =>
      rw [List.flatMap_cons, List.append_assoc] at heq
      obtain ⟨rfl, htail⟩ := h (hnext xs r) (hnext ys s) heq
      obtain ⟨rfl, hrs⟩ := ih htail
      exact ⟨rfl, hrs⟩

/-! ### Numbers -/

/-- The text does not go on with a digit. -/
def NoDigitFirst (r : List Char) : Prop :=
  ∀ c ∈ r.head?, c.isDigit = false

@[simp]
theorem noDigitFirst_cons {c : Char} {r : List Char} : NoDigitFirst (c :: r) ↔ c.isDigit = false := by
  simp [NoDigitFirst]

theorem isDigit_of_mem_toString {n : Nat} {c : Char} (h : c ∈ (toString n).toList) : c.isDigit = true := by
  rw [Nat.toString_eq_repr, Nat.toList_repr] at h
  exact Nat.isDigit_of_mem_toDigits (by omega) (by omega) h

/-- A number begins with a digit. -/
theorem exists_toString_eq_cons (n : Nat) : ∃ c cs, (toString n).toList = c :: cs ∧ c.isDigit = true := by
  have hne : (toString n).toList ≠ [] := by
    rw [Nat.toString_eq_repr, Nat.toList_repr]
    exact Nat.toDigits_ne_nil
  obtain ⟨c, cs, hcs⟩ := List.exists_cons_of_ne_nil hne
  exact ⟨c, cs, hcs, isDigit_of_mem_toString (by rw [hcs]; exact List.mem_cons_self)⟩

theorem toString_append_ne_cons (n : Nat) {c : Char} (hc : c.isDigit = false) (r s : List Char) :
    (toString n).toList ++ r ≠ c :: s := by
  intro h
  obtain ⟨d, ds, hd, hdigit⟩ := exists_toString_eq_cons n
  rw [hd, List.cons_append] at h
  rw [List.head_eq_of_cons_eq h, hc] at hdigit
  cases hdigit

theorem takeWhile_toString_append (n : Nat) {r : List Char} (hr : NoDigitFirst r) :
    ((toString n).toList ++ r).takeWhile Char.isDigit = (toString n).toList := by
  have hrest : r.takeWhile Char.isDigit = [] := by
    cases r with
    | nil => rfl
    | cons c r => rw [List.takeWhile_cons_of_neg (by simp [noDigitFirst_cons.1 hr])]
  rw [List.takeWhile_append_of_pos fun c hc => isDigit_of_mem_toString hc, hrest, List.append_nil]

/-- A number is known before a rest that does not go on with a digit. -/
theorem legible_number : Legible NoDigitFirst fun n : Nat => (toString n).toList := by
  intro m n r s hr hs h
  have hdigits : (toString m).toList = (toString n).toList := by
    rw [← takeWhile_toString_append m hr, h, takeWhile_toString_append n hs]
  refine ⟨?_, ?_⟩
  · rw [Nat.toString_eq_repr, Nat.toString_eq_repr, Nat.toList_repr, Nat.toList_repr] at hdigits
    rw [← Nat.ofDigitChars_ten_toDigits (n := m), hdigits, Nat.ofDigitChars_ten_toDigits]
  · simp only [hdigits] at h
    exact List.append_cancel_left h

theorem legible_positionId : Legible NoDigitFirst fun p : PositionId => (toString p.toNat).toList :=
  legible_number.comp fun _ _ => UInt32.toNat_inj.1

/-! ### Sets -/

theorem toList_intercalate_cons (sep text : String) (texts : List String) : (sep.intercalate (text :: texts)).toList =
    text.toList ++ texts.flatMap fun t => sep.toList ++ t.toList := by
  induction texts generalizing text with
  | nil => simp
  | cons t texts ih =>
    rw [String.intercalate_cons_cons, String.toList_append, String.toList_append, ih]
    simp

theorem toList_intercalate_concat (sep : String) (texts : List String) (last : String) :
    (sep.intercalate (texts ++ [last])).toList = (texts.flatMap fun t => t.toList ++ sep.toList) ++ last.toList := by
  induction texts with
  | nil => simp
  | cons t texts ih =>
    rw [List.cons_append, String.intercalate_cons_of_ne_nil (by simp), String.toList_append, String.toList_append, ih]
    simp

/-- Numbers with a comma and a space before each but the first. -/
def commaSeparated : List PositionId → List Char
  | [] => []
  | p :: ps => (toString p.toNat).toList ++ ps.flatMap fun q => ',' :: ' ' :: (toString q.toNat).toList

theorem toList_setText (s : PositionSet) : s.text.toList = '\x7b' :: (commaSeparated s.toList ++ ['\x7d']) := by
  rw [PositionSet.text, String.toList_append, String.toList_append]
  cases s.toList with
  | nil => rfl
  | cons p ps =>
    rw [List.map_cons, toList_intercalate_cons, List.flatMap_map]
    rfl

theorem eq_of_commaSeparated {ps qs : List PositionId} {r s : List Char}
    (h : commaSeparated ps ++ '\x7d' :: r = commaSeparated qs ++ '\x7d' :: s) : ps = qs ∧ r = s := by
  have hlater : Legible NoDigitFirst fun q : PositionId => ',' :: ' ' :: (toString q.toNat).toList := by
    intro x y r s hr hs h
    exact legible_positionId hr hs (List.cons.inj (List.cons.inj h).2).2
  have hrest : ∀ (ps : List PositionId) (r : List Char),
      NoDigitFirst ((ps.flatMap fun q => ',' :: ' ' :: (toString q.toNat).toList) ++ '\x7d' :: r) := by
    intro ps r
    cases ps <;> simp
  cases ps with
  | nil =>
    cases qs with
    | nil => exact ⟨rfl, (List.cons.inj h).2⟩
    | cons q qs =>
      rw [commaSeparated, commaSeparated, List.append_assoc] at h
      exact absurd h.symm (toString_append_ne_cons _ (by decide) _ _)
  | cons p ps =>
    cases qs with
    | nil =>
      rw [commaSeparated, commaSeparated, List.append_assoc] at h
      exact absurd h (toString_append_ne_cons _ (by decide) _ _)
    | cons q qs =>
      rw [commaSeparated, commaSeparated, List.append_assoc, List.append_assoc] at h
      obtain ⟨rfl, htail⟩ := legible_positionId (hrest ps r) (hrest qs s) h
      -- the closing brace begins no further number
      obtain ⟨rfl, hrs⟩ := hlater.flatMap ['\x7d'] (by simp) (by simp) (by simp) htail
      exact ⟨rfl, hrs⟩

/-- A set ends with its brace. -/
theorem selfDelimiting_set : SelfDelimiting fun s : PositionSet => s.text.toList := by
  intro x y r s h
  simp only [toList_setText, List.cons_append, List.append_assoc, List.nil_append] at h
  obtain ⟨hlists, hrs⟩ := eq_of_commaSeparated (List.cons.inj h).2
  exact ⟨OrderedSet.toList_injective hlists, hrs⟩

end PositionAutomaton
