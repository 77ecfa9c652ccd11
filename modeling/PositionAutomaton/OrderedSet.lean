/-!
# Ordered sets

Finite sets kept as strictly ascending lists.  The key facts: what each operation does to membership
(`mem_insert`, `mem_union`, `mem_ofList`), and two sets with the same elements are equal (`OrderedSet.ext`).
-/

namespace PositionAutomaton

/-- Each element of the list comes strictly before all later ones. -/
def Ascending {α : Type} [Ord α] (l : List α) : Prop :=
  l.Pairwise fun x y => compare x y = .lt

instance {α : Type} [Ord α] (l : List α) : Decidable (Ascending l) :=
  inferInstanceAs (Decidable (l.Pairwise _))

section Ascending

variable {α : Type} [Ord α]

/-- The list with `x` at its place, unchanged if it holds `x` already. -/
def insertAscending (x : α) : List α → List α
  | [] => [x]
  | y :: ys =>
    match compare x y with
    | .lt => x :: y :: ys
    | .eq => y :: ys
    | .gt => y :: insertAscending x ys

/-- The elements of two ascending lists in one ascending list, those in both taken once. -/
def mergeAscending : List α → List α → List α
  | [], ys => ys
  | xs, [] => xs
  | x :: xs, y :: ys =>
    match compare x y with
    | .lt => x :: mergeAscending xs (y :: ys)
    | .eq => x :: mergeAscending xs ys
    | .gt => y :: mergeAscending (x :: xs) ys
termination_by xs ys => xs.length + ys.length

theorem ascending_nil : Ascending ([] : List α) :=
  List.Pairwise.nil

theorem ascending_cons {x : α} {l : List α} :
    Ascending (x :: l) ↔ (∀ y ∈ l, compare x y = .lt) ∧ Ascending l :=
  List.pairwise_cons

variable [Std.LawfulEqOrd α]

theorem mem_insertAscending {x y : α} {l : List α} :
    y ∈ insertAscending x l ↔ y = x ∨ y ∈ l := by
  induction l with
  | nil => simp [insertAscending]
  | cons a l ih =>
    unfold insertAscending
    split
    · simp
    · rename_i h
      have hxa : x = a := Std.LawfulEqOrd.eq_of_compare h
      simp [hxa]
    · simp only [List.mem_cons, ih]
      exact or_left_comm

theorem mem_mergeAscending {z : α} {xs ys : List α} :
    z ∈ mergeAscending xs ys ↔ z ∈ xs ∨ z ∈ ys := by
  fun_induction mergeAscending xs ys with
  | case1 ys => simp
  | case2 xs => simp
  | case3 x xs y ys h ih => simp [ih, or_assoc]
  | case4 x xs y ys h ih =>
    have hxy : x = y := Std.LawfulEqOrd.eq_of_compare h
    subst hxy
    simp only [List.mem_cons, ih]
    grind
  | case5 x xs y ys h ih =>
    simp only [List.mem_cons, ih]
    grind

variable [Std.TransOrd α]

theorem Ascending.insert {x : α} {l : List α} (h : Ascending l) : Ascending (insertAscending x l) := by
  induction l with
  | nil => simp [insertAscending, Ascending]
  | cons a l ih =>
    have ⟨ha, hl⟩ := ascending_cons.1 h
    unfold insertAscending
    split
    · rename_i hxa
      refine ascending_cons.2 ⟨fun y hy => ?_, h⟩
      rcases List.mem_cons.1 hy with rfl | hy
      · exact hxa
      · exact Std.TransCmp.lt_trans hxa (ha y hy)
    · exact h
    · rename_i hxa
      refine ascending_cons.2 ⟨fun y hy => ?_, ih hl⟩
      rcases mem_insertAscending.1 hy with rfl | hy
      · exact Std.OrientedCmp.lt_of_gt hxa
      · exact ha y hy

theorem Ascending.merge {xs ys : List α} (hx : Ascending xs) (hy : Ascending ys) :
    Ascending (mergeAscending xs ys) := by
  fun_induction mergeAscending xs ys with
  | case1 ys => exact hy
  | case2 xs => exact hx
  | case3 x xs y ys h ih =>
    have ⟨hx1, hx2⟩ := ascending_cons.1 hx
    have ⟨hy1, hy2⟩ := ascending_cons.1 hy
    refine ascending_cons.2 ⟨fun z hz => ?_, ih hx2 hy⟩
    rcases mem_mergeAscending.1 hz with hz | hz
    · exact hx1 z hz
    · rcases List.mem_cons.1 hz with rfl | hz
      · exact h
      · exact Std.TransCmp.lt_trans h (hy1 z hz)
  | case4 x xs y ys h ih =>
    have hxy : x = y := Std.LawfulEqOrd.eq_of_compare h
    subst hxy
    have ⟨hx1, hx2⟩ := ascending_cons.1 hx
    have ⟨hy1, hy2⟩ := ascending_cons.1 hy
    refine ascending_cons.2 ⟨fun z hz => ?_, ih hx2 hy2⟩
    rcases mem_mergeAscending.1 hz with hz | hz
    · exact hx1 z hz
    · exact hy1 z hz
  | case5 x xs y ys h ih =>
    have ⟨hx1, hx2⟩ := ascending_cons.1 hx
    have ⟨hy1, hy2⟩ := ascending_cons.1 hy
    have hyx : compare y x = .lt := Std.OrientedCmp.lt_of_gt h
    refine ascending_cons.2 ⟨fun z hz => ?_, ih hx hy2⟩
    rcases mem_mergeAscending.1 hz with hz | hz
    · rcases List.mem_cons.1 hz with rfl | hz
      · exact hyx
      · exact Std.TransCmp.lt_trans hyx (hx1 z hz)
    · exact hy1 z hz

/-- An ascending list is determined by its elements. -/
theorem Ascending.ext {l l' : List α} (h : Ascending l) (h' : Ascending l')
    (hmem : ∀ x, x ∈ l ↔ x ∈ l') : l = l' := by
  induction l generalizing l' with
  | nil =>
    cases l' with
    | nil => rfl
    | cons b l' => exact absurd ((hmem b).2 (by simp)) (by simp)
  | cons a l ih =>
    cases l' with
    | nil => exact absurd ((hmem a).1 (by simp)) (by simp)
    | cons b l' =>
      have ⟨ha, hl⟩ := ascending_cons.1 h
      have ⟨hb, hl'⟩ := ascending_cons.1 h'
      have irrefl : ∀ x : α, compare x x ≠ .lt := fun x => by simp [Std.ReflCmp.compare_self]
      have hab : a = b := by
        rcases List.mem_cons.1 ((hmem a).1 (by simp)) with hab | ha'
        · exact hab
        · rcases List.mem_cons.1 ((hmem b).2 (by simp)) with hba | hb'
          · exact hba.symm
          · exact absurd (Std.TransCmp.lt_trans (hb a ha') (ha b hb')) (irrefl b)
      subst hab
      congr 1
      refine ih hl hl' fun x => ⟨fun hx => ?_, fun hx => ?_⟩
      · rcases List.mem_cons.1 ((hmem x).1 (by simp [hx])) with rfl | hx'
        · exact absurd (ha x hx) (irrefl x)
        · exact hx'
      · rcases List.mem_cons.1 ((hmem x).2 (by simp [hx])) with rfl | hx'
        · exact absurd (hb x hx) (irrefl x)
        · exact hx'

end Ascending

/-- A finite set, listed in ascending order. -/
structure OrderedSet (α : Type) [Ord α] where
  toList : List α
  ascending : Ascending toList
deriving DecidableEq

namespace OrderedSet

variable {α : Type} [Ord α]

instance : Membership α (OrderedSet α) :=
  ⟨fun s x => x ∈ s.toList⟩

instance [DecidableEq α] (x : α) (s : OrderedSet α) : Decidable (x ∈ s) :=
  inferInstanceAs (Decidable (x ∈ s.toList))

instance : EmptyCollection (OrderedSet α) :=
  ⟨⟨[], ascending_nil⟩⟩

instance : Inhabited (OrderedSet α) :=
  ⟨∅⟩

/-- Sets are ordered as their lists: by the first difference, a beginning before the longer list. -/
instance : Ord (OrderedSet α) :=
  ⟨fun s t => compare s.toList t.toList⟩

instance : Singleton α (OrderedSet α) :=
  ⟨fun x => ⟨[x], List.pairwise_singleton ..⟩⟩

def isEmpty (s : OrderedSet α) : Bool :=
  s.toList.isEmpty

theorem mem_toList {x : α} {s : OrderedSet α} : x ∈ s.toList ↔ x ∈ s :=
  Iff.rfl

theorem toList_injective {s t : OrderedSet α} (h : s.toList = t.toList) : s = t := by
  cases s
  cases t
  simpa using h

@[simp]
theorem not_mem_empty {x : α} : ¬ x ∈ (∅ : OrderedSet α) :=
  List.not_mem_nil

@[simp]
theorem mem_singleton {x y : α} : x ∈ ({y} : OrderedSet α) ↔ x = y :=
  List.mem_singleton

theorem isEmpty_iff {s : OrderedSet α} : s.isEmpty = true ↔ s = ∅ := by
  rw [isEmpty, List.isEmpty_iff]
  exact ⟨fun h => toList_injective h, fun h => h ▸ rfl⟩

theorem isEmpty_eq_false_iff {s : OrderedSet α} : s.isEmpty = false ↔ ∃ x, x ∈ s := by
  rw [isEmpty, List.isEmpty_eq_false_iff_exists_mem]
  rfl

theorem nodup [Std.LawfulEqOrd α] (s : OrderedSet α) : s.toList.Nodup :=
  s.ascending.imp fun h he => by simp [he, Std.ReflCmp.compare_self] at h

variable [Std.TransOrd α] [Std.LawfulEqOrd α]

def insert (s : OrderedSet α) (x : α) : OrderedSet α :=
  ⟨insertAscending x s.toList, s.ascending.insert⟩

def union (s t : OrderedSet α) : OrderedSet α :=
  ⟨mergeAscending s.toList t.toList, s.ascending.merge t.ascending⟩

instance : Union (OrderedSet α) :=
  ⟨union⟩

/-- The elements of a list, whatever their order and however often they occur. -/
def ofList (l : List α) : OrderedSet α :=
  l.foldl insert ∅

/-- The union of the sets in a list. -/
def unions (l : List (OrderedSet α)) : OrderedSet α :=
  l.foldl union ∅

/-- Two sets with the same elements are equal. -/
@[ext]
theorem ext {s t : OrderedSet α} (h : ∀ x, x ∈ s ↔ x ∈ t) : s = t :=
  toList_injective (s.ascending.ext t.ascending h)

@[simp]
theorem mem_insert {x y : α} {s : OrderedSet α} : y ∈ s.insert x ↔ y = x ∨ y ∈ s :=
  mem_insertAscending

@[simp]
theorem mem_union {x : α} {s t : OrderedSet α} : x ∈ s ∪ t ↔ x ∈ s ∨ x ∈ t :=
  mem_mergeAscending

@[simp]
theorem mem_ofList {x : α} {l : List α} : x ∈ ofList l ↔ x ∈ l := by
  suffices h : ∀ s : OrderedSet α, x ∈ l.foldl insert s ↔ x ∈ s ∨ x ∈ l by simpa [ofList] using h ∅
  induction l with
  | nil => simp
  | cons a l ih =>
    intro s
    simp only [List.foldl_cons, ih, mem_insert, List.mem_cons]
    grind

@[simp]
theorem mem_unions {x : α} {l : List (OrderedSet α)} : x ∈ unions l ↔ ∃ s ∈ l, x ∈ s := by
  suffices h : ∀ s : OrderedSet α, x ∈ l.foldl union s ↔ x ∈ s ∨ ∃ t ∈ l, x ∈ t by
    simpa [unions] using h ∅
  induction l with
  | nil => simp
  | cons a l ih =>
    intro s
    have := mem_union (x := x) (s := s) (t := a)
    rw [List.foldl_cons, ih, show s.union a = s ∪ a from rfl, this, or_assoc]
    simp

@[simp]
theorem ofList_toList (s : OrderedSet α) : ofList s.toList = s := by
  ext x
  rw [mem_ofList, mem_toList]

instance : Std.TransOrd (OrderedSet α) where
  eq_swap := Std.OrientedOrd.eq_swap (α := List α)
  isLE_trans := Std.TransOrd.isLE_trans (α := List α)

instance : Std.LawfulEqOrd (OrderedSet α) where
  compare_self := Std.ReflOrd.compare_self (α := List α)
  eq_of_compare h := toList_injective (Std.LawfulEqOrd.eq_of_compare (α := List α) h)

end OrderedSet

end PositionAutomaton
