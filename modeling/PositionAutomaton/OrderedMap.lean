import PositionAutomaton.OrderedSet

/-!
# Ordered maps

Finite maps kept as lists of entries with strictly ascending keys.  The key facts: an entry is in the list exactly
if it is what `get?` finds (`mem_toList_iff`), the last value inserted for a key is the one found (`get?_insert`),
two maps that find the same values are equal (`OrderedMap.ext`), the map of a list finds the last value of each key
(`get?_ofList`), and a map is that of its entries (`ofList_toList`).
-/

namespace PositionAutomaton

section Entries

variable {κ ν : Type} [Ord κ]

/-- The entries with `k` leading to `v`, in place of what `k` led to before. -/
def insertEntry (k : κ) (v : ν) : List (κ × ν) → List (κ × ν)
  | [] => [(k, v)]
  | e :: l =>
    match compare k e.1 with
    | .lt => (k, v) :: e :: l
    | .eq => (k, v) :: l
    | .gt => e :: insertEntry k v l

theorem map_fst_insertEntry [Std.LawfulEqOrd κ] (k : κ) (v : ν) (l : List (κ × ν)) :
    (insertEntry k v l).map Prod.fst = insertAscending k (l.map Prod.fst) := by
  induction l with
  | nil => rfl
  | cons e l ih =>
    simp only [insertEntry, List.map_cons, insertAscending]
    cases h : compare k e.1 with
    | lt => rfl
    | eq => simp [Std.LawfulEqOrd.eq_of_compare h]
    | gt => simp [ih]

end Entries

/-- A finite map, listed in ascending order of its keys. -/
structure OrderedMap (κ ν : Type) [Ord κ] where
  toList : List (κ × ν)
  ascending : Ascending (toList.map Prod.fst)
deriving DecidableEq

namespace OrderedMap

variable {κ ν : Type} [Ord κ]

instance : EmptyCollection (OrderedMap κ ν) :=
  ⟨⟨[], ascending_nil⟩⟩

instance : Inhabited (OrderedMap κ ν) :=
  ⟨∅⟩

def keys (m : OrderedMap κ ν) : List κ :=
  m.toList.map Prod.fst

def get? (m : OrderedMap κ ν) (k : κ) : Option ν :=
  (m.toList.find? fun e => compare k e.1 == .eq).map Prod.snd

def contains (m : OrderedMap κ ν) (k : κ) : Bool :=
  (m.get? k).isSome

theorem toList_injective {m m' : OrderedMap κ ν} (h : m.toList = m'.toList) : m = m' := by
  cases m
  cases m'
  simpa using h

@[simp]
theorem get?_empty (k : κ) : (∅ : OrderedMap κ ν).get? k = none :=
  rfl

variable [Std.LawfulEqOrd κ]

private theorem find?_entry {l : List (κ × ν)} (h : Ascending (l.map Prod.fst)) {k : κ} {v : ν} :
    (l.find? fun e => compare k e.1 == .eq).map Prod.snd = some v ↔ (k, v) ∈ l := by
  induction l with
  | nil => simp
  | cons e l ih =>
    obtain ⟨k', v'⟩ := e
    have ⟨hk, hl⟩ := ascending_cons.1 h
    rw [List.find?_cons]
    by_cases hkk : k = k'
    · subst hkk
      have hnot : (k, v) ∉ l := fun hm => by
        have := hk k (List.mem_map.2 ⟨_, hm, rfl⟩)
        simp [Std.ReflCmp.compare_self] at this
      simp [Std.ReflCmp.compare_self, hnot, eq_comm]
    · have hne : (compare k k' == .eq) = false := by
        simpa using fun h => hkk (Std.LawfulEqOrd.eq_of_compare h)
      rw [hne, ih hl]
      simp [hkk]

/-- The list holds exactly the entries that `get?` finds. -/
theorem mem_toList_iff {m : OrderedMap κ ν} {k : κ} {v : ν} : (k, v) ∈ m.toList ↔ m.get? k = some v :=
  (find?_entry m.ascending).symm

theorem nodup_keys (m : OrderedMap κ ν) : (m.toList.map Prod.fst).Nodup :=
  m.ascending.imp fun h he => by simp [he, Std.ReflCmp.compare_self] at h

variable [Std.TransOrd κ]

def insert (m : OrderedMap κ ν) (k : κ) (v : ν) : OrderedMap κ ν :=
  ⟨insertEntry k v m.toList, map_fst_insertEntry k v m.toList ▸ m.ascending.insert⟩

/-- The entries of a list, the last one of a repeated key. -/
def ofList (l : List (κ × ν)) : OrderedMap κ ν :=
  l.foldl (fun m e => m.insert e.1 e.2) ∅

private theorem mem_insertEntry [DecidableEq κ] {l : List (κ × ν)} (h : Ascending (l.map Prod.fst))
    {k k' : κ} {v v' : ν} : (k', v') ∈ insertEntry k v l ↔ if k' = k then v' = v else (k', v') ∈ l := by
  induction l with
  | nil => by_cases hk : k' = k <;> simp [insertEntry, hk]
  | cons e l ih =>
    obtain ⟨a, b⟩ := e
    have ⟨ha, hl⟩ := ascending_cons.1 h
    have irrefl : ∀ x : κ, compare x x ≠ .lt := fun x => by simp [Std.ReflCmp.compare_self]
    have later : ∀ w, (a, w) ∉ l := fun w hw => irrefl a (ha a (List.mem_map.2 ⟨_, hw, rfl⟩))
    unfold insertEntry
    split
    · rename_i hka
      have hne : k ≠ a := fun h => irrefl a (h ▸ hka)
      have absent : ∀ w, (k, w) ∉ l := fun w hw =>
        irrefl k (Std.TransCmp.lt_trans hka (ha k (List.mem_map.2 ⟨_, hw, rfl⟩)))
      by_cases hk : k' = k
      · subst hk
        simp [hne, absent]
      · simp [hk]
    · rename_i hka
      have hka : k = a := Std.LawfulEqOrd.eq_of_compare hka
      subst hka
      by_cases hk : k' = k
      · subst hk
        simp [later]
      · simp [hk]
    · rename_i hka
      have hne : a ≠ k := fun h => by simp [h, Std.ReflCmp.compare_self] at hka
      by_cases hk : k' = k
      · subst hk
        simp [ih hl, Ne.symm hne]
      · simp [ih hl, hk]

/-- After an insertion the key leads to the new value and every other key where it led before. -/
theorem get?_insert [DecidableEq κ] (m : OrderedMap κ ν) (k k' : κ) (v : ν) :
    (m.insert k v).get? k' = if k' = k then some v else m.get? k' := by
  apply Option.ext
  intro v'
  rw [← mem_toList_iff, insert, mem_insertEntry m.ascending]
  by_cases hk : k' = k
  · simp [hk, eq_comm]
  · simp [hk, mem_toList_iff]

private theorem entries_ext {l l' : List (κ × ν)} (h : Ascending (l.map Prod.fst))
    (h' : Ascending (l'.map Prod.fst)) (hmem : ∀ k v, (k, v) ∈ l ↔ (k, v) ∈ l') : l = l' := by
  have fsts : l.map Prod.fst = l'.map Prod.fst := by
    refine h.ext h' fun k => ?_
    simp only [List.mem_map, Prod.exists, exists_and_right, exists_eq_right, hmem]
  have noTwo : ∀ {k v v'}, (k, v) ∈ l → (k, v') ∈ l → v = v' := fun hv hv' => by
    have := (find?_entry h).2 hv
    rw [(find?_entry h).2 hv'] at this
    exact (Option.some.inj this).symm
  apply List.ext_getElem?
  intro i
  have hlen : l.length = l'.length := by simpa using congrArg List.length fsts
  by_cases hi : i < l.length
  · have hi' : i < l'.length := hlen ▸ hi
    have hk : (l[i]).1 = (l'[i]).1 := by
      have : (l.map Prod.fst)[i]? = (l'.map Prod.fst)[i]? := by rw [fsts]
      simpa [hi, hi'] using this
    have hmem' : ((l[i]).1, (l'[i]).2) ∈ l := by
      rw [hmem, hk]
      exact List.getElem_mem hi'
    have hv : (l[i]).2 = (l'[i]).2 := noTwo (List.getElem_mem hi) hmem'
    rw [List.getElem?_eq_getElem hi, List.getElem?_eq_getElem hi']
    exact congrArg some (Prod.ext hk hv)
  · rw [List.getElem?_eq_none (by omega), List.getElem?_eq_none (by omega)]

/-- Two maps that find the same values are equal. -/
@[ext]
theorem ext {m m' : OrderedMap κ ν} (h : ∀ k, m.get? k = m'.get? k) : m = m' :=
  toList_injective <| entries_ext m.ascending m'.ascending fun k v => by
    rw [mem_toList_iff, mem_toList_iff, h]

/-- The map of a list leads a key to the value of its last entry in the list. -/
theorem get?_ofList [DecidableEq κ] (l : List (κ × ν)) (k : κ) :
    (ofList l).get? k = (l.reverse.find? fun e => e.1 = k).map Prod.snd := by
  suffices key : ∀ m : OrderedMap κ ν, (l.foldl (fun m e => m.insert e.1 e.2) m).get? k =
      ((l.reverse.find? fun e => e.1 = k).map Prod.snd).or (m.get? k) by
    simpa [ofList] using key ∅
  induction l with
  | nil => simp
  | cons e l ih =>
    intro m
    rw [List.foldl_cons, ih, List.reverse_cons, List.find?_append, get?_insert]
    cases l.reverse.find? fun e => e.1 = k with
    | some e' => rfl
    | none =>
      by_cases hk : k = e.1
      · simp [hk]
      · simp [hk, Ne.symm hk]

theorem mem_of_mem_ofList {l : List (κ × ν)} {e : κ × ν} (h : e ∈ (ofList l).toList) : e ∈ l := by
  classical
  obtain ⟨k, v⟩ := e
  rw [mem_toList_iff, get?_ofList, Option.map_eq_some_iff] at h
  obtain ⟨⟨k', v'⟩, hfind, rfl⟩ := h
  obtain rfl : k' = k := by simpa using List.find?_some hfind
  exact List.mem_reverse.1 (List.mem_of_find?_eq_some hfind)

/-- Where no key is repeated, the map of a list finds the entries of the list. -/
theorem get?_ofList_eq_some_iff [DecidableEq κ] {l : List (κ × ν)} (h : (l.map Prod.fst).Nodup) {k : κ} {v : ν} :
    (ofList l).get? k = some v ↔ (k, v) ∈ l := by
  -- from any map that has none of the keys yet
  suffices key : ∀ m : OrderedMap κ ν, (∀ e ∈ l, m.get? e.1 = none) →
      ((l.foldl (fun m e => m.insert e.1 e.2) m).get? k = some v ↔ m.get? k = some v ∨ (k, v) ∈ l) by
    simpa [ofList] using key ∅ fun e _ => get?_empty e.1
  induction l with
  | nil => simp
  | cons e l ih =>
    intro m hm
    obtain ⟨hne, hnodup⟩ := List.nodup_cons.1 h
    have hkeys : ∀ e' ∈ l, (m.insert e.1 e.2).get? e'.1 = none := by
      intro e' he'
      have hkey : e'.1 ≠ e.1 := fun heq => hne (heq ▸ List.mem_map.2 ⟨e', he', rfl⟩)
      rw [get?_insert, if_neg hkey]
      exact hm e' (List.mem_cons_of_mem e he')
    rw [List.foldl_cons, ih hnodup _ hkeys, get?_insert, List.mem_cons]
    by_cases hk : k = e.1
    · subst hk
      simp [hm e List.mem_cons_self, Prod.ext_iff, eq_comm]
    · simp [hk, Prod.ext_iff]

@[simp]
theorem ofList_toList (m : OrderedMap κ ν) : ofList m.toList = m := by
  classical
  ext k v
  rw [get?_ofList_eq_some_iff m.nodup_keys, mem_toList_iff]

end OrderedMap

end PositionAutomaton
