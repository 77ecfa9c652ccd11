import Mathlib.Data.List.DropRight
import Mathlib.Data.List.Infix
import PositionAutomaton.Proofs.Arena.Lookup
import PositionAutomaton.Proofs.PatternTree.LinkingFailures

/-!
# What an arena records

An arena is determined by the calls that were made on it.  The calls alone say which symbols were allocated since the
last reset (`allocated`) and which followers a position was given since then (`GivenFollower`).  While the positions can
be numbered, each call keeps the arena in step with them (`Records.call`), so any sequence of calls from the empty arena
does (`records_build`): the arena is a map from the numbers that were handed out to what was recorded for them.
-/

namespace PositionAutomaton

namespace Arena

/-- A call that changes an arena, with any numbers. -/
inductive Call where
  | allocate (symbol : Symbol)
  | reset
  | addFollowers (id : PositionId) (ids : List PositionId)
deriving DecidableEq

/-- The arena after a call, the same one if followers are given to a number that was not handed out. -/
def call (a : Arena) : Call → Arena
  | .allocate symbol => (a.allocate symbol).2
  | .reset => a.reset
  | .addFollowers id ids => (a.addFollowers? id (.ofList ids)).getD a

/-- The arena that the calls, one after the other, make of the empty one. -/
def build (calls : List Call) : Arena :=
  calls.foldl call ∅

theorem build_concat (calls : List Call) (c : Call) : build (calls ++ [c]) = (build calls).call c :=
  List.foldl_concat ..

/-! ### Histories -/

/-- The symbol that a call allocates. -/
def Call.symbol? : Call → Option Symbol
  | .allocate symbol => some symbol
  | .reset | .addFollowers .. => none

/-- The symbols that were allocated since the last reset, or since the beginning if there was none. -/
def allocated (calls : List Call) : List Symbol :=
  (calls.rtakeWhile (· ≠ .reset)).filterMap Call.symbol?

/-- After the allocation of `p`, and with no reset since, `q` was given to `p` as a follower. -/
def GivenFollower (calls : List Call) (p q : PositionId) : Prop :=
  ∃ before ids later, calls = before ++ .addFollowers p ids :: later ∧ p.toNat ≤ (allocated before).length ∧
    .reset ∉ later ∧ q ∈ ids

variable {calls later : List Call} {p q : PositionId}

theorem allocated_append (h : .reset ∉ later) :
    allocated (calls ++ later) = allocated calls ++ later.filterMap Call.symbol? := by
  have hlater : ∀ c ∈ later.reverse, decide (c ≠ .reset) = true := by
    intro c hc
    rw [decide_eq_true_eq]
    rintro rfl
    exact h (List.mem_reverse.1 hc)
  rw [allocated, List.rtakeWhile, List.reverse_append, List.takeWhile_append_of_pos hlater, List.reverse_append,
    List.reverse_reverse, List.filterMap_append]
  rfl

theorem allocated_concat_reset (calls : List Call) : allocated (calls ++ [.reset]) = [] := by
  rw [allocated, List.rtakeWhile_concat_neg _ _ _ (by simp)]
  rfl

theorem GivenFollower.le_length (h : GivenFollower calls p q) : p.toNat ≤ (allocated calls).length := by
  obtain ⟨before, ids, later, rfl, hp, hreset, -⟩ := h
  have hlater : .reset ∉ .addFollowers p ids :: later := by simpa using hreset
  rw [allocated_append hlater, List.length_append]
  omega

/-- A follower was given before the last call, which is no reset, or it is given by the last call. -/
theorem givenFollower_concat_iff {c : Call} : GivenFollower (calls ++ [c]) p q ↔
    c ≠ .reset ∧ GivenFollower calls p q ∨
      ∃ ids, c = .addFollowers p ids ∧ p.toNat ≤ (allocated calls).length ∧ q ∈ ids := by
  constructor
  · rintro ⟨before, ids, later, hsplit, hp, hreset, hq⟩
    rcases append_cons_eq_append hsplit.symm with ⟨later, rfl, rfl⟩ | ⟨rest, rfl, hlast⟩
    · rw [List.mem_append, not_or, List.mem_singleton] at hreset
      exact Or.inl ⟨Ne.symm hreset.2, before, ids, later, rfl, hp, hreset.1, hq⟩
    · cases rest with
      | nil =>
        obtain ⟨rfl, -⟩ := List.cons.inj hlast
        rw [List.append_nil] at hp
        exact Or.inr ⟨ids, rfl, hp, hq⟩
      | cons d rest => simp at hlast
  · rintro (⟨hc, before, ids, later, rfl, hp, hreset, hq⟩ | ⟨ids, rfl, hp, hq⟩)
    · exact ⟨before, ids, later ++ [c], by simp, hp, by simp [hreset, Ne.symm hc], hq⟩
    · exact ⟨calls, ids, [], rfl, hp, List.not_mem_nil, hq⟩

/-! ### New positions -/

variable {a : Arena}

theorem toNat_nextId (h : a.size + 1 < 2 ^ 32) : a.nextId.toNat = a.size + 1 := by
  rw [nextId, ← ofNat_succ]
  exact UInt32.toNat_ofNat_of_lt' h

theorem size_allocate (a : Arena) (symbol : Symbol) : (a.allocate symbol).2.size = a.size + 1 :=
  Array.size_push ..

/-- A new number leads to the new position, and all others lead where they led. -/
theorem get?_allocate (h : a.size + 1 < 2 ^ 32) (symbol : Symbol) (p : PositionId) :
    (a.allocate symbol).2.get? p = if p = a.nextId then some { id := a.nextId, symbol } else a.get? p := by
  have hid := toNat_nextId h
  unfold get? allocate
  by_cases h0 : p = 0
  · have hne : p ≠ a.nextId := by
      rintro rfl
      rw [h0] at hid
      simp at hid
    rw [if_pos h0, if_pos h0, if_neg hne]
  · have h0' := toNat_ne_zero h0
    rw [if_neg h0, if_neg h0, Array.getElem?_push]
    by_cases hp : p = a.nextId
    · have hindex : p.toNat - 1 = a.positions.size := by
        rw [hp, hid]
        rfl
      rw [if_pos hindex, if_pos hp]
    · have hindex : p.toNat - 1 ≠ a.positions.size := by
        intro he
        refine hp (UInt32.toNat_inj.1 ?_)
        rw [hid]
        show _ = a.positions.size + 1
        omega
      rw [if_neg hindex, if_neg hp]

/-! ### Calls and the arena -/

/-- The arena is what the calls say: the numbers lead to the symbols that were allocated since the last reset, each with
the followers that it was given since it was allocated. -/
structure Records (calls : List Call) (a : Arena) : Prop where
  size_eq : a.size = (allocated calls).length
  get?_eq : ∀ {p x}, a.get? p = some x → x.id = p ∧ (allocated calls)[p.toNat - 1]? = some x.symbol ∧
    ∀ q, q ∈ x.followpos ↔ GivenFollower calls p q

theorem records_empty : Records [] ∅ where
  size_eq := rfl
  get?_eq {p x} h := by
    obtain ⟨-, hx⟩ := get?_eq_some_iff.1 h
    simp [EmptyCollection.emptyCollection, empty] at hx

namespace Records

theorem allocate (h : Records calls a) (hsize : a.size + 1 < 2 ^ 32) (symbol : Symbol) :
    Records (calls ++ [.allocate symbol]) (a.call (.allocate symbol)) := by
  have hid := toNat_nextId hsize
  have hallocated : allocated (calls ++ [.allocate symbol]) = allocated calls ++ [symbol] :=
    allocated_append (by simp)
  refine ⟨?_, fun {p x} hx => ?_⟩
  · rw [hallocated, List.length_append, ← h.size_eq]
    exact size_allocate a symbol
  · rw [hallocated]
    have hgiven : ∀ q, GivenFollower (calls ++ [.allocate symbol]) p q ↔ GivenFollower calls p q := by
      simp [givenFollower_concat_iff]
    simp only [hgiven]
    change (a.allocate symbol).2.get? p = some x at hx
    rw [get?_allocate hsize] at hx
    split at hx
    · -- the new position has no followers yet, and its number was given none
      rename_i hp
      obtain rfl := Option.some.inj hx
      refine ⟨hp.symm, ?_, fun q => iff_of_false OrderedSet.not_mem_empty fun hq => ?_⟩
      · rw [hp, hid, Nat.add_sub_cancel, h.size_eq]
        exact List.getElem?_concat_length
      · have hle := hq.le_length
        rw [hp, hid, ← h.size_eq] at hle
        omega
    · obtain ⟨hxid, hsymbol, hfollow⟩ := h.get?_eq hx
      exact ⟨hxid, List.getElem?_append_left (List.getElem?_eq_some_iff.1 hsymbol).1 ▸ hsymbol, hfollow⟩

theorem reset (calls : List Call) (a : Arena) : Records (calls ++ [.reset]) (a.call .reset) where
  size_eq := by
    rw [allocated_concat_reset]
    rfl
  get?_eq h := by
    obtain ⟨-, hx⟩ := get?_eq_some_iff.1 h
    simp [Arena.call, Arena.reset, empty] at hx

/-- Positions that are found were allocated, so what is given to them counts. -/
theorem givenFollower_addFollowers_iff (h : Records calls a) {x : Position} (hx : a.get? p = some x) (id : PositionId)
    (ids : List PositionId) :
    GivenFollower (calls ++ [.addFollowers id ids]) p q ↔ q ∈ x.followpos ∨ p = id ∧ q ∈ ids := by
  obtain ⟨-, -, hfollow⟩ := h.get?_eq hx
  have hle : p.toNat ≤ (allocated calls).length := h.size_eq ▸ (isSome_get?_iff.1 (Option.isSome_of_eq_some hx)).2
  rw [givenFollower_concat_iff, hfollow]
  simp only [Call.addFollowers.injEq, hle, true_and, ne_eq, reduceCtorEq, not_false_eq_true]
  grind

theorem addFollowers (h : Records calls a) (id : PositionId) (ids : List PositionId) :
    Records (calls ++ [.addFollowers id ids]) (a.call (.addFollowers id ids)) := by
  have hallocated : allocated (calls ++ [.addFollowers id ids]) = allocated calls :=
    (allocated_append (by simp)).trans (List.append_nil _)
  by_cases hid : (a.get? id).isSome
  · obtain ⟨b, hb, hlinked⟩ := addFollowers?_spec (.ofList ids) hid
    rw [show a.call (.addFollowers id ids) = b by rw [Arena.call, hb]; rfl]
    refine ⟨?_, fun {p y} hy => ?_⟩
    · rw [hlinked.size_eq, hallocated, h.size_eq]
    · cases hx : a.get? p with
      | none => cases (hlinked.get?_none hx).symm.trans hy
      | some x =>
        obtain ⟨s, hs, hmem⟩ := hlinked.get?_some hx
        obtain rfl := Option.some.inj (hs.symm.trans hy)
        obtain ⟨hxid, hsymbol, -⟩ := h.get?_eq hx
        refine ⟨hxid, hallocated ▸ hsymbol, fun q => ?_⟩
        rw [hmem, h.givenFollower_addFollowers_iff hx, OrderedSet.mem_ofList]
  · rw [show a.call (.addFollowers id ids) = a by rw [Arena.call, addFollowers?_eq_none hid]; rfl]
    refine ⟨?_, fun {p x} hx => ?_⟩
    · rw [hallocated, h.size_eq]
    · obtain ⟨hxid, hsymbol, -⟩ := h.get?_eq hx
      refine ⟨hxid, hallocated ▸ hsymbol, fun q => ?_⟩
      rw [h.givenFollower_addFollowers_iff hx, or_iff_left]
      rintro ⟨rfl, -⟩
      exact hid (Option.isSome_of_eq_some hx)

/-- Each call keeps the arena in step with the calls, as long as there is a number for a new position. -/
theorem call (h : Records calls a) {c : Call} (hsize : (a.call c).size < 2 ^ 32) :
    Records (calls ++ [c]) (a.call c) := by
  cases c with
  | allocate symbol => exact h.allocate (size_allocate a symbol ▸ hsize) symbol
  | reset => exact .reset calls a
  | addFollowers id ids => exact h.addFollowers id ids

end Records

/-- The positions of every arena on the way can be numbered. -/
theorem records_build (h : ∀ before, before <+: calls → (build before).size ≤ 2 ^ 32 - 1) :
    Records calls (build calls) := by
  induction calls using List.reverseRecOn with
  | nil => exact records_empty
  | append_singleton calls c ih =>
    have hrecords := ih fun before hbefore => h before (hbefore.trans (List.prefix_append ..))
    have hsize := h _ (List.prefix_refl _)
    rw [build_concat] at hsize ⊢
    exact hrecords.call (Nat.lt_of_le_of_lt hsize (by decide))

/-! ### Questions -/

theorem isSome_get?_iff_le {a : Arena} {p : PositionId} : (a.get? p).isSome ↔ 1 ≤ p.toNat ∧ p.toNat ≤ a.size := by
  rw [isSome_get?_iff]
  refine and_congr_left fun _ => ⟨fun h0 => Nat.one_le_iff_ne_zero.2 (toNat_ne_zero h0), ?_⟩
  rintro h1 rfl
  simp at h1

/-- Followers are refused exactly for numbers that were not handed out. -/
theorem addFollowers?_eq_none_iff {a : Arena} {p : PositionId} {ids : PositionSet} :
    a.addFollowers? p ids = none ↔ ¬ (1 ≤ p.toNat ∧ p.toNat ≤ a.size) := by
  rw [← isSome_get?_iff_le]
  refine ⟨fun h hp => ?_, fun h => addFollowers?_eq_none h ids⟩
  obtain ⟨b, hb, -⟩ := addFollowers?_spec ids hp
  cases h.symm.trans hb

theorem Indexed.firstMatching?_eq_some_iff {a : Arena} (h : a.Indexed) {s : Symbol} {p : PositionId} :
    a.firstMatching? s = some p ↔ a.symbol? p = some s ∧ ∀ q, a.symbol? q = some s → p ≤ q := by
  constructor
  · intro hp
    by_cases hs : ∃ q, a.symbol? q = some s
    · obtain ⟨q, hq⟩ := hs
      obtain ⟨e, he, hsymbol, hle⟩ := h.exists_firstMatching? hq
      obtain rfl := Option.some.inj (he.symm.trans hp)
      exact ⟨hsymbol, hle⟩
    · cases (h.firstMatching?_eq_none fun q hq => hs ⟨q, hq⟩).symm.trans hp
  · rintro ⟨hp, hle⟩
    obtain ⟨e, he, hsymbol, hleast⟩ := h.exists_firstMatching? hp
    rw [he, UInt32.le_antisymm (hleast p hp) (hle e hsymbol)]

namespace Records

theorem indexed (h : Records calls a) (hsize : a.size < 2 ^ 32) : a.Indexed :=
  ⟨hsize, fun hx => (h.get?_eq hx).1⟩

/-- The symbols that are found are those that were allocated. -/
theorem exists_symbol?_iff (h : Records calls a) (hsize : a.size < 2 ^ 32) {s : Symbol} :
    (∃ p, a.symbol? p = some s) ↔ s ∈ allocated calls := by
  constructor
  · rintro ⟨p, hp⟩
    obtain ⟨x, hx, rfl⟩ := symbol?_eq_some_iff.1 hp
    obtain ⟨-, hsymbol, -⟩ := h.get?_eq hx
    exact List.mem_of_getElem? hsymbol
  · intro hs
    obtain ⟨i, hi⟩ := List.mem_iff_getElem?.1 hs
    have hlt : i < a.size := h.size_eq ▸ (List.getElem?_eq_some_iff.1 hi).1
    have hid : ((1 : PositionId) + .ofNat i).toNat = i + 1 := toNat_one_add_ofNat (by omega)
    have hsome : (a.get? (1 + .ofNat i)).isSome := by
      rw [isSome_get?_iff_le, hid]
      omega
    obtain ⟨x, hx⟩ := Option.isSome_iff_exists.1 hsome
    obtain ⟨-, hsymbol, -⟩ := h.get?_eq hx
    rw [hid, Nat.add_sub_cancel, hi] at hsymbol
    exact ⟨_, symbol?_eq_some_iff.2 ⟨x, hx, (Option.some.inj hsymbol).symm⟩⟩

end Records

/-- An allocation gives the number of allocations since the last reset, itself included. -/
theorem toNat_allocate_build {before rest : List Call} {s : Symbol}
    (h : ∀ calls, calls <+: before ++ .allocate s :: rest → (build calls).size ≤ 2 ^ 32 - 1) :
    ((build before).allocate s).1.toNat = (allocated before).length + 1 := by
  have hrecords := records_build fun calls hcalls => h calls (hcalls.trans (List.prefix_append ..))
  have hsize := h (before ++ [.allocate s]) ⟨rest, by simp⟩
  rw [build_concat, call, size_allocate] at hsize
  rw [← hrecords.size_eq]
  exact toNat_nextId (by omega)

/-- Two allocations with no reset between them give different numbers. -/
theorem allocate_ne {before between rest : List Call} {s t : Symbol}
    (h : ∀ calls, calls <+: before ++ .allocate s :: (between ++ .allocate t :: rest) →
      (build calls).size ≤ 2 ^ 32 - 1) (hreset : .reset ∉ between) :
    ((build before).allocate s).1 ≠ ((build (before ++ .allocate s :: between)).allocate t).1 := by
  have hfirst := toNat_allocate_build h
  rw [← List.cons_append, ← List.append_assoc] at h
  have hsecond := toNat_allocate_build h
  have hreset : .reset ∉ .allocate s :: between := by simpa using hreset
  have hlength : ((.allocate s :: between).filterMap Call.symbol?).length =
      (between.filterMap Call.symbol?).length + 1 := rfl
  rw [allocated_append hreset, List.length_append, hlength] at hsecond
  intro heq
  rw [← heq] at hsecond
  omega

/-- While the positions can be numbered, the arena that any calls make is a map from the numbers of the symbols that were
allocated since the last reset, counted from 1, to these symbols and to the followers that were given since.  Followers
are refused for other numbers, which changes nothing; between resets no number is given twice; the position that is found
for a symbol is the first one, and the alphabet holds the characters that were allocated. -/
theorem build_records (calls : List Call) (h : ∀ before, before <+: calls → (build before).size ≤ 2 ^ 32 - 1) :
    (build calls).size = (allocated calls).length ∧
    (∀ p, ((build calls).get? p).isSome ↔ 1 ≤ p.toNat ∧ p.toNat ≤ (build calls).size) ∧
    (∀ p x, (build calls).get? p = some x → x.id = p ∧ (allocated calls)[p.toNat - 1]? = some x.symbol ∧
      ∀ q, q ∈ x.followpos ↔ GivenFollower calls p q) ∧
    (∀ p ids, ((build calls).addFollowers? p (.ofList ids) = none ↔
        ¬ (1 ≤ p.toNat ∧ p.toNat ≤ (build calls).size)) ∧
      (¬ (1 ≤ p.toNat ∧ p.toNat ≤ (build calls).size) →
        build (calls ++ [.addFollowers p ids]) = build calls)) ∧
    (∀ before between rest s t, calls = before ++ .allocate s :: (between ++ .allocate t :: rest) → .reset ∉ between →
      ((build before).allocate s).1 ≠ ((build (before ++ .allocate s :: between)).allocate t).1) ∧
    (∀ s p, (build calls).firstMatching? s = some p ↔
      (build calls).symbol? p = some s ∧ ∀ q, (build calls).symbol? q = some s → p ≤ q) ∧
    ∀ c, c ∈ (build calls).alphabet ↔ .char c ∈ allocated calls := by
  have hrecords := records_build h
  have hsize : (build calls).size < 2 ^ 32 := Nat.lt_of_le_of_lt (h calls (List.prefix_refl calls)) (by decide)
  have hindexed := hrecords.indexed hsize
  refine ⟨hrecords.size_eq, fun p => isSome_get?_iff_le, fun p x hx => hrecords.get?_eq hx,
    fun p ids => ⟨addFollowers?_eq_none_iff, fun hp => ?_⟩, ?_, fun s p => hindexed.firstMatching?_eq_some_iff,
    fun c => ?_⟩
  · rw [build_concat, call, addFollowers?_eq_none_iff.2 hp]
    rfl
  · rintro before between rest s t rfl hreset
    exact allocate_ne h hreset
  · rw [hindexed.mem_alphabet, hrecords.exists_symbol?_iff hsize]

/-- A number from before a reset, the number 0, a position that follows itself, and a symbol that is allocated twice. -/
theorem build_records_stale : ∃ calls : List Call,
    calls = [.allocate (.char 'x'), .addFollowers 1 [9], .reset, .addFollowers 1 [5], .allocate (.char 'a'),
      .allocate .endMarker, .addFollowers 1 [2, 1], .addFollowers 0 [1], .addFollowers 1 [1], .allocate (.char 'a')] ∧
    (∀ before, before <+: calls → (build before).size ≤ 2 ^ 32 - 1) ∧
    (∀ p, ((build calls).get? p).isSome ↔ 1 ≤ p.toNat ∧ p.toNat ≤ 3) ∧
    (∃ x, (build calls).get? 1 = some x ∧ x.id = 1 ∧ x.symbol = .char 'a' ∧
      ∀ q, q ∈ x.followpos ↔ GivenFollower calls 1 q) ∧
    (build calls).addFollowers? 0 (.ofList [1]) = none ∧ (build calls).addFollowers? 4 (.ofList [1]) = none ∧
    (build calls).firstMatching? (.char 'a') = some 1 ∧ 'x' ∉ (build calls).alphabet := by
  let calls : List Call := [.allocate (.char 'x'), .addFollowers 1 [9], .reset, .addFollowers 1 [5],
    .allocate (.char 'a'), .allocate .endMarker, .addFollowers 1 [2, 1], .addFollowers 0 [1], .addFollowers 1 [1],
    .allocate (.char 'a')]
  have hsmall : ∀ before ∈ calls.inits, (build before).size ≤ 2 ^ 32 - 1 := by decide
  have h : ∀ before, before <+: calls → (build before).size ≤ 2 ^ 32 - 1 :=
    fun before hbefore => hsmall before ((List.mem_inits before calls).2 hbefore)
  obtain ⟨hsize, hget, hrecord, hrefuse, -, hfirst, halphabet⟩ := build_records calls h
  have hthree : (build calls).size = 3 := hsize
  rw [hthree] at hget hrefuse
  refine ⟨calls, rfl, h, hget, ?_, ?_, ?_, ?_, ?_⟩
  · obtain ⟨x, hx⟩ := Option.isSome_iff_exists.1 ((hget 1).2 (by decide))
    obtain ⟨hid, hsymbol, hfollow⟩ := hrecord 1 x hx
    exact ⟨x, hx, hid, Option.some.inj hsymbol.symm, hfollow⟩
  · exact (hrefuse 0 [1]).1.2 (by decide)
  · exact (hrefuse 4 [1]).1.2 (by decide)
  · refine (hfirst (.char 'a') 1).2 ⟨by decide, fun q hq => ?_⟩
    obtain ⟨x, hx, -⟩ := symbol?_eq_some_iff.1 hq
    exact UInt32.le_iff_toNat_le.2 ((hget q).1 (Option.isSome_of_eq_some hx)).1
  · rw [halphabet]
    decide

end Arena

end PositionAutomaton
