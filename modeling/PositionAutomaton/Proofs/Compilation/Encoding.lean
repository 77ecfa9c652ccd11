import PositionAutomaton.Proofs.Automaton.Edits
import PositionAutomaton.Proofs.Automaton.Encoding
import PositionAutomaton.Proofs.Compilation.Canonical

/-!
# What is compiled is read back

The fields of a well-formed automaton limit each other: a row has at most one arrow for each character, a label is a set
of numbers with 32 bits, and no state has two labels.  So if its states can be counted in 64 bits and its names are as
short, all its numbers and lengths are below `2 ^ 64` (`Automaton.WellFormed.bounded`).  A compiled automaton is
well-formed and its states accept one name (`compiled_of_compile`), so it is read back from its bytes
(`decode?_of_compile`).
-/

namespace PositionAutomaton

open Binary

/-! ### Lengths -/

/-- Different numbers below a bound are no more than the bound. -/
theorem length_le_of_nodup_map {α : Type} {l : List α} {f : α → Nat} {n : Nat} (h : (l.map f).Nodup)
    (hlt : ∀ x ∈ l, f x < n) : l.length ≤ n := by
  have hsubset : l.map f ⊆ List.range n := by
    intro i hi
    obtain ⟨x, hx, rfl⟩ := List.mem_map.1 hi
    exact List.mem_range.2 (hlt x hx)
  simpa using h.length_le_of_subset hsubset

/-- Different characters are no more than numbers of 32 bits. -/
theorem length_le_of_nodup_chars {l : List Char} (h : l.Nodup) : l.length ≤ 2 ^ 32 :=
  length_le_of_nodup_map (h.map fun _ _ => Char.toNat_inj.1) fun c _ => c.val.toNat_lt

theorem Label.bounded (label : Label) : label.Bounded := by
  have hle : label.positionSet.toList.length ≤ 2 ^ 32 :=
    length_le_of_nodup_map (label.positionSet.nodup.map fun _ _ => UInt32.toNat_inj.1) fun p _ => p.toNat_lt
  exact Nat.lt_of_le_of_lt hle (by decide)

namespace Automaton

variable {m : Automaton}

/-! ### Well-formed automata -/

namespace WellFormed

theorem label?_of_mem_ids (h : m.WellFormed) {e : Label × Nat} (he : e ∈ m.ids.toList) : m.label? e.2 = some e.1 :=
  h.stateOf?_eq_some_iff.1 (OrderedMap.mem_toList_iff.1 (show (e.1, e.2) ∈ _ from he))

/-- States have one label each, so the map from labels to states has no more entries than there are states. -/
theorem length_ids_le (h : m.WellFormed) : m.ids.toList.length ≤ m.stateCount := by
  have hnodup : (m.ids.toList.map Prod.snd).Nodup := by
    refine List.Nodup.map_on (fun e he e' he' heq => ?_) m.ids.nodup_keys.of_map
    have hfst : e.1 = e'.1 := Option.some.inj ((h.label?_of_mem_ids he).symm.trans (heq ▸ h.label?_of_mem_ids he'))
    exact Prod.ext hfst heq
  exact length_le_of_nodup_map hnodup fun _ he => lt_stateCount_of_label? (h.label?_of_mem_ids he)

theorem length_accepting_le (h : m.WellFormed) : m.accepting.toList.length ≤ m.stateCount :=
  length_le_of_nodup_map m.accepting.nodup_keys fun _ he => (h.accepting (OrderedMap.mem_toList_iff.1 he)).1

/-- If the states, the start and the names of accepting states have their numbers and lengths in 64 bits, all have. -/
theorem bounded (h : m.WellFormed) (hcount : m.stateCount < 2 ^ 64) (hstart : ∀ i, m.start = some i → i < 2 ^ 64)
    (hnames : ∀ i names, m.namesAt? i = some names →
      names.toList.length < 2 ^ 64 ∧ ∀ name ∈ names.toList, (utf8 name).length < 2 ^ 64) : m.Bounded where
  table := by
    refine ⟨h.table_size ▸ hcount, fun row hrow => ?_⟩
    obtain ⟨i, hi⟩ := List.getElem?_of_mem hrow
    have hrow : m.table[i]? = some row := by simpa using hi
    have hle : (row.map (·.symbol)).length ≤ 2 ^ 32 :=
      length_le_of_nodup_chars (List.pairwise_map.2 (h.deterministic i row hrow))
    rw [List.length_map] at hle
    exact ⟨by omega, fun a ha => Nat.lt_trans (h.target_lt hrow a ha) hcount⟩
  labels := ⟨hcount, fun label _ => label.bounded⟩
  ids := ⟨Nat.lt_of_le_of_lt h.length_ids_le hcount, fun e he =>
    ⟨e.1.bounded, Nat.lt_trans (lt_stateCount_of_label? (h.label?_of_mem_ids he)) hcount⟩⟩
  start := hstart
  accepting := by
    refine ⟨Nat.lt_of_le_of_lt h.length_accepting_le hcount, fun e he => ?_⟩
    have hget : m.namesAt? e.1 = some e.2 := OrderedMap.mem_toList_iff.1 (show (e.1, e.2) ∈ _ from he)
    exact ⟨Nat.lt_trans (h.accepting hget).1 hcount, hnames e.1 e.2 hget⟩
  alphabet := Nat.lt_of_le_of_lt (length_le_of_nodup_chars m.alphabet.nodup) (by decide)

end WellFormed

/-! ### Compiled automata -/

/-- A well-formed automaton that starts at its first state, and whose accepting states accept `name` alone. -/
structure Compiled (name : String) (m : Automaton) : Prop extends WellFormed m where
  start_eq : m.start = some 0
  names : ∀ {i : Nat} {names : OrderedSet String}, m.namesAt? i = some names → names = {name}

theorem compiled_withoutPositions (nullable : Bool) (alphabet : OrderedSet Char) (name : String) :
    (withoutPositions nullable alphabet name).Compiled name := by
  have hinterned : ∀ label, ((∅ : Automaton).internState label).2.WellFormed := wellFormed_empty.internState
  cases nullable with
  | false =>
    exact
      { toWellFormed := (hinterned .emptyLanguage).of_fields rfl rfl rfl rfl
        start_eq := rfl
        names := fun h => by cases h }
  | true =>
    have hstart : (((∅ : Automaton).internState .epsilonOnly).2.withStart 0).WellFormed :=
      (hinterned .epsilonOnly).of_fields rfl rfl rfl rfl
    exact
      { toWellFormed := (hstart.markAccepting 0 name).of_fields rfl rfl rfl rfl
        start_eq := rfl
        names := fun {i names} h => by
          cases i with
          | zero => exact (Option.some.inj h).symm
          | succ i => cases h }

end Automaton

/-- An exploration that has come to its end has a well-formed automaton. -/
theorem Exploration.Explored.compiled {arena : Arena} {endMarker : PositionId} {name : String} {firstpos : PositionSet}
    {alphabet : OrderedSet Char} {x : Exploration}
    (h : Explored arena endMarker name firstpos alphabet x.automaton.stateCount
      (followedBelow alphabet x.automaton.stateCount) x) : x.automaton.Compiled name := by
  have hnames : ∀ {i names}, x.automaton.namesAt? i = some names →
      i < x.automaton.stateCount ∧ names = {name} := by
    intro i names hi
    have hlt : i < x.automaton.stateCount := Nat.lt_of_not_le fun hle => by
      rw [h.unnamed hle] at hi
      cases hi
    obtain ⟨label, hlabel⟩ := Automaton.exists_label? hlt
    obtain ⟨set, rfl, -, -⟩ := h.origin hlabel
    rw [h.names hlt hlabel] at hi
    split at hi
    · exact ⟨hlt, (Option.some.inj hi).symm⟩
    · cases hi
  exact
    { toConsistent := h.consistent
      target_lt := by
        intro i row hrow a ha
        have hlt : i < x.automaton.stateCount := h.consistent.table_size ▸ (Array.getElem?_eq_some_iff.1 hrow).1
        obtain ⟨label, hlabel⟩ := Automaton.exists_label? hlt
        obtain ⟨set, rfl, -, -⟩ := h.origin hlabel
        rw [h.row hlabel] at hrow
        cases hrow
        obtain ⟨c, -, harrow⟩ := List.mem_filterMap.1 ha
        rw [Automaton.arrow?] at harrow
        split at harrow
        · cases harrow
        · obtain ⟨j, hj, rfl⟩ := Option.map_eq_some_iff.1 harrow
          exact Automaton.lt_stateCount_of_label? (h.consistent.stateOf?_eq_some_iff.1 hj)
      deterministic := h.sorted_of_followedBelow.deterministic
      accepting := fun hi => ⟨(hnames hi).1, name, (hnames hi).2 ▸ OrderedSet.mem_singleton.2 rfl⟩
      start_eq := h.start_eq
      names := fun hi => (hnames hi).2 }

theorem compiled_of_compile {pattern name : String} {c : Compilation} (h : compile pattern name = .ok c) :
    c.automaton.Compiled name := by
  rcases eq_empty_or_exists_scan h with rfl | ⟨ts, -, h⟩
  · cases h
    exact Automaton.compiled_withoutPositions true ∅ name
  · obtain ⟨t, -, -, ⟨-, hm⟩ | ⟨e, x, hm, hx, -⟩⟩ :=
      explored_of_compileTokens h (List.ne_nil_of_mem (Token.endMarker_mem_augmented ts))
    · rw [hm]
      exact Automaton.compiled_withoutPositions ..
    · rw [hm]
      exact hx.compiled

/-- What is compiled from a pattern is read back from its bytes, all of which are used, if its states can be counted in
64 bits and its name is as short. -/
theorem decode?_of_compile {pattern name : String} {c : Compilation} (h : compile pattern name = .ok c)
    (hcount : c.automaton.stateCount < 2 ^ 64) (hname : (utf8 name).length < 2 ^ 64) :
    Automaton.decode? c.automaton.encode = some (c.automaton, c.automaton.encode.length) := by
  have hc := compiled_of_compile h
  have hbounded : c.automaton.Bounded := by
    refine hc.toWellFormed.bounded hcount (fun i hi => ?_) fun i names hi => ?_
    · rw [hc.start_eq] at hi
      cases hi
      decide
    · rw [hc.names hi]
      refine ⟨show 1 < 2 ^ 64 by decide, fun n hn => ?_⟩
      rwa [OrderedSet.mem_singleton.1 (OrderedSet.mem_toList.1 hn)]
  have hread := hbounded.takes_read []
  rw [List.append_nil] at hread
  rw [Automaton.decode?, hread]
  rfl

end PositionAutomaton
