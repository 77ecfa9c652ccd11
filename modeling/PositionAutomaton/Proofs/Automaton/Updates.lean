import PositionAutomaton.Proofs.Automaton.Building

/-!
# Changes at one place

What a building operation does to an automaton whose fields need not agree: the table may have more rows or fewer than
there are labels, a row may repeat a symbol, and the states of labels and the accepting states may be any numbers.  Even
then one answer changes and all others stay, for a transition (`Redirected`), for a mark (`Marked`) and for a new state
(`Appended`).
-/

namespace PositionAutomaton

namespace Automaton

variable {m m' : Automaton}

/-! ### Arrows in a row -/

/-- The arrow in place of the first one on its symbol, or behind all arrows if none is on its symbol. -/
def PutInto (arrow : Arrow) (row row' : List Arrow) : Prop :=
  (∃ before old after, row = before ++ old :: after ∧ old.symbol = arrow.symbol ∧
    (∀ a ∈ before, a.symbol ≠ arrow.symbol) ∧ row' = before ++ arrow :: after) ∨
  (∀ a ∈ row, a.symbol ≠ arrow.symbol) ∧ row' = row ++ [arrow]

theorem putArrow_append_cons {arrow old : Arrow} {before : List Arrow} (after : List Arrow)
    (hbefore : ∀ a ∈ before, a.symbol ≠ arrow.symbol) (hold : old.symbol = arrow.symbol) :
    putArrow arrow (before ++ old :: after) = before ++ arrow :: after := by
  induction before with
  | nil => rw [List.nil_append, putArrow, if_pos hold, List.nil_append]
  | cons a before ih =>
    have ha : a.symbol ≠ arrow.symbol := hbefore a List.mem_cons_self
    rw [List.cons_append, putArrow, if_neg ha, ih fun b hb => hbefore b (List.mem_cons_of_mem a hb), List.cons_append]

theorem putInto_putArrow (arrow : Arrow) (row : List Arrow) : PutInto arrow row (putArrow arrow row) := by
  cases hfind : row.find? (·.symbol == arrow.symbol) with
  | none =>
    have hfresh : ∀ a ∈ row, a.symbol ≠ arrow.symbol := by simpa using List.find?_eq_none.1 hfind
    exact Or.inr ⟨hfresh, putArrow_of_forall_ne hfresh⟩
  | some old =>
    obtain ⟨hold, before, after, rfl, hbefore⟩ := List.find?_eq_some_iff_append.1 hfind
    have hold : old.symbol = arrow.symbol := by simpa using hold
    have hbefore : ∀ a ∈ before, a.symbol ≠ arrow.symbol := by simpa using hbefore
    exact Or.inl ⟨before, old, after, rfl, hold, hbefore, putArrow_append_cons after hbefore hold⟩

/-- The first arrow on the symbol is the new one, however many follow it, and on other symbols it is what it was. -/
theorem find?_putArrow (arrow : Arrow) (row : List Arrow) (c : Char) :
    (putArrow arrow row).find? (·.symbol == c) =
      if c = arrow.symbol then some arrow else row.find? (·.symbol == c) := by
  induction row with
  | nil =>
    by_cases hc : c = arrow.symbol
    · simp [putArrow, hc]
    · simp [putArrow, hc, Ne.symm hc]
  | cons a row ih =>
    rw [putArrow]
    by_cases ha : a.symbol = arrow.symbol
    · rw [if_pos ha, List.find?_cons, List.find?_cons, ha]
      by_cases hc : c = arrow.symbol
      · simp [hc]
      · have hbeq : (arrow.symbol == c) = false := beq_false_of_ne (Ne.symm hc)
        rw [if_neg hc, hbeq]
    · rw [if_neg ha, List.find?_cons, List.find?_cons, ih]
      by_cases hc : a.symbol = c
      · have hne : c ≠ arrow.symbol := hc ▸ ha
        simp [hc, hne]
      · rw [beq_false_of_ne hc]

/-! ### Steps and rows -/

/-- A step depends on the row of its state only. -/
theorem next?_congr {i : Nat} (h : m'.table[i]? = m.table[i]?) (c : Char) : m'.next? i c = m.next? i c := by
  rw [next?_eq, next?_eq, h]

/-! ### One change for each operation -/

/-- The second automaton is the first with the step from `source` on `symbol` led to `target`. -/
structure Redirected (source : Nat) (symbol : Char) (target : Nat) (m m' : Automaton) : Prop where
  next?_self : m'.next? source symbol = some target
  next?_of_ne : ∀ {i c}, (i, c) ≠ (source, symbol) → m'.next? i c = m.next? i c
  row : ∃ row row', m.table[source]? = some row ∧ m'.table[source]? = some row' ∧ PutInto ⟨symbol, target⟩ row row'
  row_of_ne : ∀ {i}, i ≠ source → m'.table[i]? = m.table[i]?
  others_eq : { m' with table := m.table } = m

/-- The second automaton is the first with `state` accepting `name` too. -/
structure Marked (state : Nat) (name : String) (m m' : Automaton) : Prop where
  names : ∃ names, m'.namesAt? state = some names ∧
    ∀ n, n ∈ names ↔ n = name ∨ ∃ old, m.namesAt? state = some old ∧ n ∈ old
  namesAt?_of_ne : ∀ {i}, i ≠ state → m'.namesAt? i = m.namesAt? i
  others_eq : { m' with accepting := m.accepting } = m

/-- The second automaton is the first with a state for `label` behind all others. -/
structure Appended (label : Label) (m m' : Automaton) : Prop where
  stateOf?_self : m'.stateOf? label = some m.stateCount
  label?_self : m'.label? m.stateCount = some label
  stateCount_eq : m'.stateCount = m.stateCount + 1
  next?_eq : ∀ i c, m'.next? i c = m.next? i c
  label?_of_lt : ∀ {i}, i < m.stateCount → m'.label? i = m.label? i
  stateOf?_of_ne : ∀ {label'}, label' ≠ label → m'.stateOf? label' = m.stateOf? label'
  others_eq : { m' with table := m.table, labels := m.labels, ids := m.ids } = m

theorem redirected_putTransition {source target : Nat} (symbol : Char) (hs : source < m.table.size)
    (ht : target < m.stateCount) : Redirected source symbol target m (m.putTransition source symbol target) := by
  obtain ⟨row, hrow⟩ : ∃ row, m.table[source]? = some row := ⟨_, Array.getElem?_eq_getElem hs⟩
  have hrows : ∀ i, (m.putTransition source symbol target).table[i]? =
      if source = i then m.table[i]?.map (putArrow ⟨symbol, target⟩) else m.table[i]? := by
    intro i
    rw [putTransition_of_lt hs ht]
    exact Array.getElem?_modify ..
  have hnew : (m.putTransition source symbol target).table[source]? = some (putArrow ⟨symbol, target⟩ row) := by
    rw [hrows, if_pos rfl, hrow]
    rfl
  have hother : ∀ {i}, i ≠ source → (m.putTransition source symbol target).table[i]? = m.table[i]? := by
    intro i hi
    rw [hrows, if_neg hi.symm]
  refine ⟨?_, ?_, ⟨row, _, hrow, hnew, putInto_putArrow _ row⟩, hother, ?_⟩
  · rw [next?_eq, hnew, Option.bind_some, find?_putArrow, if_pos rfl]
    rfl
  · intro i c hne
    by_cases hi : i = source
    · -- in the same row, only the symbol of the arrow has another first arrow
      subst hi
      have hc : c ≠ symbol := fun hc => hne (by rw [hc])
      rw [next?_eq, next?_eq, hnew, hrow, Option.bind_some, Option.bind_some, find?_putArrow, if_neg hc]
    · exact next?_congr (hother hi) c
  · rw [putTransition_of_lt hs ht]

theorem marked_markAccepting {state : Nat} (h : state < m.stateCount) (name : String) :
    Marked state name m (m.markAccepting state name) := by
  refine ⟨⟨((m.namesAt? state).getD ∅).insert name, ?_, fun n => ?_⟩, fun {i} hi => ?_, ?_⟩
  · rw [namesAt?_markAccepting h, if_pos rfl]
  · rw [OrderedSet.mem_insert]
    cases m.namesAt? state with
    | none => simp
    | some old => simp
  · rw [namesAt?_markAccepting h, if_neg hi]
  · rw [markAccepting_of_lt h]

/-- Marking a state once more changes nothing. -/
theorem markAccepting_markAccepting (m : Automaton) (state : Nat) (name : String) :
    (m.markAccepting state name).markAccepting state name = m.markAccepting state name := by
  by_cases h : state < m.stateCount
  · have hnames := namesAt?_markAccepting h name state
    rw [if_pos rfl] at hnames
    have hcount : state < (m.markAccepting state name).stateCount := by rwa [markAccepting_of_lt h]
    rw [markAccepting_of_lt hcount, hnames, markAccepting_of_lt h]
    -- the names and the entry are there already
    congr 1
    ext i names
    simp only [OrderedMap.get?_insert]
    split
    · have hinsert : ((m.namesAt? state).getD ∅).insert name =
          (((m.namesAt? state).getD ∅).insert name).insert name := by
        ext n
        simp
      rw [Option.getD_some, ← hinsert]
    · rfl
  · rw [markAccepting_of_le (Nat.not_lt.1 h), markAccepting_of_le (Nat.not_lt.1 h)]

theorem appended_internState {label : Label} (h : m.stateOf? label = none) :
    Appended label m (m.internState label).2 := by
  have hid : (m.internState label).1 = m.stateCount := by rw [internState_of_none h]
  refine ⟨?_, ?_, ?_, fun i c => ?_, fun {i} hi => ?_, fun {label'} hl => ?_, ?_⟩
  · rw [stateOf?_internState, if_pos rfl, hid]
  · rw [label?_internState, if_pos ⟨h, rfl⟩]
  · rw [stateCount_internState, if_pos h]
  · -- the new row is behind all rows of the table, and empty
    rw [next?_eq, next?_eq, internState_of_none h]
    simp only [Array.getElem?_push]
    split
    · rename_i hi
      rw [hi, Array.getElem?_size]
      rfl
    · rfl
  · rw [label?_internState, if_neg fun hi' => Nat.ne_of_lt hi hi'.2]
  · rw [stateOf?_internState, if_neg hl]
  · rw [internState_of_none h]

/-- On any automaton each operation changes one place.  A transition between a row of the table and a labelled state leads
the one step there, and one from or to anywhere else changes nothing.  A mark adds the name to those of a labelled state,
changes nothing for any other number, and changes nothing when it is repeated.  A label that has a state gets it and
changes nothing, and one without a state gets a new one. -/
theorem operations_pointwise (m : Automaton) :
    (∀ source symbol target,
      (target < m.stateCount ∧ source < m.table.size →
        Redirected source symbol target m (m.putTransition source symbol target)) ∧
      (¬ (target < m.stateCount ∧ source < m.table.size) → m.putTransition source symbol target = m)) ∧
    (∀ state name,
      (state < m.stateCount → Marked state name m (m.markAccepting state name)) ∧
      (¬ state < m.stateCount → m.markAccepting state name = m) ∧
      (m.markAccepting state name).markAccepting state name = m.markAccepting state name) ∧
    ∀ label,
      (∀ i, m.stateOf? label = some i → m.internState label = (i, m)) ∧
      (m.stateOf? label = none →
        (m.internState label).1 = m.stateCount ∧ Appended label m (m.internState label).2) := by
  refine ⟨fun source symbol target => ⟨?_, ?_⟩, fun state name => ⟨?_, ?_, ?_⟩, fun label => ⟨?_, ?_⟩⟩
  · intro h
    exact redirected_putTransition symbol h.2 h.1
  · intro h
    exact putTransition_of_not_lt (fun hboth => h hboth.symm) symbol
  · intro h
    exact marked_markAccepting h name
  · intro h
    exact markAccepting_of_le (Nat.not_lt.1 h) name
  · exact m.markAccepting_markAccepting state name
  · intro i hi
    exact internState_of_some hi
  · intro hnone
    exact ⟨by rw [internState_of_none hnone], appended_internState hnone⟩

/-- A symbol twice in a row, more rows than labels, and a mark where no state is. -/
theorem operations_pointwise_disagreeing : ∃ m : Automaton,
    m = { table := #[[⟨'a', 5⟩, ⟨'b', 0⟩, ⟨'a', 7⟩], []], labels := #[.epsilonOnly], ids := ∅,
          accepting := .ofList [(1, {"q"})] } ∧
    Redirected 0 'a' 0 m (m.putTransition 0 'a' 0) ∧ Redirected 1 'a' 0 m (m.putTransition 1 'a' 0) ∧
    m.putTransition 0 'a' 1 = m ∧ m.putTransition 2 'a' 0 = m ∧
    Marked 0 "p" m (m.markAccepting 0 "p") ∧ m.markAccepting 1 "p" = m ∧
    (m.internState .epsilonOnly).1 = 1 ∧ Appended .epsilonOnly m (m.internState .epsilonOnly).2 := by
  let m : Automaton :=
    { table := #[[⟨'a', 5⟩, ⟨'b', 0⟩, ⟨'a', 7⟩], []], labels := #[.epsilonOnly], ids := ∅,
      accepting := .ofList [(1, {"q"})] }
  obtain ⟨htransitions, hmarks, hstates⟩ := operations_pointwise m
  refine ⟨m, rfl, ?_, ?_, ?_, ?_, ?_, ?_, ?_⟩
  · exact (htransitions 0 'a' 0).1 (by decide)
  · exact (htransitions 1 'a' 0).1 (by decide)
  · exact (htransitions 0 'a' 1).2 (by decide)
  · exact (htransitions 2 'a' 0).2 (by decide)
  · exact (hmarks 0 "p").1 (by decide)
  · exact (hmarks 1 "p").2.1 (by decide)
  · exact (hstates .epsilonOnly).2 rfl

end Automaton

end PositionAutomaton
