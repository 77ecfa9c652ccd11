import Mathlib.Data.List.Basic
import PositionAutomaton.Compilation.Exploration
import PositionAutomaton.Proofs.Automaton.Building

/-!
# What the exploration has found

`Explored` says what holds of an exploration at any time, from how many states were taken from the queue and which
characters were followed from each state.  It is kept by a character that leads nowhere (`Explored.skip`), by a new
state (`Explored.intern`) and by an arrow (`Explored.connect`), so by the expansion of a state; each step takes one more
state, in the order of their numbers, and the exploration stops when all are taken (`Explored.step`).
-/

namespace PositionAutomaton

/-- The arrow on `c` out of a state of the set, none if no position follows. -/
def Automaton.arrow? (m : Automaton) (arena : Arena) (set : PositionSet) (c : Char) : Option Arrow :=
  if (arena.successor set c).isEmpty then none
  else (m.stateOf? (.positions (arena.successor set c))).map (⟨c, ·⟩)

theorem Automaton.symbol_of_arrow? {m : Automaton} {arena : Arena} {set : PositionSet} {c : Char} {arrow : Arrow}
    (h : m.arrow? arena set c = some arrow) : arrow.symbol = c := by
  unfold arrow? at h
  split at h
  · cases h
  · obtain ⟨j, -, rfl⟩ := Option.map_eq_some_iff.1 h
    rfl

/-- Arrows on other characters have other symbols. -/
theorem Automaton.symbol_ne_of_notMem {m : Automaton} {arena : Arena} {set : PositionSet} {c : Char} {cs : List Char}
    (hc : c ∉ cs) : ∀ arrow ∈ cs.filterMap (m.arrow? arena set), arrow.symbol ≠ c := by
  intro arrow harrow heq
  obtain ⟨d, hd, hda⟩ := List.mem_filterMap.1 harrow
  rw [← heq, symbol_of_arrow? hda] at hc
  exact hc hd

namespace Exploration

/-- The state of an exploration that has taken `taken` states from the queue and has followed from each state `i` the
characters `followed i`. -/
structure Explored (arena : Arena) (endMarker : PositionId) (name : String) (firstpos : PositionSet)
    (alphabet : OrderedSet Char) (taken : Nat) (followed : Nat → List Char) (e : Exploration) : Prop where
  consistent : e.automaton.Consistent
  alphabet_eq : e.automaton.alphabet = alphabet
  start_eq : e.automaton.start = some 0
  label_zero : e.automaton.label? 0 = some (.positions firstpos)
  taken_le : taken ≤ e.automaton.stateCount
  numbers : e.pending.map Prod.fst = List.range' taken (e.automaton.stateCount - taken)
  waiting : ∀ w ∈ e.pending, e.automaton.label? w.1 = some (.positions w.2)
  expanded : ∀ {i}, i ∈ e.expanded ↔ i < taken
  unfollowed : ∀ {i}, taken ≤ i → followed i = []
  /-- Every state stands for a set of positions, which is not empty, and all but the first were found from earlier
  ones. -/
  origin : ∀ {j label}, e.automaton.label? j = some label → ∃ set, label = .positions set ∧ set.isEmpty = false ∧
    (0 < j → ∃ i s c, i < j ∧ e.automaton.label? i = some (.positions s) ∧ set = arena.successor s c)
  row : ∀ {i set}, e.automaton.label? i = some (.positions set) →
    e.automaton.table[i]? = some ((followed i).filterMap (e.automaton.arrow? arena set))
  target : ∀ {i set c}, e.automaton.label? i = some (.positions set) → c ∈ followed i →
    (arena.successor set c).isEmpty = false → ∃ j, e.automaton.stateOf? (.positions (arena.successor set c)) = some j
  names : ∀ {i set}, i < taken → e.automaton.label? i = some (.positions set) →
    e.automaton.namesAt? i = if endMarker ∈ set then some {name} else none
  unnamed : ∀ {i}, taken ≤ i → e.automaton.namesAt? i = none

section

variable {arena : Arena} {endMarker : PositionId} {name : String} {firstpos : PositionSet} {alphabet : OrderedSet Char}
variable {taken : Nat} {followed : Nat → List Char} {e : Exploration}

/-! ### The start -/

theorem explored_start (hfirst : firstpos.isEmpty = false) :
    Explored arena endMarker name firstpos alphabet 0 (fun _ => []) (start firstpos alphabet) := by
  have hlabel : ∀ {i label}, (start firstpos alphabet).automaton.label? i = some label →
      i = 0 ∧ label = .positions firstpos := by
    intro i label h
    change (#[Label.positions firstpos] : Array Label)[i]? = some label at h
    cases i with
    | zero => exact ⟨rfl, (Option.some.inj h).symm⟩
    | succ i => cases h
  exact
    { consistent := (Automaton.consistent_empty.internState (.positions firstpos)).of_labels rfl rfl rfl
      alphabet_eq := rfl
      start_eq := rfl
      label_zero := rfl
      taken_le := Nat.zero_le _
      numbers := rfl
      waiting := by
        intro w hw
        rw [List.mem_singleton.1 hw]
        rfl
      expanded := by simp [start]
      unfollowed := fun _ => rfl
      origin := by
        intro j label h
        obtain ⟨rfl, rfl⟩ := hlabel h
        exact ⟨firstpos, rfl, hfirst, fun hj => absurd hj (Nat.lt_irrefl 0)⟩
      row := by
        intro i set h
        obtain ⟨rfl, -⟩ := hlabel h
        rfl
      target := fun _ hc => absurd hc List.not_mem_nil
      names := fun hi => absurd hi (Nat.not_lt_zero _)
      unnamed := fun _ => rfl }

/-! ### Following one character -/

/-- One more character has been followed once its arrow stands last in the row, if it has one. -/
private theorem Explored.followed_append (h : Explored arena endMarker name firstpos alphabet taken followed e)
    {source : Nat} {set : PositionSet} {c : Char} {table : Array (List Arrow)} {events : Array CompileEvent}
    (hsource : source < taken) (hlabel : e.automaton.label? source = some (.positions set))
    (hsize : table.size = e.automaton.table.size)
    (hself : table[source]? = e.automaton.table[source]?.map (· ++ (e.automaton.arrow? arena set c).toList))
    (hother : ∀ i, i ≠ source → table[i]? = e.automaton.table[i]?)
    (htarget : (arena.successor set c).isEmpty = false →
      ∃ j, e.automaton.stateOf? (.positions (arena.successor set c)) = some j) :
    Explored arena endMarker name firstpos alphabet taken
      (Function.update followed source (followed source ++ [c]))
      { e with automaton := { e.automaton with table }, events } :=
  { consistent := h.consistent.of_labels rfl rfl hsize
    alphabet_eq := h.alphabet_eq
    start_eq := h.start_eq
    label_zero := h.label_zero
    taken_le := h.taken_le
    numbers := h.numbers
    waiting := h.waiting
    expanded := h.expanded
    origin := h.origin
    names := h.names
    unnamed := h.unnamed
    unfollowed := by
      intro i hi
      rw [Function.update_of_ne (by omega), h.unfollowed hi]
    row := by
      intro i t hi
      have hrow := h.row hi
      show table[i]? = some (List.filterMap (e.automaton.arrow? arena t) _)
      by_cases his : i = source
      · subst his
        obtain rfl : set = t := by simpa using hlabel.symm.trans hi
        rw [hself, hrow, Function.update_self, List.filterMap_append]
        cases hc : e.automaton.arrow? arena set c <;> simp [hc]
      · rw [hother i his, hrow, Function.update_of_ne his]
    target := by
      intro i t d hi hd hne
      by_cases his : i = source
      · subst his
        obtain rfl : set = t := by simpa using hlabel.symm.trans hi
        rw [Function.update_self, List.mem_append, List.mem_singleton] at hd
        rcases hd with hd | rfl
        · exact h.target hi hd hne
        · exact htarget hne
      · rw [Function.update_of_ne his] at hd
        exact h.target hi hd hne }

/-- A character after which no position follows. -/
theorem Explored.skip (h : Explored arena endMarker name firstpos alphabet taken followed e) {source : Nat}
    {set : PositionSet} {c : Char} (hsource : source < taken)
    (hlabel : e.automaton.label? source = some (.positions set))
    (hnext : (arena.successor set c).isEmpty = true) :
    Explored arena endMarker name firstpos alphabet taken
      (Function.update followed source (followed source ++ [c])) e := by
  refine h.followed_append hsource hlabel rfl ?_ (fun _ _ => rfl) fun hne => ?_
  · rw [Automaton.arrow?, if_pos hnext, Option.toList_none, h.row hlabel]
    simp
  · simp [hnext] at hne

/-- A set that was not seen before gets a state, which waits. -/
theorem Explored.intern (h : Explored arena endMarker name firstpos alphabet taken followed e) {source : Nat}
    {set : PositionSet} {c : Char} (hlabel : e.automaton.label? source = some (.positions set))
    (hne : (arena.successor set c).isEmpty = false)
    (hnew : e.automaton.stateOf? (.positions (arena.successor set c)) = none) (events : Array CompileEvent) :
    Explored arena endMarker name firstpos alphabet taken followed
      { e with
        automaton := (e.automaton.internState (.positions (arena.successor set c))).2
        pending := e.pending ++ [(e.automaton.stateCount, arena.successor set c)]
        events } := by
  have hcount := Automaton.stateCount_internState (m := e.automaton) (.positions (arena.successor set c))
  have hold := Automaton.label?_internState (m := e.automaton) (.positions (arena.successor set c))
  have hrow := Automaton.row_internState h.consistent (.positions (arena.successor set c))
  simp only [hnew, true_and, if_true] at hcount hold hrow
  have hkeep : ∀ {i label}, e.automaton.label? i = some label →
      (e.automaton.internState (.positions (arena.successor set c))).2.label? i = some label :=
    Automaton.label?_internState_of_some _
  exact
    { consistent := h.consistent.internState _
      alphabet_eq := (Automaton.alphabet_internState _).trans h.alphabet_eq
      start_eq := (Automaton.start_internState _).trans h.start_eq
      label_zero := hkeep h.label_zero
      taken_le := hcount ▸ Nat.le_succ_of_le h.taken_le
      expanded := h.expanded
      unfollowed := h.unfollowed
      numbers := by
        have htaken := h.taken_le
        have hlength : e.automaton.stateCount + 1 - taken = e.automaton.stateCount - taken + 1 := by omega
        have hlast : taken + 1 * (e.automaton.stateCount - taken) = e.automaton.stateCount := by omega
        rw [List.map_append, h.numbers, hcount, hlength, List.range'_concat, hlast]
        rfl
      waiting := by
        intro w hw
        rcases List.mem_append.1 hw with hw | hw
        · exact hkeep (h.waiting w hw)
        · rw [List.mem_singleton.1 hw, hold, if_pos rfl]
      origin := by
        intro j label hj
        rcases Automaton.label?_internState_cases hj with ⟨rfl, rfl⟩ | hj
        · exact ⟨_, rfl, hne, fun _ => ⟨source, set, c, Automaton.lt_stateCount_of_label? hlabel, hkeep hlabel, rfl⟩⟩
        · obtain ⟨t, rfl, ht, hfound⟩ := h.origin hj
          refine ⟨t, rfl, ht, fun h0 => ?_⟩
          obtain ⟨i, s, d, hij, hi, hd⟩ := hfound h0
          exact ⟨i, s, d, hij, hkeep hi, hd⟩
      row := by
        intro i t hi
        rw [hrow]
        rcases Automaton.label?_internState_cases hi with ⟨rfl, -⟩ | hi
        · rw [if_pos rfl, h.unfollowed h.taken_le]
          rfl
        · rw [if_neg (Nat.ne_of_lt (Automaton.lt_stateCount_of_label? hi)), h.row hi]
          -- the arrows that were there lead to states that were there
          refine congrArg some (List.filterMap_congr fun d hd => ?_)
          cases hemp : (arena.successor t d).isEmpty with
          | true => simp [Automaton.arrow?, hemp]
          | false =>
            obtain ⟨j, hj⟩ := h.target hi hd hemp
            simp [Automaton.arrow?, hj, Automaton.stateOf?_internState_of_some _ hj]
      target := by
        intro i t d hi hd hned
        rcases Automaton.label?_internState_cases hi with ⟨rfl, -⟩ | hi
        · rw [h.unfollowed h.taken_le] at hd
          exact absurd hd List.not_mem_nil
        · obtain ⟨j, hj⟩ := h.target hi hd hned
          exact ⟨j, Automaton.stateOf?_internState_of_some _ hj⟩
      names := by
        intro i t htaken hi
        rw [Automaton.namesAt?_internState]
        rcases Automaton.label?_internState_cases hi with ⟨rfl, -⟩ | hi
        · exact absurd h.taken_le (Nat.not_le.2 htaken)
        · exact h.names htaken hi
      unnamed := by
        intro i hi
        rw [Automaton.namesAt?_internState]
        exact h.unnamed hi }

/-- An arrow to a state that the automaton has. -/
theorem Explored.connect (h : Explored arena endMarker name firstpos alphabet taken followed e) {source target : Nat}
    {set : PositionSet} {c : Char} (hsource : source < taken)
    (hlabel : e.automaton.label? source = some (.positions set))
    (hc : c ∉ followed source) (hne : (arena.successor set c).isEmpty = false)
    (htarget : e.automaton.stateOf? (.positions (arena.successor set c)) = some target) :
    Explored arena endMarker name firstpos alphabet taken
      (Function.update followed source (followed source ++ [c])) (e.connect source c target) := by
  have harrow : e.automaton.arrow? arena set c = some ⟨c, target⟩ := by
    rw [Automaton.arrow?, hne, htarget]
    rfl
  have hs : source < e.automaton.table.size :=
    h.consistent.table_size ▸ Automaton.lt_stateCount_of_label? hlabel
  have ht : target < e.automaton.stateCount :=
    Automaton.lt_stateCount_of_label? (h.consistent.stateOf?_eq_some_iff.1 htarget)
  rw [Exploration.connect, Automaton.putTransition_of_lt hs ht]
  refine h.followed_append hsource hlabel (Array.size_modify ..) ?_ ?_ fun _ => ⟨target, htarget⟩
  · rw [Array.getElem?_modify, if_pos rfl, h.row hlabel, harrow, Option.map_some, Option.map_some,
      Automaton.putArrow_of_forall_ne (Automaton.symbol_ne_of_notMem hc)]
    rfl
  · intro i hi
    rw [Array.getElem?_modify, if_neg (Ne.symm hi)]

/-- States keep their labels. -/
theorem label?_follow {source i : Nat} {set : PositionSet} {label : Label} (c : Char)
    (h : e.automaton.label? i = some label) : (follow arena source set e c).automaton.label? i = some label := by
  unfold follow
  extract_lets next
  split
  · exact h
  · split
    · exact (Automaton.label?_putTransition ..).trans h
    · exact (Automaton.label?_putTransition ..).trans (Automaton.label?_internState_of_some _ h)

/-- One more character, whatever its set is. -/
theorem Explored.follow (h : Explored arena endMarker name firstpos alphabet taken followed e) {source : Nat}
    {set : PositionSet} {c : Char} (hsource : source < taken)
    (hlabel : e.automaton.label? source = some (.positions set))
    (hc : c ∉ followed source) : Explored arena endMarker name firstpos alphabet taken
      (Function.update followed source (followed source ++ [c])) (follow arena source set e c) := by
  unfold Exploration.follow
  extract_lets next
  -- no position follows, or the set has a state, or it gets one
  split
  · exact h.skip hsource hlabel ‹_›
  · rename_i hnext
    have hne : next.isEmpty = false := by simpa using hnext
    split
    · exact h.connect hsource hlabel hc hne ‹_›
    · rename_i hnew
      have hkept := Automaton.label?_internState_of_some (.positions next) hlabel
      have hstate := Automaton.stateOf?_internState (m := e.automaton) (.positions next) (.positions next)
      have hintern := h.intern hlabel hne hnew (e.events.push (.newState e.automaton.stateCount next))
      rw [if_pos rfl] at hstate
      rw [Automaton.internState_of_none hnew] at hkept hstate hintern ⊢
      exact hintern.connect hsource hkept hc hne hstate

/-- Characters that are new to the state, one after the other. -/
theorem Explored.followAll (h : Explored arena endMarker name firstpos alphabet taken followed e) {source : Nat}
    {set : PositionSet} {cs : List Char} (hsource : source < taken)
    (hlabel : e.automaton.label? source = some (.positions set)) (hcs : (followed source ++ cs).Nodup) :
    Explored arena endMarker name firstpos alphabet taken (Function.update followed source (followed source ++ cs))
      (cs.foldl (Exploration.follow arena source set) e) := by
  induction cs generalizing followed e with
  | nil => simpa using h
  | cons c cs ih =>
    have hc : c ∉ followed source := fun hc => (List.nodup_append.1 hcs).2.2 c hc c List.mem_cons_self rfl
    have hrest := ih (h.follow hsource hlabel hc) (label?_follow c hlabel) (by simpa using hcs)
    simpa using hrest

/-! ### Steps -/

/-- The first waiting state is the next one by number. -/
theorem Explored.numbers_cons (h : Explored arena endMarker name firstpos alphabet taken followed e) {source : Nat}
    {set : PositionSet} {pending : List (Nat × PositionSet)} (hpending : e.pending = (source, set) :: pending) :
    source = taken ∧ taken < e.automaton.stateCount ∧
      pending.map Prod.fst = List.range' (taken + 1) (e.automaton.stateCount - (taken + 1)) := by
  have hnumbers := h.numbers
  rw [hpending] at hnumbers
  have hlt : taken < e.automaton.stateCount := by
    have := congrArg List.length hnumbers
    simp at this
    omega
  rw [show e.automaton.stateCount - taken = e.automaton.stateCount - (taken + 1) + 1 by omega, List.range'_succ,
    List.map_cons] at hnumbers
  obtain ⟨hsource, hrest⟩ := List.cons.inj hnumbers
  exact ⟨hsource, hlt, hrest⟩

/-- Taking the first waiting state marks it if it holds the end marker. -/
theorem Explored.take (h : Explored arena endMarker name firstpos alphabet taken followed e) {set : PositionSet}
    {pending : List (Nat × PositionSet)} {accepting : OrderedMap Nat (OrderedSet String)}
    (hpending : e.pending = (taken, set) :: pending)
    (haccepting : ∀ i, accepting.get? i = if i = taken ∧ endMarker ∈ set then some {name} else e.automaton.namesAt? i) :
    Explored arena endMarker name firstpos alphabet (taken + 1) followed
      { e with automaton := { e.automaton with accepting }, pending, expanded := e.expanded.insert taken } := by
  have hwaiting := h.waiting
  rw [hpending] at hwaiting
  have hlabel := hwaiting (taken, set) List.mem_cons_self
  obtain ⟨-, hlt, hnumbers⟩ := h.numbers_cons hpending
  exact
    { consistent := h.consistent.of_labels rfl rfl rfl
      alphabet_eq := h.alphabet_eq
      start_eq := h.start_eq
      label_zero := h.label_zero
      taken_le := hlt
      numbers := hnumbers
      waiting := fun w hw => hwaiting w (List.mem_cons_of_mem _ hw)
      expanded := by
        intro i
        rw [OrderedSet.mem_insert, h.expanded]
        omega
      unfollowed := fun hi => h.unfollowed (Nat.le_of_succ_le hi)
      origin := h.origin
      row := h.row
      target := h.target
      names := by
        intro i t hi hlabel'
        show accepting.get? i = _
        rw [haccepting]
        rcases Nat.lt_succ_iff_lt_or_eq.1 hi with hi | rfl
        · rw [if_neg (fun hc => Nat.ne_of_lt hi hc.1), h.names hi hlabel']
        · -- the state that is taken had no names before
          obtain rfl : set = t := by simpa using hlabel.symm.trans hlabel'
          rw [h.unnamed (Nat.le_refl _)]
          simp
      unnamed := by
        intro i hi
        show accepting.get? i = _
        rw [haccepting, if_neg (fun hc => by omega), h.unnamed (by omega)] }

/-- Every character of the alphabet has been followed from the first `taken` states, and none from the others. -/
def followedBelow (alphabet : OrderedSet Char) (taken : Nat) (i : Nat) : List Char :=
  if i < taken then alphabet.toList else []

theorem followedBelow_succ (alphabet : OrderedSet Char) (taken : Nat) :
    followedBelow alphabet (taken + 1) = Function.update (followedBelow alphabet taken) taken alphabet.toList := by
  funext i
  by_cases hi : i = taken
  · subst hi
    rw [Function.update_self, followedBelow, if_pos (Nat.lt_succ_self i)]
  · rw [Function.update_of_ne hi, followedBelow, followedBelow]
    congr 1
    simp only [eq_iff_iff]
    omega

/-- A known state is marked if its set holds the end marker, and then its characters are followed. -/
theorem expand_eq (arena : Arena) (endMarker : PositionId) (name : String) {source : Nat}
    (hsource : source < e.automaton.stateCount) (set : PositionSet) :
    ∃ accepting : OrderedMap Nat (OrderedSet String),
      (∀ i, accepting.get? i = if i = source ∧ endMarker ∈ set then
        some (((e.automaton.namesAt? source).getD ∅).insert name) else e.automaton.namesAt? i) ∧
      e.expand arena endMarker name source set = e.automaton.alphabet.toList.foldl (Exploration.follow arena source set)
        { e with automaton := { e.automaton with accepting }, expanded := e.expanded.insert source } := by
  by_cases hmem : endMarker ∈ set
  · refine ⟨e.automaton.accepting.insert source (((e.automaton.namesAt? source).getD ∅).insert name), fun i => ?_, ?_⟩
    · simp only [hmem, and_true]
      exact OrderedMap.get?_insert ..
    · simp only [Exploration.expand, if_pos hmem, Automaton.markAccepting_of_lt hsource]
  · refine ⟨e.automaton.accepting, fun i => ?_, ?_⟩
    · rw [if_neg (fun hc => hmem hc.2)]
      rfl
    · simp only [Exploration.expand, if_neg hmem]

/-- Expanding the first waiting state takes it from the queue, with its mark, and then follows every character. -/
theorem Explored.exists_taken (h : Explored arena endMarker name firstpos alphabet taken (followedBelow alphabet taken) e)
    {source : Nat} {set : PositionSet} {pending : List (Nat × PositionSet)}
    (hpending : e.pending = (source, set) :: pending) :
    source = taken ∧ ∃ (accepting : OrderedMap Nat (OrderedSet String)) (e' : Exploration),
      e' = { e with automaton := { e.automaton with accepting }, pending, expanded := e.expanded.insert source } ∧
      Explored arena endMarker name firstpos alphabet (source + 1) (followedBelow alphabet source) e' ∧
      e'.automaton.label? source = some (.positions set) ∧
      { e with pending }.expand arena endMarker name source set =
        alphabet.toList.foldl (Exploration.follow arena source set) e' := by
  obtain ⟨rfl, hlt, -⟩ := h.numbers_cons hpending
  have hlabel := h.waiting (source, set) (hpending ▸ List.mem_cons_self)
  obtain ⟨accepting, haccepting, hexpand⟩ :=
    expand_eq (e := { e with pending }) arena endMarker name hlt set
  rw [h.alphabet_eq] at hexpand
  refine ⟨rfl, accepting, _, rfl, h.take hpending fun i => (haccepting i).trans ?_, hlabel, hexpand⟩
  show (if i = source ∧ endMarker ∈ set then some (((e.automaton.namesAt? source).getD ∅).insert name) else _) = _
  rw [h.unnamed (Nat.le_refl _)]
  rfl

/-- A waiting state was not expanded before, and once it is, all its characters have been followed. -/
theorem Explored.expand (h : Explored arena endMarker name firstpos alphabet taken (followedBelow alphabet taken) e)
    {source : Nat} {set : PositionSet} {pending : List (Nat × PositionSet)}
    (hpending : e.pending = (source, set) :: pending) :
    source ∉ e.expanded ∧
      Explored arena endMarker name firstpos alphabet (taken + 1) (followedBelow alphabet (taken + 1))
        ({ e with pending }.expand arena endMarker name source set) := by
  obtain ⟨rfl, accepting, e', -, h', hlabel, hexpand⟩ := h.exists_taken hpending
  refine ⟨fun hmem => Nat.lt_irrefl _ (h.expanded.1 hmem), ?_⟩
  have hnone : followedBelow alphabet source source = [] := if_neg (Nat.lt_irrefl _)
  have hcs : (followedBelow alphabet source source ++ alphabet.toList).Nodup := by
    rw [hnone]
    exact alphabet.nodup
  have hall := h'.followAll (Nat.lt_succ_self _) hlabel hcs
  rwa [hnone, List.nil_append, ← followedBelow_succ, ← hexpand] at hall

/-- A step takes the next state, which was not expanded before, and there is none left to take when no state waits. -/
theorem Explored.step (h : Explored arena endMarker name firstpos alphabet taken (followedBelow alphabet taken) e) :
    e.step? arena endMarker name = none ∧ e.automaton.stateCount = taken ∨
      ∃ set pending e', e.pending = (taken, set) :: pending ∧ taken ∉ e.expanded ∧
        e.step? arena endMarker name = some e' ∧
        Explored arena endMarker name firstpos alphabet (taken + 1) (followedBelow alphabet (taken + 1)) e' := by
  unfold step?
  split
  · rename_i hpending
    have hlength := congrArg List.length h.numbers
    have htaken := h.taken_le
    rw [hpending] at hlength
    simp at hlength
    exact Or.inl ⟨rfl, by omega⟩
  · rename_i source set pending hpending
    obtain ⟨hnew, hexpand⟩ := h.expand hpending
    obtain ⟨rfl, -, -⟩ := h.numbers_cons hpending
    exact Or.inr ⟨set, pending, _, hpending, hnew, congrArg some (if_neg hnew), hexpand⟩

end

end Exploration

end PositionAutomaton
