import Mathlib.Data.List.Induction
import PositionAutomaton.Proofs.Arena.Lookup
import PositionAutomaton.Proofs.Exploration.Walks
import PositionAutomaton.Proofs.PatternTree.Followpos

/-!
# What may come next

The positions that may come next after a word (`NextAfter`) are said by the words of the tree alone.  In the arena of
the tree (`Fits`) they are what the sets of the exploration hold (`Fits.mem_successors`): what may follow a position
does not depend on what came before it, so the set after one more character needs the set before it and no more.
-/

namespace PositionAutomaton

namespace PatternTree

/-- Some word of the tree goes on with the position `q` after positions that match `w`. -/
def NextAfter (t : PatternTree) (arena : Arena) (w : List Char) (q : PositionId) : Prop :=
  ∃ ps rest, t.Matches (ps ++ q :: rest) ∧ ps.map arena.symbol? = w.map fun c => some (.char c)

/-- The arena holds the positions of the tree and no others, each once, with its symbol and the positions that come
right after it in some word of the tree. -/
structure Fits (t : PatternTree) (arena : Arena) : Prop where
  indexed : arena.Indexed
  nodup : t.idRegex.letters.Nodup
  symbol?_eq : ∀ {x}, x ∈ t.regex.letters → arena.symbol? x.1 = some x.2
  mem_letters : ∀ {p x}, arena.get? p = some x → p ∈ t.idRegex.letters
  followpos : ∀ {p}, p ∈ t.idRegex.letters →
    ∃ s, arena.followpos? p = some s ∧ ∀ q, q ∈ s ↔ t.idRegex.Adjacent p q

variable {t : PatternTree} {arena : Arena}

theorem Fits.mem_regex_letters (h : t.Fits arena) {p : PositionId} {s : Symbol} (hp : arena.symbol? p = some s) :
    (p, s) ∈ t.regex.letters := by
  obtain ⟨x, hx, -⟩ := Arena.symbol?_eq_some_iff.1 hp
  obtain ⟨y, hy, rfl⟩ := List.mem_map.1 (t.letters_idRegex ▸ h.mem_letters hx)
  obtain rfl : y.2 = s := Option.some.inj ((h.symbol?_eq hy).symm.trans hp)
  exact hy

/-- The numbers of a word lead to its symbols. -/
theorem Fits.map_symbol? (h : t.Fits arena) {v : List (PositionId × Symbol)} (hv : ∀ x ∈ v, x ∈ t.regex.letters) :
    (v.map Prod.fst).map arena.symbol? = (v.map Prod.snd).map some := by
  rw [List.map_map, List.map_map]
  exact List.map_congr_left fun x hx => h.symbol?_eq (hv x hx)

theorem NextAfter.mem_letters {w : List Char} {q : PositionId} (h : t.NextAfter arena w q) : q ∈ t.idRegex.letters := by
  obtain ⟨ps, rest, hm, -⟩ := h
  exact Regex.Matches.letter_mem hm

theorem nextAfter_nil {q : PositionId} : t.NextAfter arena [] q ↔ t.idRegex.Begins q := by
  constructor
  · intro h
    obtain ⟨ps, rest, hm, hps⟩ := h
    obtain rfl : ps = [] := by simpa using hps
    exact ⟨rest, hm⟩
  · intro h
    obtain ⟨rest, hm⟩ := h
    exact ⟨[], rest, hm, rfl⟩

/-- What comes next after one more character comes right after a position of that character. -/
theorem nextAfter_concat (hnodup : t.idRegex.letters.Nodup) {w : List Char} {c : Char} {q : PositionId} :
    t.NextAfter arena (w ++ [c]) q ↔
      ∃ p, t.NextAfter arena w p ∧ arena.symbol? p = some (.char c) ∧ t.idRegex.Adjacent p q := by
  constructor
  · intro h
    obtain ⟨ps, rest, hm, hps⟩ := h
    rw [List.map_append, List.map_eq_append_iff] at hps
    obtain ⟨ps, last, rfl, hps, hlast⟩ := hps
    obtain ⟨p, rfl, hp⟩ := List.map_eq_singleton_iff.1 hlast
    have hm : t.idRegex.Matches (ps ++ p :: q :: rest) := by simpa [matches_iff] using hm
    exact ⟨p, ⟨ps, q :: rest, hm, hps⟩, hp, ps, rest, hm⟩
  · intro h
    obtain ⟨p, ⟨ps, rest, hm, hps⟩, hp, u, v, huv⟩ := h
    refine ⟨ps ++ [p], v, ?_, by simp [hps, hp]⟩
    -- behind `p` the word may go on as the one in which `q` comes right after `p`
    have := Regex.Matches.exchange hnodup hm huv
    simpa [matches_iff] using this

/-- The exploration finds what may come next after a word. -/
theorem Fits.mem_successors (h : t.Fits arena) (w : List Char) {q : PositionId} :
    q ∈ arena.successors t.rootAttributes.firstpos w ↔ t.NextAfter arena w q := by
  -- by induction on the word from its end, as one more character comes last
  induction w using List.reverseRecOn generalizing q with
  | nil =>
    rw [nextAfter_nil]
    exact t.mem_firstpos_rootAttributes
  | append_singleton w c ih =>
    rw [nextAfter_concat h.nodup, Arena.successors, List.foldl_append]
    show q ∈ arena.successor (arena.successors t.rootAttributes.firstpos w) c ↔ _
    rw [Arena.mem_successor]
    constructor
    · intro hq
      obtain ⟨p, hp, hc, s, hs, hq⟩ := hq
      have hp := ih.1 hp
      obtain ⟨s', hs', hmem⟩ := h.followpos hp.mem_letters
      obtain rfl : s = s' := by simpa using hs.symm.trans hs'
      exact ⟨p, hp, hc, (hmem q).1 hq⟩
    · intro hq
      obtain ⟨p, hp, hc, hq⟩ := hq
      obtain ⟨s, hs, hmem⟩ := h.followpos hp.mem_letters
      exact ⟨p, ih.2 hp, hc, s, hs, (hmem q).2 hq⟩

section Expanded

variable {m : Automaton} {e : PositionId} {name : String}

/-- There is a walk over the word exactly if some position may come next. -/
theorem Fits.isSome_run?_iff (h : t.Fits arena) (hm : m.Expanded arena e name t.rootAttributes.firstpos)
    (w : List Char) : (m.run? 0 w).isSome = true ↔ ∃ q, t.NextAfter arena w q := by
  simp only [hm.isSome_run?_iff, OrderedSet.isEmpty_eq_false_iff, h.mem_successors]

/-- A word is accepted exactly if the end marker may come next. -/
theorem Fits.accepts_iff (h : t.Fits arena) (hm : m.Expanded arena e name t.rootAttributes.firstpos)
    (w : List Char) : m.accepts w = true ↔ t.NextAfter arena w e := by
  rw [hm.accepts_iff, h.mem_successors]

end Expanded

end PatternTree

end PositionAutomaton
