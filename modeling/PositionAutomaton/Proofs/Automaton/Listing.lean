import PositionAutomaton.Automaton.Binary
import PositionAutomaton.Proofs.Binary.Exactness

/-!
# Automata as they stand in bytes

In bytes the entries of a map and the elements of a set are a list, in any order and with repetitions.  A `Listing` is
an automaton with all of these lists as they stand there; reading an automaton is reading a listing and collapsing its
lists (`read_eq`).  What remains of them are the last value of each key of a map and the elements of each set
(`Listing.collapses_automaton`).
-/

namespace PositionAutomaton

namespace Reader

variable {α β : Type}

instance : LawfulMonad Reader :=
  .mk' Reader
    (fun r => funext fun bytes => by
      show (r bytes).bind _ = r bytes
      cases r bytes <;> rfl)
    (fun a f => rfl)
    (fun r f g => funext fun bytes => by
      show ((r bytes).bind _).bind _ = (r bytes).bind _
      cases r bytes <;> rfl)

theorem map_eq_some_iff {f : α → β} {r : Reader α} {bytes rest : Bytes} {b : β} :
    (f <$> r) bytes = some (b, rest) ↔ ∃ a, r bytes = some (a, rest) ∧ f a = b := by
  rw [map_eq_pure_bind, bind_eq_some_iff]
  constructor
  · intro h
    obtain ⟨a, mid, ha, h⟩ := h
    cases h
    exact ⟨a, ha, rfl⟩
  · intro h
    obtain ⟨a, ha, rfl⟩ := h
    exact ⟨a, rest, ha, rfl⟩

theorem times_map (f : α → β) (r : Reader α) (n : Nat) : (f <$> r).times n = List.map f <$> r.times n := by
  induction n with
  | zero => simp [times]
  | succ n ih => simp [times, ih]

end Reader

namespace Binary

variable {α β κ κ' ν ν' : Type}

theorem readList_map (f : α → β) (r : Reader α) : readList (f <$> r) = List.map f <$> readList r := by
  simp [readList, Reader.times_map]

theorem readPair_map (f : κ → κ') (g : ν → ν') (readKey : Reader κ) (readValue : Reader ν) :
    readPair (f <$> readKey) (g <$> readValue) = Prod.map f g <$> readPair readKey readValue := by
  simp [readPair]

section Ordered

variable [Ord α] [Std.TransOrd α] [Std.LawfulEqOrd α] [Ord κ'] [Std.TransOrd κ'] [Std.LawfulEqOrd κ']

theorem readSet_eq (r : Reader α) : readSet r = OrderedSet.ofList <$> readList r := by
  simp [readSet]

theorem readMap_map (f : κ → κ') (g : ν → ν') (readKey : Reader κ) (readValue : Reader ν) :
    readMap (f <$> readKey) (g <$> readValue) =
      (fun l => OrderedMap.ofList (l.map (Prod.map f g))) <$> readList (readPair readKey readValue) := by
  simp [readMap, readPair_map, readList_map]

end Ordered

end Binary

open Binary

namespace Label

/-- A label with its positions in any order and repeated. -/
inductive Listing where
  | positions (ids : List PositionId)
  | epsilonOnly
  | emptyLanguage

namespace Listing

def read : Reader Listing := do
  match ← Varint.read32 with
  | 0 => return .positions (← readList readPositionId)
  | 1 => return .epsilonOnly
  | 2 => return .emptyLanguage
  | _ => Reader.ofOption none

/-- The label of the set of the positions. -/
def label : Listing → Label
  | .positions ids => .positions (.ofList ids)
  | .epsilonOnly => .epsilonOnly
  | .emptyLanguage => .emptyLanguage

end Listing

theorem read_eq : read = Listing.label <$> Listing.read := by
  simp only [read, Listing.read, map_bind]
  congr
  funext kind
  rcases kind with _ | _ | _ | kind
  · simp [readSet, Listing.label]
  · simp [Listing.label]
  · simp [Listing.label]
  · rfl

end Label

namespace Automaton

/-- The fields of an automaton with the entries of the maps and the elements of the sets in any order and repeated. -/
structure Listing where
  table : List (List Arrow)
  labels : List Label.Listing
  ids : List (Label.Listing × Nat)
  start : Option Nat
  accepting : List (Nat × List String)
  alphabet : List Char

namespace Listing

def read : Reader Listing := do
  let table ← readList (readList Arrow.read)
  let labels ← readList Label.Listing.read
  let ids ← readList (readPair Label.Listing.read Varint.read64)
  let start ← readOption Varint.read64
  let accepting ← readList (readPair Varint.read64 (readList readString))
  let alphabet ← readList readChar
  return { table, labels, ids, start, accepting, alphabet }

/-- The lists collapsed to sets and maps, a later entry of a map in place of an earlier one. -/
def automaton (l : Listing) : Automaton where
  table := l.table.toArray
  labels := (l.labels.map Label.Listing.label).toArray
  ids := .ofList (l.ids.map (Prod.map Label.Listing.label id))
  start := l.start
  accepting := .ofList (l.accepting.map (Prod.map id OrderedSet.ofList))
  alphabet := .ofList l.alphabet

end Listing

theorem read_eq : read = Listing.automaton <$> Listing.read := by
  have hlabels : readList Label.read = List.map Label.Listing.label <$> readList Label.Listing.read := by
    rw [Label.read_eq, readList_map]
  have hids := readMap_map Label.Listing.label id Label.Listing.read Varint.read64
  have haccepting := readMap_map id OrderedSet.ofList Varint.read64 (readList readString)
  rw [id_map, ← Label.read_eq] at hids
  rw [id_map] at haccepting
  simp only [read, hlabels, hids, haccepting, readSet_eq, bind_map_left, Listing.read, map_bind, map_pure]
  rfl

/-- The automaton has the lists of the listing as they are, in its maps the last value of each key, and in its sets
the elements of the lists. -/
structure Listing.Collapses (l : Listing) (m : Automaton) : Prop where
  table : m.table.toList = l.table
  labels : m.labels.toList = l.labels.map Label.Listing.label
  ids : ∀ label, m.stateOf? label = (l.ids.reverse.find? fun e => e.1.label = label).map Prod.snd
  start : m.start = l.start
  accepting : ∀ state, m.namesAt? state =
    (l.accepting.reverse.find? fun e => e.1 = state).map fun e => .ofList e.2
  alphabet : ∀ c, c ∈ m.alphabet ↔ c ∈ l.alphabet

theorem Listing.collapses_automaton (l : Listing) : l.Collapses l.automaton where
  table := rfl
  labels := rfl
  ids label := by
    show (OrderedMap.ofList (l.ids.map _)).get? label = _
    rw [OrderedMap.get?_ofList, ← List.map_reverse, List.find?_map, Option.map_map]
    rfl
  start := rfl
  accepting state := by
    show (OrderedMap.ofList (l.accepting.map _)).get? state = _
    rw [OrderedMap.get?_ofList, ← List.map_reverse, List.find?_map, Option.map_map]
    rfl
  alphabet c := OrderedSet.mem_ofList

end Automaton

end PositionAutomaton
