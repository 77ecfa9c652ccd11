import Mathlib.Data.List.Basic
import PositionAutomaton.Automaton.Graphviz
import PositionAutomaton.Proofs.Automaton.Building
import PositionAutomaton.Proofs.Text.Legible

/-!
# The drawing tells the automaton

A drawing is a sequence of lines, each for a state, for the start or for a transition (`drawnLines`).  The character of
a transition may be any, a line feed among them, and only the quote and the backslash are escaped; still every line says
where it ends (`selfDelimiting_characters`), so a label cannot imitate another line.  Two automata with one drawing have
the same labels, start, accepting states and transitions (`graphviz_eq_iff`).
-/

namespace PositionAutomaton

theorem Label.selfDelimiting_text : SelfDelimiting fun label : Label => label.text.toList := by
  intro x y r s h
  cases x with
  | positions x =>
    cases y with
    | positions y =>
      obtain ⟨rfl, hrs⟩ := selfDelimiting_set h
      exact ⟨rfl, hrs⟩
    | _ => simp [text, toList_setText] at h
  | epsilonOnly =>
    cases y with
    | epsilonOnly => exact ⟨rfl, List.append_cancel_left h⟩
    | _ => simp [text, toList_setText] at h
  | emptyLanguage =>
    cases y with
    | emptyLanguage => exact ⟨rfl, List.append_cancel_left h⟩
    | _ => simp [text, toList_setText] at h

namespace Automaton

/-! ### Characters between quotes -/

/-- The quote and the backslash have a backslash before them, and any other character stands as it is. -/
theorem graphvizLabel_cases (c : Char) :
    (c = '"' ∨ c = '\\') ∧ (graphvizLabel c).toList = ['\\', c] ∨ c ≠ '\\' ∧ (graphvizLabel c).toList = [c] := by
  by_cases hquote : c = '"'
  · subst hquote
    exact .inl ⟨.inl rfl, rfl⟩
  by_cases hbackslash : c = '\\'
  · subst hbackslash
    exact .inl ⟨.inr rfl, rfl⟩
  · rw [graphvizLabel.eq_3 c hquote hbackslash]
    exact .inr ⟨hbackslash, String.toList_singleton c⟩

theorem selfDelimiting_graphvizLabel : SelfDelimiting fun c => (graphvizLabel c).toList := by
  intro c d r s h
  rcases graphvizLabel_cases c with ⟨-, hc⟩ | ⟨hcne, hc⟩ <;>
    rcases graphvizLabel_cases d with ⟨-, hd⟩ | ⟨hdne, hd⟩ <;>
    simp only [hc, hd, List.cons_append, List.nil_append] at h
  · exact List.cons.inj (List.cons.inj h).2
  · exact absurd (List.cons.inj h).1.symm hdne
  · exact absurd (List.cons.inj h).1 hcne
  · exact List.cons.inj h

/-! ### Lines -/

/-- The border of a state. -/
def graphvizShape (isFinal : Bool) : String :=
  if isFinal then "doublecircle" else "circle"

theorem selfDelimiting_graphvizShape : SelfDelimiting fun isFinal => (graphvizShape isFinal).toList := by
  intro x y r s h
  cases x <;> cases y <;> simp_all [graphvizShape]

/-- What a line of a drawing is about. -/
inductive DrawnLine where
  | state (state : Nat) (isFinal : Bool) (label : Label)
  | start (state : Nat)
  | arrow (source : Nat) (arrow : Arrow)

namespace DrawnLine

def text : DrawnLine → String
  | state n isFinal label =>
    toString n ++ " [shape=" ++ graphvizShape isFinal ++ " tooltip=\"" ++ label.text ++ "\"]"
  | start n => "start->" ++ toString n
  | arrow source a => graphvizArrow source a

/-- The state of a line, whether it accepts and its label. -/
def state? : DrawnLine → Option (Nat × Bool × Label)
  | state n isFinal label => some (n, isFinal, label)
  | _ => none

def start? : DrawnLine → Option Nat
  | start n => some n
  | _ => none

def arrow? : DrawnLine → Option (Nat × Arrow)
  | arrow source a => some (source, a)
  | _ => none

/-- The line with the line feed behind it. -/
def characters (line : DrawnLine) : List Char :=
  line.text.toList ++ ['\n']

theorem characters_state (n : Nat) (isFinal : Bool) (label : Label) (r : List Char) :
    (state n isFinal label).characters ++ r = (toString n).toList ++ (" [shape=".toList ++
      ((graphvizShape isFinal).toList ++ (" tooltip=\"".toList ++ (label.text.toList ++ ("\"]\n".toList ++ r))))) := by
  simp [characters, text]

theorem characters_start (n : Nat) (r : List Char) :
    (start n).characters ++ r = "start->".toList ++ ((toString n).toList ++ '\n' :: r) := by
  simp [characters, text]

theorem characters_arrow (source : Nat) (a : Arrow) (r : List Char) :
    (arrow source a).characters ++ r = (toString source).toList ++ (" -> ".toList ++ ((toString a.target).toList ++
      (" [label=\"".toList ++ ((graphvizLabel a.symbol).toList ++ ("\"]\n".toList ++ r))))) := by
  simp [characters, text, graphvizArrow]

/-- Only the line of the start begins with no number. -/
theorem characters_start_ne {line : DrawnLine} (h : line.start? = none) (n : Nat) (r s : List Char) :
    (start n).characters ++ r ≠ line.characters ++ s := by
  rw [characters_start]
  cases line with
  | state n' isFinal label =>
    rw [characters_state]
    exact (toString_append_ne_cons n' (by decide) _ _).symm
  | start => cases h
  | arrow source a =>
    rw [characters_arrow]
    exact (toString_append_ne_cons source (by decide) _ _).symm

/-- Behind the number stands a bracket in the line of a state, and an arrow in that of a transition. -/
theorem characters_state_ne_arrow (n : Nat) (isFinal : Bool) (label : Label) (source : Nat) (a : Arrow)
    (r s : List Char) : (state n isFinal label).characters ++ r ≠ (arrow source a).characters ++ s := by
  rw [characters_state, characters_arrow]
  intro h
  obtain ⟨-, hrest⟩ := legible_number (by simp) (by simp) h
  simp at hrest

/-- A line is known from a text that begins with it. -/
theorem selfDelimiting_characters : SelfDelimiting characters := by
  intro x y r s h
  cases x with
  | state n isFinal label =>
    cases y with
    | state n' isFinal' label' =>
      rw [characters_state, characters_state] at h
      obtain ⟨rfl, hshape⟩ := legible_number (by simp) (by simp) h
      obtain ⟨rfl, htooltip⟩ := selfDelimiting_graphvizShape (List.append_cancel_left hshape)
      obtain ⟨rfl, hend⟩ := Label.selfDelimiting_text (List.append_cancel_left htooltip)
      exact ⟨rfl, List.append_cancel_left hend⟩
    | start n' => exact absurd h.symm (characters_start_ne rfl n' s r)
    | arrow source a => exact absurd h (characters_state_ne_arrow n isFinal label source a r s)
  | start n =>
    cases y with
    | start n' =>
      rw [characters_start, characters_start] at h
      obtain ⟨rfl, hend⟩ := legible_number (by simp) (by simp) (List.append_cancel_left h)
      exact ⟨rfl, (List.cons.inj hend).2⟩
    | _ => exact absurd h (characters_start_ne rfl n r s)
  | arrow source a =>
    cases y with
    | state n isFinal label => exact absurd h.symm (characters_state_ne_arrow n isFinal label source a s r)
    | start n => exact absurd h.symm (characters_start_ne rfl n s r)
    | arrow source' a' =>
      rw [characters_arrow, characters_arrow] at h
      obtain ⟨rfl, harrow⟩ := legible_number (by simp) (by simp) h
      obtain ⟨htarget, hlabel⟩ := legible_number (by simp) (by simp) (List.append_cancel_left harrow)
      obtain ⟨hsymbol, hend⟩ := selfDelimiting_graphvizLabel (List.append_cancel_left hlabel)
      cases a
      cases a'
      cases htarget
      cases hsymbol
      exact ⟨rfl, List.append_cancel_left hend⟩

/-- The brace that closes a drawing begins no line. -/
theorem characters_append_ne (line : DrawnLine) (r s : List Char) : line.characters ++ r ≠ '\x7d' :: s := by
  cases line with
  | state n isFinal label =>
    rw [characters_state]
    exact toString_append_ne_cons n (by decide) _ _
  | start n =>
    rw [characters_start]
    simp
  | arrow source a =>
    rw [characters_arrow]
    exact toString_append_ne_cons source (by decide) _ _

end DrawnLine

/-! ### Drawings -/

/-- The states in order, each with whether it accepts and with its label. -/
def describedStates (m : Automaton) : List (Nat × Bool × Label) :=
  m.labels.toList.zipIdx.map fun (label, state) => (state, m.isFinal state, label)

/-- The lines of a drawing between its first five and its last one. -/
def drawnLines (m : Automaton) : List DrawnLine :=
  m.describedStates.map (fun (state, isFinal, label) => .state state isFinal label) ++ m.start.toList.map .start ++
    m.transitions.map (fun (source, arrow) => .arrow source arrow)

theorem graphvizLines_eq (m : Automaton) :
    m.graphvizLines = graphvizPreamble ++ m.drawnLines.map DrawnLine.text ++ ["\x7d"] := by
  simp only [graphvizLines, drawnLines, describedStates, List.map_append, List.map_map, List.append_assoc]
  rfl

theorem toList_graphviz (m : Automaton) : m.graphviz.toList =
    (graphvizPreamble.flatMap fun line => line.toList ++ ['\n']) ++
      (m.drawnLines.flatMap DrawnLine.characters ++ ['\x7d']) := by
  rw [graphviz, graphvizLines_eq, toList_intercalate_concat, List.flatMap_append, List.flatMap_map, List.append_assoc]
  rfl

theorem eq_of_graphviz {m m' : Automaton} (h : m.graphviz = m'.graphviz) : m.drawnLines = m'.drawnLines := by
  have htext : m.drawnLines.flatMap DrawnLine.characters ++ ['\x7d'] =
      m'.drawnLines.flatMap DrawnLine.characters ++ ['\x7d'] :=
    List.append_cancel_left (by rw [← toList_graphviz, ← toList_graphviz, h])
  exact ((DrawnLine.selfDelimiting_characters.legible fun _ => True).flatMap ['\x7d'] (fun _ => trivial)
    (fun _ _ => trivial) DrawnLine.characters_append_ne htext).1

theorem filterMap_state?_drawnLines (m : Automaton) :
    m.drawnLines.filterMap DrawnLine.state? = m.describedStates := by
  simp [drawnLines, List.filterMap_map, Function.comp_def, DrawnLine.state?]

theorem filterMap_start?_drawnLines (m : Automaton) :
    m.drawnLines.filterMap DrawnLine.start? = m.start.toList := by
  simp [drawnLines, List.filterMap_map, Function.comp_def, DrawnLine.start?]

theorem filterMap_arrow?_drawnLines (m : Automaton) :
    m.drawnLines.filterMap DrawnLine.arrow? = m.transitions := by
  simp [drawnLines, List.filterMap_map, Function.comp_def, DrawnLine.arrow?]

theorem drawnLines_eq_iff {m m' : Automaton} : m.drawnLines = m'.drawnLines ↔
    m.describedStates = m'.describedStates ∧ m.start = m'.start ∧ m.transitions = m'.transitions := by
  constructor
  · intro h
    refine ⟨?_, ?_, ?_⟩
    · rw [← filterMap_state?_drawnLines, h, filterMap_state?_drawnLines]
    · rw [← Option.head?_toList (o := m.start), ← filterMap_start?_drawnLines, h, filterMap_start?_drawnLines,
        Option.head?_toList]
    · rw [← filterMap_arrow?_drawnLines, h, filterMap_arrow?_drawnLines]
  · intro ⟨hstates, hstart, htransitions⟩
    rw [drawnLines, drawnLines, hstates, hstart, htransitions]

theorem getElem?_describedStates (m : Automaton) (state : Nat) :
    m.describedStates[state]? = (m.label? state).map fun label => (state, m.isFinal state, label) := by
  simp [describedStates, label?, List.getElem?_map, List.getElem?_zipIdx, Function.comp_def]

theorem describedStates_eq_iff {m m' : Automaton} : m.describedStates = m'.describedStates ↔
    m.labels = m'.labels ∧ ∀ state < m.stateCount, m.isFinal state = m'.isFinal state := by
  have hext : m.describedStates = m'.describedStates ↔ ∀ state : Nat,
      ((m.label? state).map fun label => (state, m.isFinal state, label)) =
        (m'.label? state).map fun label => (state, m'.isFinal state, label) := by
    simp only [List.ext_getElem?_iff, getElem?_describedStates]
  rw [hext]
  constructor
  · intro h
    have hlabels : ∀ state, m.label? state = m'.label? state := by
      intro state
      simpa [Function.comp_def] using congrArg (Option.map (·.2.2)) (h state)
    refine ⟨Array.ext_getElem? hlabels, fun state hlt => ?_⟩
    obtain ⟨label, hlabel⟩ := exists_label? hlt
    have hstate := h state
    rw [← hlabels, hlabel] at hstate
    simpa using hstate
  · intro ⟨hlabels, hfinal⟩ state
    have hlabel : m.label? state = m'.label? state := by rw [label?, label?, hlabels]
    rw [← hlabel]
    rcases h : m.label? state with _ | label
    · rfl
    · rw [hfinal state (lt_stateCount_of_label? h)]

/-- The text of a drawing tells the labels in their order, the start, which states accept, and the transitions, and it
tells nothing else. -/
theorem graphviz_eq_iff (m m' : Automaton) : m.graphviz = m'.graphviz ↔
    m.labels = m'.labels ∧ m.start = m'.start ∧ (∀ state < m.stateCount, m.isFinal state = m'.isFinal state) ∧
      m.transitions = m'.transitions := by
  have hlines : m.graphviz = m'.graphviz ↔ m.drawnLines = m'.drawnLines :=
    ⟨eq_of_graphviz, fun h => String.toList_injective (by rw [toList_graphviz, toList_graphviz, h])⟩
  rw [hlines, drawnLines_eq_iff, describedStates_eq_iff]
  constructor
  · intro ⟨⟨hlabels, hfinal⟩, hstart, htransitions⟩
    exact ⟨hlabels, hstart, hfinal, htransitions⟩
  · intro ⟨hlabels, hstart, hfinal, htransitions⟩
    exact ⟨⟨hlabels, hfinal⟩, hstart, htransitions⟩

end Automaton

end PositionAutomaton
