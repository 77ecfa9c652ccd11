import PositionAutomaton.Compilation.Report
import PositionAutomaton.Proofs.Automaton.Drawing
import PositionAutomaton.Proofs.PatternTree.Printing

/-!
# What drawings and reports say

The texts of a drawing and of a report, written down from the states of an automaton, the nodes of a tree and the positions
of an arena (`Automaton.drawing`, `PatternTree.dump`, `Arena.followLines`).  No function that prints is used in them, and
they are what is printed (`Automaton.graphviz_eq_drawing`, `Compilation.report_of_fits`).
-/

namespace PositionAutomaton

/-! ### Parts of lines -/

/-- Numbers with a comma and a space before each but the first. -/
def separatedNumbers : List PositionId → String
  | [] => ""
  | p :: ps => toString p.toNat ++ String.join (ps.map fun q => ", " ++ toString q.toNat)

/-- The numbers of a set between braces, in ascending order. -/
def bracedNumbers (s : PositionSet) : String :=
  "\x7b" ++ separatedNumbers s.toList ++ "\x7d"

theorem setText_eq (s : PositionSet) : s.text = bracedNumbers s := by
  have hlist : ∀ ps, commaSeparated ps = (separatedNumbers ps).toList := by
    intro ps
    cases ps with
    | nil => rfl
    | cons p ps =>
      rw [commaSeparated, separatedNumbers, String.toList_append, String.toList_join, List.flatMap_map]
      refine congrArg _ (List.flatMap_congr fun q _ => ?_)
      rw [String.toList_append]
      rfl
  apply String.toList_injective
  rw [toList_setText, hlist, bracedNumbers, String.toList_append, String.toList_append, List.append_assoc]
  rfl

/-- A character between quotes, or two words. -/
def Symbol.words : Symbol → String
  | .char c => "'" ++ String.singleton c ++ "'"
  | .endMarker => "end marker"

theorem Symbol.text_eq_words (s : Symbol) : s.text = s.words := by
  cases s <;> rfl

/-! ### Trees -/

namespace PatternTree

/-- The end of the line of a node: the attributes, if they have been computed, and a line feed. -/
def dumpEnd : Option Attributes → String
  | none => "\n"
  | some a =>
    " nullable=" ++ (if a.nullable then "true" else "false") ++ " firstpos=" ++ bracedNumbers a.firstpos ++
      " lastpos=" ++ bracedNumbers a.lastpos ++ "\n"

/-- The line of a node, behind its indentation. -/
def dumpLine : PatternTree → String
  | .leaf a id (.char c) => "Literal '" ++ String.singleton c ++ "' @" ++ toString id.toNat ++ dumpEnd a
  | .leaf a id .endMarker => "EndMarker @" ++ toString id.toNat ++ dumpEnd a
  | .epsilon a => "Epsilon" ++ dumpEnd a
  | .concat a _ _ => "Concat" ++ dumpEnd a
  | .union a _ _ => "Union" ++ dumpEnd a
  | .star a _ => "Star" ++ dumpEnd a

/-- Two spaces for each level of depth. -/
def dumpSpaces (depth : Nat) : String :=
  String.ofList (List.replicate (2 * depth) ' ')

/-- The text of a subtree at a depth: the line of its root, and the texts of its children one level deeper. -/
def dump (depth : Nat) : PatternTree → String
  | .leaf a id symbol => dumpSpaces depth ++ dumpLine (.leaf a id symbol)
  | .epsilon a => dumpSpaces depth ++ dumpLine (.epsilon a)
  | .concat a left right =>
    dumpSpaces depth ++ dumpLine (.concat a left right) ++ left.dump (depth + 1) ++ right.dump (depth + 1)
  | .union a left right =>
    dumpSpaces depth ++ dumpLine (.union a left right) ++ left.dump (depth + 1) ++ right.dump (depth + 1)
  | .star a child => dumpSpaces depth ++ dumpLine (.star a child) ++ child.dump (depth + 1)

theorem attributesText_eq (a : Option Attributes) : (a.map Attributes.text).getD "" ++ "\n" = dumpEnd a := by
  cases a with
  | none => rfl
  | some a =>
    have hnullable : toString a.nullable = if a.nullable then "true" else "false" := by
      cases a.nullable <;> rfl
    show " nullable=" ++ toString a.nullable ++ " firstpos=" ++ a.firstpos.text ++ " lastpos=" ++ a.lastpos.text ++ "\n" = _
    rw [hnullable, setText_eq, setText_eq]
    rfl

theorem line_eq (t : PatternTree) : t.line = t.dumpLine := by
  rw [line, String.append_assoc, attributesText_eq]
  cases t with
  | leaf a id symbol => cases symbol <;> rfl
  | _ => rfl

theorem indentedLine_eq (depth : Nat) (t : PatternTree) : t.indentedLine depth = dumpSpaces depth ++ t.dumpLine := by
  rw [indentedLine, line_eq, dumpSpaces]

/-- The lines of the nodes of a subtree are its text. -/
theorem join_preorder (depth : Nat) (t : PatternTree) :
    String.join ((t.preorder depth).map fun (depth, node) => node.indentedLine depth) = t.dump depth := by
  induction t generalizing depth with
  | leaf | epsilon => simp [preorder, dump, indentedLine_eq]
  | concat a left right ihl ihr | union a left right ihl ihr =>
    rw [preorder, List.map_cons, List.map_append, String.join_cons, String.join_append, ihl, ihr, dump]
    simp only [indentedLine_eq, String.append_assoc]
  | star a child ih =>
    rw [preorder, List.map_cons, String.join_cons, ih, dump]
    simp only [indentedLine_eq, String.append_assoc]

end PatternTree

/-! ### Reports -/

/-- A line for each position, with what it matches and the positions that may follow it. -/
def Arena.followLines (arena : Arena) : String :=
  "followpos:\n" ++ String.join (arena.toList.map fun p =>
    "  " ++ toString p.id.toNat ++ " " ++ p.symbol.words ++ " -> " ++ bracedNumbers p.followpos ++ "\n")

theorem Arena.followTable_eq (arena : Arena) : arena.followTable = arena.followLines := by
  rw [followTable, followLines]
  refine congrArg (fun lines => "followpos:\n" ++ String.join lines) (List.map_congr_left fun p _ => ?_)
  rw [Position.followLine, Symbol.text_eq_words, setText_eq]

namespace Compilation

/-- The tree, an empty line and the links. -/
def fullReport (c : Compilation) : String :=
  (match c.tree with
    | some t => t.dump 0
    | none => "(no syntax tree for an empty pattern)\n") ++ "\n" ++ c.arena.followLines

/-- The tree of a compilation has no node that is too deep for its indentation. -/
def FitsWithin (widest : Option Nat) (c : Compilation) : Prop :=
  ∀ t ∈ c.tree, t.FitsWithin widest

instance (widest : Option Nat) (c : Compilation) : Decidable (c.FitsWithin widest) :=
  inferInstanceAs (Decidable (∀ t ∈ c.tree, t.FitsWithin widest))

theorem report_of_fits {widest : Option Nat} {c : Compilation} (h : c.FitsWithin widest) :
    c.report widest = .whole c.fullReport := by
  rw [report, fullReport]
  cases htree : c.tree with
  | none =>
    dsimp only [Printout.append, Printout.whole]
    rw [if_pos rfl, Arena.followTable_eq, String.append_assoc]
  | some t =>
    dsimp only
    rw [PatternTree.print_of_fits (h t htree), PatternTree.join_preorder, Arena.followTable_eq, String.append_assoc]
    rfl

theorem isWhole_report_iff {widest : Option Nat} (c : Compilation) :
    (c.report widest).isWhole = true ↔ c.FitsWithin widest := by
  have happend : ∀ (p : Printout) (text : String), (p.append text).isWhole = p.isWhole := by
    intro p text
    rw [Printout.append]
    split
    · exact Eq.symm ‹_›
    · rfl
  rw [report, happend, FitsWithin]
  cases c.tree with
  | none => simp [Printout.whole]
  | some t => simp [PatternTree.isWhole_print_iff]

end Compilation

/-! ### Drawings -/

/-- The text of a label as it stands in a tooltip. -/
def Label.words : Label → String
  | .positions s => bracedNumbers s
  | .epsilonOnly => "epsilon"
  | .emptyLanguage => "empty"

theorem Label.text_eq_words (label : Label) : label.text = label.words := by
  cases label with
  | positions s => exact setText_eq s
  | epsilonOnly | emptyLanguage => rfl

namespace Automaton

/-- A character between quotes, with a backslash before a quote and before a backslash. -/
def escaped (c : Char) : String :=
  if c = '"' ∨ c = '\\' then "\\" ++ String.singleton c else String.singleton c

/-- Five lines that are the same for all automata, a line for each state with its label, one for the start if there is one, a
line for each transition, and a brace. -/
def drawingLines (m : Automaton) : List String :=
  ["digraph \x7b\n", "rankdir = LR;\n", "ranksep = .75;\n", "    node [shape=circle style=filled]\n",
      "    start [shape=none, label=\"start\", style=\"\"]\n"] ++
    (m.labels.toList.zipIdx.map fun (label, state) =>
      toString state ++ " [shape=" ++ (if m.isFinal state then "doublecircle" else "circle") ++ " tooltip=\"" ++
        label.words ++ "\"]\n") ++
    (m.start.toList.map fun state => "start->" ++ toString state ++ "\n") ++
    (m.transitions.map fun (source, arrow) =>
      toString source ++ " -> " ++ toString arrow.target ++ " [label=\"" ++ escaped arrow.symbol ++ "\"]\n") ++
    ["\x7d\n"]

def drawing (m : Automaton) : String :=
  String.join m.drawingLines

theorem graphvizLabel_eq (c : Char) : graphvizLabel c = escaped c := by
  rw [escaped]
  split
  · rename_i hc
    rcases hc with rfl | rfl <;> rfl
  · rename_i hc
    obtain ⟨hquote, hbackslash⟩ := not_or.1 hc
    rw [graphvizLabel.eq_3 c hquote hbackslash]

/-- Lines with a line feed between them and one at the end. -/
theorem intercalate_append_newline (texts : List String) (last : String) :
    "\n".intercalate (texts ++ [last]) ++ "\n" = String.join ((texts ++ [last]).map (· ++ "\n")) := by
  apply String.toList_injective
  rw [String.toList_append, toList_intercalate_concat, String.toList_join, List.flatMap_map, List.flatMap_append]
  simp

theorem graphvizState_eq (m : Automaton) (state : Nat) (label : Label) : m.graphvizState state label ++ "\n" =
    toString state ++ " [shape=" ++ (if m.isFinal state then "doublecircle" else "circle") ++ " tooltip=\"" ++
      label.words ++ "\"]\n" := by
  rw [graphvizState, Label.text_eq_words, String.append_assoc]
  rfl

theorem graphvizArrow_eq (source : Nat) (arrow : Arrow) : graphvizArrow source arrow ++ "\n" =
    toString source ++ " -> " ++ toString arrow.target ++ " [label=\"" ++ escaped arrow.symbol ++ "\"]\n" := by
  rw [graphvizArrow, graphvizLabel_eq, String.append_assoc]
  rfl

theorem graphviz_eq_drawing (m : Automaton) : m.graphviz ++ "\n" = m.drawing := by
  rw [graphviz, graphvizLines, intercalate_append_newline, drawing, drawingLines]
  simp only [List.map_append, List.map_map, Function.comp_def, graphvizState_eq, graphvizArrow_eq]
  rfl

end Automaton

end PositionAutomaton
