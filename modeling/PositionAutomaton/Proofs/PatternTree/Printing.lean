import Mathlib.Data.List.TakeWhile
import PositionAutomaton.PatternTree.Printer
import PositionAutomaton.Proofs.PatternTree.Subtrees
import PositionAutomaton.Proofs.Text.Legible

/-!
# The printed tree tells the tree

The text of a tree has no escapes, and a literal may be a space, a quote, an `@` or a line feed.  It is read back
nevertheless: the depth of a line is known from the lines before it, the first two letters of a line say where the
character of a literal stands, and the kind of the node says how many subtrees follow (`selfDelimiting_linesFrom`).  So two
trees with one text are equal, attributes included.  Where indentations have a bound, a tree is printed as a whole exactly
if no node is too deep for it, and up to the first such node otherwise (`text_faithful`).
-/

namespace PositionAutomaton

/-! ### Attributes -/

theorem selfDelimiting_bool : SelfDelimiting fun b : Bool => (toString b).toList := by
  intro x y r s h
  cases x <;> cases y <;> simp_all [toString]

theorem Attributes.toList_text (a : Attributes) : a.text.toList = " nullable=".toList ++ ((toString a.nullable).toList ++
    (" firstpos=".toList ++ (a.firstpos.text.toList ++ (" lastpos=".toList ++ a.lastpos.text.toList)))) := by
  show (" nullable=" ++ toString a.nullable ++ " firstpos=" ++ a.firstpos.text ++ " lastpos=" ++
    a.lastpos.text).toList = _
  simp only [String.toList_append, List.append_assoc]

theorem selfDelimiting_attributes : SelfDelimiting fun a : Attributes => a.text.toList := by
  intro x y r s h
  simp only [Attributes.toList_text, List.append_assoc] at h
  obtain ⟨hnullable, hsets⟩ := selfDelimiting_bool (List.append_cancel_left h)
  obtain ⟨hfirst, hlastpos⟩ := selfDelimiting_set (List.append_cancel_left hsets)
  obtain ⟨hlast, hrs⟩ := selfDelimiting_set (List.append_cancel_left hlastpos)
  cases x
  cases y
  simp_all

namespace PatternTree

/-! ### Lines -/

/-- What stands behind the heading of a node. -/
def lineEnd (a : Option Attributes) : List Char :=
  ((a.map Attributes.text).getD "").toList ++ ['\n']

theorem toList_line (t : PatternTree) : t.line.toList = t.heading.toList ++ lineEnd t.attributes? := by
  rw [line, String.toList_append, String.toList_append, List.append_assoc]
  rfl

/-- Attributes begin with a space and the line ends with a line feed. -/
theorem selfDelimiting_lineEnd : SelfDelimiting lineEnd := by
  intro x y r s h
  cases x with
  | none =>
    cases y with
    | none => exact ⟨rfl, (List.cons.inj h).2⟩
    | some b => simp [lineEnd, Attributes.toList_text] at h
  | some a =>
    cases y with
    | none => simp [lineEnd, Attributes.toList_text] at h
    | some b =>
      simp only [lineEnd, Option.map_some, Option.getD_some, List.append_assoc] at h
      obtain ⟨rfl, hend⟩ := selfDelimiting_attributes h
      exact ⟨rfl, (List.cons.inj hend).2⟩

theorem noDigitFirst_lineEnd (a : Option Attributes) (r : List Char) : NoDigitFirst (lineEnd a ++ r) := by
  cases a <;> simp [lineEnd, Attributes.toList_text]

theorem toList_heading_literal (a : Option Attributes) (id : PositionId) (c : Char) :
    (leaf a id (.char c)).heading.toList = "Literal '".toList ++ c :: ("' @".toList ++ (toString id.toNat).toList) := by
  show ("Literal '" ++ String.singleton c ++ "' @" ++ toString id.toNat).toList = _
  simp only [String.toList_append, String.toList_singleton, List.append_assoc, List.cons_append, List.nil_append]

theorem toList_heading_endMarker (a : Option Attributes) (id : PositionId) :
    (leaf a id .endMarker).heading.toList = "EndMarker @".toList ++ (toString id.toNat).toList :=
  String.toList_append

/-- The headings of leaves; the character of a literal stands at a fixed place, and it may be any. -/
theorem eq_of_leaf_heading {a a' : Option Attributes} {id id' : PositionId} {symbol symbol' : Symbol} {r s : List Char}
    (hr : NoDigitFirst r) (hs : NoDigitFirst s)
    (h : (leaf a id symbol).heading.toList ++ r = (leaf a' id' symbol').heading.toList ++ s) :
    id = id' ∧ symbol = symbol' ∧ r = s := by
  cases symbol with
  | char c =>
    cases symbol' with
    | char c' =>
      simp only [toList_heading_literal, List.append_assoc, List.cons_append] at h
      obtain ⟨rfl, hnumber⟩ := List.cons.inj (List.append_cancel_left h)
      obtain ⟨rfl, hrs⟩ := legible_positionId hr hs (List.append_cancel_left hnumber)
      exact ⟨rfl, rfl, hrs⟩
    | endMarker => simp [toList_heading_literal, toList_heading_endMarker] at h
  | endMarker =>
    cases symbol' with
    | char c' => simp [toList_heading_literal, toList_heading_endMarker] at h
    | endMarker =>
      simp only [toList_heading_endMarker, List.append_assoc] at h
      obtain ⟨rfl, hrs⟩ := legible_positionId hr hs (List.append_cancel_left h)
      exact ⟨rfl, rfl, hrs⟩

/-- A leaf begins as no other node does. -/
theorem leaf_heading_ne {a : Option Attributes} {id : PositionId} {symbol : Symbol} {t : PatternTree}
    (ht : t.position? = none) (r s : List Char) :
    (leaf a id symbol).heading.toList ++ r ≠ t.heading.toList ++ s := by
  cases symbol with
  | char c =>
    rw [toList_heading_literal]
    cases t with
    | leaf => cases ht
    | _ => simp [heading]
  | endMarker =>
    rw [toList_heading_endMarker]
    cases t with
    | leaf => cases ht
    | _ => simp [heading]

/-- The heading of a node tells everything but its attributes and its children. -/
theorem eq_of_heading {t t' : PatternTree} {r s : List Char} (hr : NoDigitFirst r) (hs : NoDigitFirst s)
    (h : t.heading.toList ++ r = t'.heading.toList ++ s) :
    t.position? = t'.position? ∧ t.operator? = t'.operator? ∧ r = s := by
  cases t with
  | leaf a id symbol =>
    cases t' with
    | leaf =>
      obtain ⟨rfl, rfl, hrs⟩ := eq_of_leaf_heading hr hs h
      exact ⟨rfl, rfl, hrs⟩
    | _ => exact absurd h (leaf_heading_ne rfl r s)
  | epsilon =>
    cases t' with
    | leaf => exact absurd h.symm (leaf_heading_ne rfl s r)
    | epsilon => exact ⟨rfl, rfl, List.append_cancel_left h⟩
    | _ => simp [heading] at h
  | concat =>
    cases t' with
    | leaf => exact absurd h.symm (leaf_heading_ne rfl s r)
    | concat => exact ⟨rfl, rfl, List.append_cancel_left h⟩
    | _ => simp [heading] at h
  | union =>
    cases t' with
    | leaf => exact absurd h.symm (leaf_heading_ne rfl s r)
    | union => exact ⟨rfl, rfl, List.append_cancel_left h⟩
    | _ => simp [heading] at h
  | star =>
    cases t' with
    | leaf => exact absurd h.symm (leaf_heading_ne rfl s r)
    | star => exact ⟨rfl, rfl, List.append_cancel_left h⟩
    | _ => simp [heading] at h

/-- The line of a node tells everything but its children. -/
theorem eq_of_line {t t' : PatternTree} {r s : List Char} (h : t.line.toList ++ r = t'.line.toList ++ s) :
    t.position? = t'.position? ∧ t.operator? = t'.operator? ∧ t.attributes? = t'.attributes? ∧ r = s := by
  rw [toList_line, toList_line, List.append_assoc, List.append_assoc] at h
  obtain ⟨hposition, hoperator, hend⟩ := eq_of_heading (noDigitFirst_lineEnd _ r) (noDigitFirst_lineEnd _ s) h
  obtain ⟨hattributes, hrs⟩ := selfDelimiting_lineEnd hend
  exact ⟨hposition, hoperator, hattributes, hrs⟩

/-! ### Bounds for indentations -/

/-- No node is too deep for its indentation. -/
def FitsWithin (widest : Option Nat) (t : PatternTree) : Prop :=
  ∀ x ∈ t.preorder 0, ∀ w ∈ widest, 2 * x.1 ≤ w

instance (widest : Option Nat) (t : PatternTree) : Decidable (t.FitsWithin widest) :=
  inferInstanceAs (Decidable (∀ x ∈ t.preorder 0, ∀ w ∈ widest, 2 * x.1 ≤ w))

theorem fits_iff {widest : Option Nat} {depth : Nat} : fits widest depth = true ↔ ∀ w ∈ widest, 2 * depth ≤ w := by
  simp [fits, Option.all_eq_true]

theorem fitsWithin_iff {widest : Option Nat} {t : PatternTree} :
    t.FitsWithin widest ↔ ∀ x ∈ t.preorder 0, fits widest x.1 = true := by
  simp only [FitsWithin, fits_iff]

theorem fitsWithin_none (t : PatternTree) : t.FitsWithin none := by
  intro x _ w hw
  cases hw

theorem print_eq (widest : Option Nat) (t : PatternTree) : t.print widest =
    { text := String.join (((t.preorder 0).takeWhile fun x => fits widest x.1).map fun (depth, node) =>
        node.indentedLine depth)
      isWhole := (t.preorder 0).all fun x => fits widest x.1 } := by
  rw [print, nodes_eq_preorder]

/-- A tree is printed as a whole if no node is too deep. -/
theorem print_of_fits {widest : Option Nat} {t : PatternTree} (h : t.FitsWithin widest) :
    t.print widest = .whole (String.join ((t.preorder 0).map fun (depth, node) => node.indentedLine depth)) := by
  rw [fitsWithin_iff] at h
  have htake : (t.preorder 0).takeWhile (fun x => fits widest x.1) = t.preorder 0 := List.takeWhile_eq_self_iff.2 h
  have hall : ((t.preorder 0).all fun x => fits widest x.1) = true := List.all_eq_true.2 h
  rw [print_eq, htake, hall]
  rfl

theorem text_eq (t : PatternTree) :
    t.text = String.join ((t.preorder 0).map fun (depth, node) => node.indentedLine depth) := by
  rw [text, print_of_fits t.fitsWithin_none]
  rfl

/-- Of a tree with nodes that are too deep, the lines before the first one are printed. -/
theorem print_of_not_fits {widest : Option Nat} {t : PatternTree} {before after : List (Nat × PatternTree)}
    {x : Nat × PatternTree} (hsplit : t.preorder 0 = before ++ x :: after)
    (hbefore : ∀ y ∈ before, fits widest y.1 = true) (hx : ¬ fits widest x.1 = true) : t.print widest =
      { text := String.join (before.map fun (depth, node) => node.indentedLine depth), isWhole := false } := by
  have hstop : (x :: after).takeWhile (fun x => fits widest x.1) = [] := by
    rw [List.takeWhile_cons, if_neg hx]
  have htake : (t.preorder 0).takeWhile (fun x => fits widest x.1) = before := by
    rw [hsplit, List.takeWhile_append_of_pos hbefore, hstop, List.append_nil]
  have hall : ((t.preorder 0).all fun x => fits widest x.1) = false := by
    rw [Bool.eq_false_iff]
    intro hall
    exact hx (List.all_eq_true.1 hall x (by simp [hsplit]))
  rw [print_eq, htake, hall]

theorem isWhole_print_iff {widest : Option Nat} {t : PatternTree} :
    (t.print widest).isWhole = true ↔ t.FitsWithin widest := by
  rw [print_eq, List.all_eq_true, fitsWithin_iff]

theorem text?_eq_some_iff {widest : Option Nat} {t : PatternTree} {text : String} :
    t.text? widest = some text ↔ t.FitsWithin widest ∧ t.text = text := by
  rw [text?, Printout.whole?]
  by_cases h : t.FitsWithin widest
  · rw [if_pos (isWhole_print_iff.2 h), print_of_fits h, ← text_eq, and_iff_right h]
    exact Option.some_inj
  · rw [if_neg fun hwhole => h (isWhole_print_iff.1 hwhole)]
    exact iff_of_false (fun hnone => nomatch hnone) fun hfits => h hfits.1

/-! ### Trees -/

/-- The text of a subtree at a depth. -/
def linesFrom (depth : Nat) (t : PatternTree) : List Char :=
  (t.preorder depth).flatMap fun (depth, node) => (node.indentedLine depth).toList

theorem toList_text (t : PatternTree) : t.text.toList = t.linesFrom 0 := by
  rw [text_eq, String.toList_join, List.flatMap_map]
  rfl

theorem toList_indentedLine (depth : Nat) (t : PatternTree) :
    (t.indentedLine depth).toList = List.replicate (2 * depth) ' ' ++ t.line.toList := by
  rw [indentedLine, String.toList_append, String.toList_ofList]

/-- The text of a subtree is the line of its root and the texts of its children, one level deeper. -/
theorem linesFrom_eq (depth : Nat) (t : PatternTree) :
    t.linesFrom depth =
      List.replicate (2 * depth) ' ' ++ (t.line.toList ++ t.children.flatMap (linesFrom (depth + 1))) := by
  rw [← List.append_assoc, ← toList_indentedLine]
  cases t <;> simp [linesFrom, preorder, children]

/-- The first line of the text of a subtree is known, and so is where it ends. -/
theorem eq_of_linesFrom_root {depth : Nat} {t t' : PatternTree} {r s : List Char}
    (h : t.linesFrom depth ++ r = t'.linesFrom depth ++ s) :
    t.position? = t'.position? ∧ t.operator? = t'.operator? ∧ t.attributes? = t'.attributes? ∧
      t.children.flatMap (linesFrom (depth + 1)) ++ r = t'.children.flatMap (linesFrom (depth + 1)) ++ s := by
  simp only [linesFrom_eq, List.append_assoc] at h
  exact eq_of_line (List.append_cancel_left h)

/-- A subtree is known from its text and the depth of its root, whatever text comes behind it. -/
theorem selfDelimiting_linesFrom (depth : Nat) : SelfDelimiting (linesFrom depth) := by
  intro t t' r s h
  induction t generalizing depth t' r s with
  | leaf a id symbol =>
    obtain ⟨hposition, -, hattributes, hrs⟩ := eq_of_linesFrom_root h
    cases t' with
    | leaf =>
      cases hposition
      cases hattributes
      exact ⟨rfl, hrs⟩
    | _ => cases hposition
  | epsilon a =>
    obtain ⟨hposition, hoperator, hattributes, hrs⟩ := eq_of_linesFrom_root h
    cases t' with
    | leaf => cases hposition
    | epsilon =>
      cases hattributes
      exact ⟨rfl, hrs⟩
    | _ => cases hoperator
  | concat a left right ihl ihr =>
    obtain ⟨-, hoperator, hattributes, hchildren⟩ := eq_of_linesFrom_root h
    cases t' with
    | concat =>
      cases hattributes
      simp only [children, List.flatMap_cons, List.append_assoc] at hchildren
      obtain ⟨rfl, hright⟩ := ihl _ hchildren
      obtain ⟨rfl, hrs⟩ := ihr _ hright
      exact ⟨rfl, hrs⟩
    | _ => cases hoperator
  | union a left right ihl ihr =>
    obtain ⟨-, hoperator, hattributes, hchildren⟩ := eq_of_linesFrom_root h
    cases t' with
    | union =>
      cases hattributes
      simp only [children, List.flatMap_cons, List.append_assoc] at hchildren
      obtain ⟨rfl, hright⟩ := ihl _ hchildren
      obtain ⟨rfl, hrs⟩ := ihr _ hright
      exact ⟨rfl, hrs⟩
    | _ => cases hoperator
  | star a child ih =>
    obtain ⟨-, hoperator, hattributes, hchildren⟩ := eq_of_linesFrom_root h
    cases t' with
    | star =>
      cases hattributes
      simp only [children, List.flatMap_cons, List.append_assoc] at hchildren
      obtain ⟨rfl, hrs⟩ := ih _ hchildren
      exact ⟨rfl, hrs⟩
    | _ => cases hoperator

theorem text_injective : Function.Injective text := by
  intro t t' h
  have hlines : t.linesFrom 0 = t'.linesFrom 0 := by rw [← toList_text, ← toList_text, h]
  exact (selfDelimiting_linesFrom 0).injective hlines

/-- No heading begins with a space, so the depth of a line is half its indentation. -/
theorem length_takeWhile_indentedLine (depth : Nat) (t : PatternTree) :
    ((t.indentedLine depth).toList.takeWhile (· == ' ')).length = 2 * depth := by
  have hline : t.line.toList.takeWhile (· == ' ') = [] := by
    rw [toList_line]
    cases t with
    | leaf a id symbol =>
      cases symbol with
      | char c => simp [toList_heading_literal]
      | endMarker => simp [toList_heading_endMarker]
    | _ => simp [heading]
  rw [toList_indentedLine, List.takeWhile_append_of_pos (by simp), hline]
  simp

/-- The printed text of a tree tells the whole tree, and its lines are those of the nodes in preorder, indented by twice
their depths.  Where indentations have a bound, this is what is printed of a tree if no node is too deep for it, so the
texts of such trees tell them apart, whatever the bounds are; of any other tree the lines before the first node that is
too deep are printed, and printing breaks off. -/
theorem text_faithful (t t' : PatternTree) :
    (t.text = t'.text ↔ t = t') ∧
      t.text = String.join ((t.preorder 0).map fun (depth, node) => node.indentedLine depth) ∧
      (∀ depth, ((t.indentedLine depth).toList.takeWhile (· == ' ')).length = 2 * depth) ∧
      ∀ widest : Option Nat,
        (t.FitsWithin widest → t.print widest = .whole t.text ∧ t.text? widest = some t.text) ∧
        (∀ before x after, t.preorder 0 = before ++ x :: after →
          (∀ y ∈ before, ∀ w ∈ widest, 2 * y.1 ≤ w) → (∃ w ∈ widest, w < 2 * x.1) →
            t.print widest =
                ⟨String.join (before.map fun (depth, node) => node.indentedLine depth), false⟩ ∧
              t.text? widest = none) ∧
        ∀ widest' text, t.text? widest = some text → t'.text? widest' = some text → t = t' := by
  refine ⟨text_injective.eq_iff, text_eq t, fun depth => length_takeWhile_indentedLine depth t, fun widest =>
    ⟨fun h => ?_, fun before x after hsplit hbefore hx => ?_, fun widest' text h h' => ?_⟩⟩
  · rw [print_of_fits h, ← text_eq]
    exact ⟨rfl, text?_eq_some_iff.2 ⟨h, rfl⟩⟩
  · have hnot : ¬ fits widest x.1 = true := by
      rw [fits_iff]
      intro hall
      obtain ⟨w, hw, hlt⟩ := hx
      have hle := hall w hw
      omega
    have hprint := print_of_not_fits hsplit (fun y hy => fits_iff.2 (hbefore y hy)) hnot
    refine ⟨hprint, ?_⟩
    rw [text?, hprint]
    rfl
  · have htext := (text?_eq_some_iff.1 h).2
    have htext' := (text?_eq_some_iff.1 h').2
    exact text_injective (htext.trans htext'.symm)

/-- A loop in a loop, whose leaf is indented by four spaces: with room for three its line is not printed. -/
theorem text_faithful_narrow : ∃ t : PatternTree,
    t = .star none (.star none (.leaf none 1 (.char 'a'))) ∧
    t.preorder 0 = [(0, t), (1, .star none (.leaf none 1 (.char 'a')))] ++ (2, .leaf none 1 (.char 'a')) :: [] ∧
    t.print (some 3) = ⟨"Star\n  Star\n", false⟩ ∧ t.text? (some 3) = none ∧
    t.FitsWithin (some 4) ∧ t.text? (some 4) = some t.text ∧
    ∀ t' : PatternTree, t'.text? none = some t.text → t = t' := by
  let t : PatternTree := .star none (.star none (.leaf none 1 (.char 'a')))
  have hsplit : t.preorder 0 =
      [(0, t), (1, .star none (.leaf none 1 (.char 'a')))] ++ (2, .leaf none 1 (.char 'a')) :: [] := rfl
  have hfits : t.FitsWithin (some 4) := by decide
  obtain ⟨-, -, -, hbound⟩ := text_faithful t t
  obtain ⟨hprint, hnone⟩ := (hbound (some 3)).2.1 _ _ _ hsplit (by decide) (by decide)
  have htext : t.text? (some 4) = some t.text := ((hbound (some 4)).1 hfits).2
  refine ⟨t, rfl, hsplit, hprint, hnone, hfits, htext, fun t' ht' => ?_⟩
  exact ((text_faithful t t').2.2.2 (some 4)).2.2 none _ htext ht'

end PatternTree

end PositionAutomaton
