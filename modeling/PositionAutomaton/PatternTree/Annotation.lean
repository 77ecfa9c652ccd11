import PositionAutomaton.CompileError
import PositionAutomaton.PatternTree

/-!
# Attributes of all nodes

Computes which subtrees match the empty word and which positions begin and end the words of a subtree.  The pass
takes the tree apart from the top, with an operator left to wait for its children, and puts it together again with
attributes from the bottom.  It never fails, and its result is that of the plain recursion (`withAttributes_eq`).
-/

namespace PositionAutomaton

namespace Attributes

/-- The empty word and no other. -/
def epsilon : Attributes :=
  ⟨true, ∅, ∅⟩

/-- The one-letter word of a position. -/
def leaf (id : PositionId) : Attributes :=
  ⟨false, {id}, {id}⟩

/-- A word of the left side, then a word of the right side. -/
def concat (l r : Attributes) : Attributes where
  nullable := l.nullable && r.nullable
  firstpos := if l.nullable then l.firstpos ∪ r.firstpos else l.firstpos
  lastpos := if r.nullable then r.lastpos ∪ l.lastpos else r.lastpos

/-- A word of either side. -/
def union (l r : Attributes) : Attributes where
  nullable := l.nullable || r.nullable
  firstpos := l.firstpos ∪ r.firstpos
  lastpos := l.lastpos ∪ r.lastpos

/-- Any number of words, one after the other. -/
def star (c : Attributes) : Attributes :=
  { c with nullable := true }

end Attributes

namespace PatternTree

/-- The attributes of a node that has been through the pass. -/
def attributes (t : PatternTree) : Except CompileError Attributes :=
  match t.attributes? with
  | some a => .ok a
  | none => .error (.brokenInvariant .attributesNotComputed)

/-- Work of the attribute pass: a subtree to take apart, or an operator to put over its finished children. -/
inductive Job where
  | visit (t : PatternTree)
  | concat
  | union
  | star

/-- What is left to do for a job; taking a node apart leaves less. -/
def Job.weight : Job → Nat
  | .visit t => 2 * t.size
  | _ => 1

def totalWeight : List Job → Nat
  | [] => 0
  | job :: jobs => job.weight + totalWeight jobs

/-- Works off the jobs.  The finished subtrees stand on a stack, the right child of an operator above the left. -/
def annotate : List Job → List PatternTree → Except CompileError PatternTree
  | [], [root] => .ok root
  | [], _ => .error (.brokenInvariant .rootNotSingle)
  | .visit (.leaf _ id symbol) :: jobs, done => annotate jobs (.leaf (some (.leaf id)) id symbol :: done)
  | .visit (.epsilon _) :: jobs, done => annotate jobs (.epsilon (some .epsilon) :: done)
  | .visit (.concat _ left right) :: jobs, done =>
    annotate (.visit left :: .visit right :: .concat :: jobs) done
  | .visit (.union _ left right) :: jobs, done => annotate (.visit left :: .visit right :: .union :: jobs) done
  | .visit (.star _ child) :: jobs, done => annotate (.visit child :: .star :: jobs) done
  | .concat :: jobs, right :: left :: done => do
    let a := .concat (← left.attributes) (← right.attributes)
    annotate jobs (.concat (some a) left right :: done)
  | .union :: jobs, right :: left :: done => do
    let a := .union (← left.attributes) (← right.attributes)
    annotate jobs (.union (some a) left right :: done)
  | .star :: jobs, child :: done => do
    let a := .star (← child.attributes)
    annotate jobs (.star (some a) child :: done)
  | _ :: _, _ => .error (.brokenInvariant .childrenNotRebuilt)
termination_by jobs => totalWeight jobs
decreasing_by all_goals simp only [totalWeight, Job.weight, size]; omega

/-- The tree with the attributes of every node. -/
def withAttributes (t : PatternTree) : Except CompileError PatternTree :=
  annotate [.visit t] []

/-! ### The pass as a recursion -/

/-- The attributes of the root from those of its children. -/
def rootAttributes : PatternTree → Attributes
  | .leaf _ id _ => .leaf id
  | .epsilon _ => .epsilon
  | .concat _ left right => .concat left.rootAttributes right.rootAttributes
  | .union _ left right => .union left.rootAttributes right.rootAttributes
  | .star _ child => .star child.rootAttributes

/-- The tree with `rootAttributes` at every node. -/
def annotated : PatternTree → PatternTree
  | .leaf _ id symbol => .leaf (some (.leaf id)) id symbol
  | .epsilon _ => .epsilon (some .epsilon)
  | .concat _ left right =>
    .concat (some (.concat left.rootAttributes right.rootAttributes)) left.annotated right.annotated
  | .union _ left right =>
    .union (some (.union left.rootAttributes right.rootAttributes)) left.annotated right.annotated
  | .star _ child => .star (some (.star child.rootAttributes)) child.annotated

theorem attributes_annotated (t : PatternTree) : t.annotated.attributes = .ok t.rootAttributes := by
  cases t <;> rfl

theorem children_annotated (t : PatternTree) : t.annotated.children = t.children.map annotated := by
  cases t <;> rfl

theorem annotate_visit (t : PatternTree) (jobs : List Job) (done : List PatternTree) :
    annotate (.visit t :: jobs) done = annotate jobs (t.annotated :: done) := by
  induction t generalizing jobs done with
  | leaf => rw [annotate]; rfl
  | epsilon => rw [annotate]; rfl
  | concat a left right ihl ihr =>
    rw [annotate, ihl, ihr, annotate, attributes_annotated, attributes_annotated]; rfl
  | union a left right ihl ihr =>
    rw [annotate, ihl, ihr, annotate, attributes_annotated, attributes_annotated]; rfl
  | star a child ih => rw [annotate, ih, annotate, attributes_annotated]; rfl

/-- The pass does not fail, and the jobs put the tree together as the recursion does. -/
theorem withAttributes_eq (t : PatternTree) : t.withAttributes = .ok t.annotated := by
  rw [withAttributes, annotate_visit, annotate]

end PatternTree

end PositionAutomaton
