import PositionAutomaton.Proofs.Parser.Conservation
import PositionAutomaton.Proofs.PatternTree.Followpos
import PositionAutomaton.Proofs.PatternTree.Nodes

/-!
# When linking fails

A parsed tree has no attributes, so linking it fails at its first concatenation or star, and changes nothing if it has
neither.  With its attributes a tree links an arena exactly if the arena holds the positions that get followers,
whatever else it holds.  Links add no positions and take none away, so a node fails in the arena that the nodes before it
have linked exactly if it fails in the arena at the start (`linkNodes_of_linkable`, `linkNodes_of_not_linkable`).  What a
failure leaves in the arena are some of the links of the tree and nothing else (`link_annotated_linked`).
-/

namespace PositionAutomaton

namespace PatternTree

/-! ### Parsed trees -/

/-- No node has attributes. -/
def Unannotated (t : PatternTree) : Prop :=
  ∀ n ∈ t.subtrees, n.attributes? = none

theorem unannotated_leaf (id : PositionId) (symbol : Symbol) : (leaf none id symbol).Unannotated := by
  simp [Unannotated, attributes?]

theorem unannotated_epsilon : (epsilon none).Unannotated := by
  simp [Unannotated, attributes?]

theorem unannotated_concat {a : Option Attributes} {left right : PatternTree} :
    (concat a left right).Unannotated ↔ a = none ∧ left.Unannotated ∧ right.Unannotated := by
  simp [Unannotated, attributes?, or_imp, forall_and]

theorem unannotated_union {a : Option Attributes} {left right : PatternTree} :
    (union a left right).Unannotated ↔ a = none ∧ left.Unannotated ∧ right.Unannotated := by
  simp [Unannotated, attributes?, or_imp, forall_and]

theorem unannotated_star {a : Option Attributes} {child : PatternTree} :
    (star a child).Unannotated ↔ a = none ∧ child.Unannotated := by
  simp [Unannotated, attributes?]

theorem Unannotated.attributes?_eq {t : PatternTree} (h : t.Unannotated) : t.attributes? = none := by
  refine h t ?_
  cases t <;> simp

open ParseStacks

theorem unannotated_of_apply {op : Operator} {operands operands' : List PatternTree}
    (h : op.apply operands = .ok operands') (hall : ∀ t ∈ operands, t.Unannotated) :
    ∀ t ∈ operands', t.Unannotated := by
  unfold Operator.apply at h
  split at h <;> cases h
  · obtain ⟨hchild, hrest⟩ := List.forall_mem_cons.1 hall
    exact List.forall_mem_cons.2 ⟨unannotated_star.2 ⟨rfl, hchild⟩, hrest⟩
  · obtain ⟨hright, hall⟩ := List.forall_mem_cons.1 hall
    obtain ⟨hleft, hrest⟩ := List.forall_mem_cons.1 hall
    exact List.forall_mem_cons.2 ⟨unannotated_concat.2 ⟨rfl, hleft, hright⟩, hrest⟩
  · obtain ⟨hright, hall⟩ := List.forall_mem_cons.1 hall
    obtain ⟨hleft, hrest⟩ := List.forall_mem_cons.1 hall
    exact List.forall_mem_cons.2 ⟨unannotated_union.2 ⟨rfl, hleft, hright⟩, hrest⟩

theorem unannotated_of_reduce {p : Nat} {s s' : ParseStacks} (h : reduce p s.operands s.operators = .ok s')
    (hall : ∀ t ∈ s.operands, t.Unannotated) : ∀ t ∈ s'.operands, t.Unannotated :=
  reduce_induction (P := fun s => ∀ t ∈ s.operands, t.Unannotated)
    (fun _ _ _ _ ha hall => unannotated_of_apply ha hall) h hall

theorem unannotated_of_reads {s s' : ParseStacks} {arena arena' : Arena} {t : Token} (h : Reads s arena t s' arena')
    (hall : ∀ t ∈ s.operands, t.Unannotated) : ∀ t ∈ s'.operands, t.Unannotated := by
  cases h with
  | leaf ht => exact List.forall_mem_cons.2 ⟨unannotated_leaf _ _, hall⟩
  | epsilon => exact List.forall_mem_cons.2 ⟨unannotated_epsilon, hall⟩
  | openParen => exact hall
  | closeParen hr => exact fun t ht => unannotated_of_reduce hr hall t ht
  | operator op hr => exact fun t ht => unannotated_of_reduce hr hall t ht

theorem unannotated_of_parse {tokens : List Token} {arena arena' : Arena} {t : PatternTree}
    (h : PatternTree.parse tokens arena = (.ok (some t), arena')) : t.Unannotated := by
  obtain ⟨s, hs, hr⟩ := PatternTree.parse_eq_some_iff.1 h
  have hall : ∀ t ∈ s.operands, t.Unannotated :=
    @readAll_induction (fun _ s _ => ∀ t ∈ s.operands, t.Unannotated)
      (fun hread hall => unannotated_of_reads hread hall) [] _ _ _ _ _ _ hs (by simp)
  exact unannotated_of_reduce hr hall t List.mem_cons_self

/-! ### The child that is linked -/

/-- The child whose last positions a node gives followers: the left one of a concatenation, and that of a star. -/
def linkedChild? : PatternTree → Option PatternTree
  | .concat _ left _ => some left
  | .star _ child => some child
  | .leaf .. | .epsilon _ | .union .. => none

theorem isSome_linkedChild?_iff {t : PatternTree} :
    t.linkedChild?.isSome ↔ t.operator? = some .concat ∨ t.operator? = some .star := by
  cases t <;> simp [linkedChild?, operator?]

/-- The arena holds the positions to which the node gives followers. -/
def Linkable (arena : Arena) (n : PatternTree) : Prop :=
  ∀ child, n.linkedChild? = some child →
    ∃ a, child.attributes? = some a ∧ ∀ p ∈ a.lastpos, (arena.get? p).isSome

instance (arena : Arena) (n : PatternTree) : Decidable (Linkable arena n) :=
  decidable_of_iff (n.linkedChild?.all fun child => child.attributes?.any fun a =>
      a.lastpos.toList.all fun p => (arena.get? p).isSome) <| by
    simp only [Linkable, Option.all_eq_true, Option.any_eq_true, List.all_eq_true, OrderedSet.mem_toList]

theorem Unannotated.attributes?_linkedChild? {t n child : PatternTree} (h : t.Unannotated) (hn : n ∈ t.subtrees)
    (hchild : n.linkedChild? = some child) : child.attributes? = none := by
  induction t with
  | leaf | epsilon =>
    obtain rfl := by simpa using hn
    cases hchild
  | concat a left right ihl ihr =>
    obtain ⟨-, hl, hr⟩ := unannotated_concat.1 h
    rw [subtrees_concat] at hn
    rcases List.mem_cons.1 hn with rfl | hn
    · cases hchild
      exact hl.attributes?_eq
    · rcases List.mem_append.1 hn with hn | hn
      · exact ihl hl hn
      · exact ihr hr hn
  | union a left right ihl ihr =>
    obtain ⟨-, hl, hr⟩ := unannotated_union.1 h
    rw [subtrees_union] at hn
    rcases List.mem_cons.1 hn with rfl | hn
    · cases hchild
    · rcases List.mem_append.1 hn with hn | hn
      · exact ihl hl hn
      · exact ihr hr hn
  | star a child ih =>
    obtain ⟨-, hc⟩ := unannotated_star.1 h
    rw [subtrees_star] at hn
    rcases List.mem_cons.1 hn with rfl | hn
    · cases hchild
      exact hc.attributes?_eq
    · exact ih hc hn

/-! ### Without attributes -/

theorem mem_linkOrder {t n : PatternTree} : n ∈ t.linkOrder ↔ n ∈ t.subtrees := by
  induction t with
  | leaf | epsilon => simp [linkOrder_eq, children]
  | concat a left right ihl ihr | union a left right ihl ihr =>
    rw [linkOrder_eq]
    simp [children, ihl, ihr, or_comm]
  | star a child ih =>
    rw [linkOrder_eq]
    simp [children, ih]

/-- A node that needs the attributes of a child fails without them. -/
theorem ownLinks_of_attributes?_eq_none {n : PatternTree}
    (h : ∀ child, n.linkedChild? = some child → child.attributes? = none) : n.ownLinks =
      if n.linkedChild?.isSome then .error (.brokenInvariant .attributesNotComputed) else .ok ([], ∅) := by
  cases n with
  | leaf | epsilon | union => rfl
  | concat a left right =>
    have hleft : left.attributes = .error (.brokenInvariant .attributesNotComputed) := by
      rw [attributes, h left rfl]
    show (left.attributes >>= _) = _
    rw [hleft]
    rfl
  | star a child =>
    have hchild : child.attributes = .error (.brokenInvariant .attributesNotComputed) := by
      rw [attributes, h child rfl]
    show (child.attributes >>= _) = _
    rw [hchild]
    rfl

theorem linkNodes_of_attributes?_eq_none {ns : List PatternTree}
    (h : ∀ n ∈ ns, ∀ child, n.linkedChild? = some child → child.attributes? = none) (arena : Arena) :
    linkNodes arena ns =
      (if ns.any (·.linkedChild?.isSome) then .error (.brokenInvariant .attributesNotComputed) else .ok (), arena) := by
  induction ns with
  | nil => rfl
  | cons n ns ih =>
    obtain ⟨hn, hns⟩ := List.forall_mem_cons.1 h
    rw [linkNodes, linkNode, ownLinks_of_attributes?_eq_none hn, List.any_cons]
    cases n.linkedChild?.isSome with
    | true => rfl
    | false => exact ih hns

/-! ### With attributes -/

/-- With its attributes a node does nothing to the arena, or it links the last positions of a child. -/
theorem linkNode_annotated_cases (s : PatternTree) :
    (s.annotated.linkedChild? = none ∧ ∀ arena, s.annotated.linkNode arena = (.ok (), arena)) ∨
    ∃ child a next, s.annotated.linkedChild? = some child ∧ child.attributes? = some a ∧
      ∀ arena : Arena, s.annotated.linkNode arena = arena.link next a.lastpos.toList := by
  cases s with
  | leaf | epsilon | union => exact Or.inl ⟨rfl, fun _ => rfl⟩
  | concat a left right =>
    refine Or.inr ⟨left.annotated, _, right.rootAttributes.firstpos, rfl, left.attributes?_annotated, fun arena => ?_⟩
    rw [linkNode, ownLinks_annotated_concat, rootAttributes_annotated]
  | star a child =>
    refine Or.inr ⟨child.annotated, _, child.rootAttributes.firstpos, rfl, child.attributes?_annotated, fun arena => ?_⟩
    rw [linkNode, ownLinks_annotated_star, rootAttributes_annotated]

end PatternTree

namespace Arena

variable {a b : Arena}

theorem addFollowers?_eq_none {p : PositionId} (h : ¬ (a.get? p).isSome) (ids : PositionSet) :
    a.addFollowers? p ids = none := by
  rw [isSome_get?_iff] at h
  rw [addFollowers?, if_pos]
  by_cases h0 : p = 0
  · exact Or.inl h0
  · have hsize : ¬ p.toNat ≤ a.size := fun hle => h ⟨h0, hle⟩
    exact Or.inr (by omega)

/-- Linking stops at a position that was not handed out. -/
theorem link_of_not_allocated (next : PositionSet) {ps : List PositionId} (h : ¬ ∀ p ∈ ps, (a.get? p).isSome) :
    (a.link next ps).1 = .error (.brokenInvariant .positionNotAllocated) := by
  induction ps generalizing a with
  | nil => exact absurd (by simp) h
  | cons p ps ih =>
    by_cases hp : (a.get? p).isSome
    · obtain ⟨b, hb, hab⟩ := addFollowers?_spec next hp
      have hrest : ¬ ∀ q ∈ ps, (b.get? q).isSome := by
        intro hall
        refine h (List.forall_mem_cons.2 ⟨hp, fun q hq => ?_⟩)
        rw [← hab.isSome_get?]
        exact hall q hq
      rw [link, hb]
      exact ih hrest
    · rw [link, addFollowers?_eq_none hp]

/-- Where linking stops, the positions before have their followers. -/
theorem link_linked (a : Arena) (next : PositionSet) (ps : List PositionId) :
    ∃ R, (∀ p q, R p q → p ∈ ps ∧ q ∈ next) ∧ Linked R a (a.link next ps).2 := by
  induction ps generalizing a with
  | nil => exact ⟨_, fun _ _ h => h.elim, Linked.refl a⟩
  | cons p ps ih =>
    by_cases hp : (a.get? p).isSome
    · obtain ⟨b, hb, hab⟩ := addFollowers?_spec next hp
      obtain ⟨R, hR, hbc⟩ := ih b
      rw [link, hb]
      refine ⟨_, fun x y hxy => ?_, hab.trans hbc⟩
      rcases hxy with ⟨rfl, hy⟩ | hxy
      · exact ⟨List.mem_cons_self, hy⟩
      · exact ⟨List.mem_cons_of_mem _ (hR x y hxy).1, (hR x y hxy).2⟩
    · rw [link, addFollowers?_eq_none hp]
      exact ⟨_, fun _ _ h => h.elim, Linked.refl a⟩

end Arena

namespace PatternTree

theorem Linkable.congr {arena arena' : Arena} {n : PatternTree} (h : Linkable arena n)
    (hget : ∀ p, (arena'.get? p).isSome = (arena.get? p).isSome) : Linkable arena' n := by
  intro child hchild
  obtain ⟨a, ha, hlast⟩ := h child hchild
  refine ⟨a, ha, fun p hp => ?_⟩
  rw [hget]
  exact hlast p hp

/-- A node that can be linked leaves the same positions in the arena. -/
theorem exists_linkNode_of_linkable {s : PatternTree} {arena : Arena} (h : Linkable arena s.annotated) :
    ∃ linked, s.annotated.linkNode arena = (.ok (), linked) ∧
      ∀ p, (linked.get? p).isSome = (arena.get? p).isSome := by
  rcases s.linkNode_annotated_cases with ⟨-, hnode⟩ | ⟨child, a, next, hchild, ha, hnode⟩
  · exact ⟨arena, hnode arena, fun _ => rfl⟩
  · obtain ⟨a', ha', hlast⟩ := h child hchild
    obtain rfl : a = a' := Option.some.inj (ha.symm.trans ha')
    obtain ⟨linked, hl, hlinked⟩ := Arena.link_spec next hlast
    exact ⟨linked, (hnode arena).trans hl, hlinked.isSome_get?⟩

theorem linkNode_of_not_linkable {s : PatternTree} {arena : Arena} (h : ¬ Linkable arena s.annotated) :
    (s.annotated.linkNode arena).1 = .error (.brokenInvariant .positionNotAllocated) := by
  rcases s.linkNode_annotated_cases with ⟨hnone, -⟩ | ⟨child, a, next, hchild, ha, hnode⟩
  · have hlinkable : Linkable arena s.annotated := by
      intro child hchild
      rw [hnone] at hchild
      cases hchild
    exact absurd hlinkable h
  · rw [hnode]
    refine Arena.link_of_not_allocated next fun hall => h ?_
    intro child' hchild'
    obtain rfl : child = child' := Option.some.inj (hchild.symm.trans hchild')
    exact ⟨a, ha, hall⟩

theorem linkNodes_of_linkable {ns : List PatternTree} {arena : Arena}
    (hns : ∀ n ∈ ns, ∃ s : PatternTree, n = s.annotated) (h : ∀ n ∈ ns, Linkable arena n) :
    ∃ linked, linkNodes arena ns = (.ok (), linked) := by
  induction ns generalizing arena with
  | nil => exact ⟨arena, rfl⟩
  | cons n ns ih =>
    obtain ⟨⟨s, rfl⟩, hrest⟩ := List.forall_mem_cons.1 hns
    obtain ⟨hs, h⟩ := List.forall_mem_cons.1 h
    obtain ⟨linked, hl, hget⟩ := exists_linkNode_of_linkable hs
    obtain ⟨linked', hl'⟩ := ih hrest fun n hn => (h n hn).congr hget
    refine ⟨linked', ?_⟩
    rw [linkNodes, hl]
    exact hl'

theorem linkNodes_of_not_linkable {ns : List PatternTree} {arena : Arena}
    (hns : ∀ n ∈ ns, ∃ s : PatternTree, n = s.annotated) (h : ¬ ∀ n ∈ ns, Linkable arena n) :
    (linkNodes arena ns).1 = .error (.brokenInvariant .positionNotAllocated) := by
  induction ns generalizing arena with
  | nil => exact absurd (by simp) h
  | cons n ns ih =>
    obtain ⟨⟨s, rfl⟩, hrest⟩ := List.forall_mem_cons.1 hns
    rw [linkNodes]
    by_cases hs : Linkable arena s.annotated
    · obtain ⟨linked, hl, hget⟩ := exists_linkNode_of_linkable hs
      have hlater : ¬ ∀ n ∈ ns, Linkable linked n := by
        intro hall
        exact h (List.forall_mem_cons.2 ⟨hs, fun n hn => (hall n hn).congr fun p => (hget p).symm⟩)
      rw [hl]
      exact ih hrest hlater
    · have hnode := linkNode_of_not_linkable hs
      split
      · simp_all
      · simpa [*] using hnode

theorem exists_eq_annotated_of_mem_linkOrder {t n : PatternTree} (h : n ∈ t.annotated.linkOrder) :
    ∃ s : PatternTree, n = s.annotated := by
  rw [mem_linkOrder, ← map_snd_preorder 0] at h
  obtain ⟨⟨depth, n⟩, hn, rfl⟩ := List.mem_map.1 h
  exact exists_eq_annotated hn

/-! ### What a failure leaves -/

/-- The links of an annotated tree are pairs of numbers that stand side by side in a word of the tree. -/
theorem adjacent_of_ownLinks {t n : PatternTree} (hn : n ∈ t.annotated.linkOrder) {ps : List PositionId}
    {next : PositionSet} (h : n.ownLinks = .ok (ps, next)) {p q : PositionId} (hp : p ∈ ps) (hq : q ∈ next) :
    t.idRegex.Adjacent p q := by
  induction t with
  | leaf | epsilon =>
    rw [linkOrder_eq] at hn
    obtain rfl := by simpa [annotated, children] using hn
    cases h
    cases hp
  | concat a left right ihl ihr =>
    show Regex.Adjacent (.concat left.idRegex right.idRegex) p q
    rw [Regex.adjacent_concat]
    rw [linkOrder_annotated_concat] at hn
    rcases List.mem_cons.1 hn with rfl | hn
    · rw [ownLinks_annotated_concat] at h
      cases h
      rw [OrderedSet.mem_toList, mem_lastpos_rootAttributes] at hp
      rw [mem_firstpos_rootAttributes] at hq
      exact .inr (.inr ⟨hp, hq⟩)
    · rcases List.mem_append.1 hn with hn | hn
      · exact .inr (.inl (ihr hn))
      · exact .inl (ihl hn)
  | union a left right ihl ihr =>
    show Regex.Adjacent (.union left.idRegex right.idRegex) p q
    rw [Regex.adjacent_union]
    rw [linkOrder_annotated_union] at hn
    rcases List.mem_cons.1 hn with rfl | hn
    · cases h
      cases hp
    · rcases List.mem_append.1 hn with hn | hn
      · exact .inr (ihr hn)
      · exact .inl (ihl hn)
  | star a child ih =>
    show Regex.Adjacent (.star child.idRegex) p q
    rw [Regex.adjacent_star]
    rw [linkOrder_annotated_star] at hn
    rcases List.mem_cons.1 hn with rfl | hn
    · rw [ownLinks_annotated_star] at h
      cases h
      rw [OrderedSet.mem_toList, mem_lastpos_rootAttributes] at hp
      rw [mem_firstpos_rootAttributes] at hq
      exact .inr ⟨hp, hq⟩
    · exact .inl (ih hn)

theorem linkNodes_linked {R : PositionId → PositionId → Prop} {ns : List PatternTree}
    (h : ∀ n ∈ ns, ∀ ps next, n.ownLinks = .ok (ps, next) → ∀ p ∈ ps, ∀ q ∈ next, R p q) (arena : Arena) :
    ∃ S, (∀ p q, S p q → R p q) ∧ Arena.Linked S arena (linkNodes arena ns).2 := by
  induction ns generalizing arena with
  | nil => exact ⟨_, fun _ _ h => h.elim, Arena.Linked.refl arena⟩
  | cons n ns ih =>
    obtain ⟨hn, hns⟩ := List.forall_mem_cons.1 h
    obtain ⟨S, hS, hnode⟩ : ∃ S, (∀ p q, S p q → R p q) ∧ Arena.Linked S arena (n.linkNode arena).2 := by
      rw [linkNode]
      split
      · rename_i ps next hown
        obtain ⟨S, hS, hlinked⟩ := arena.link_linked next ps
        exact ⟨S, fun p q hpq => hn ps next hown p (hS p q hpq).1 q (hS p q hpq).2, hlinked⟩
      · exact ⟨_, fun _ _ h => h.elim, Arena.Linked.refl arena⟩
    rw [linkNodes]
    split
    · rename_i b hb
      obtain ⟨S', hS', hrest⟩ := ih hns b
      rw [hb] at hnode
      refine ⟨_, fun p q hpq => ?_, hnode.trans hrest⟩
      rcases hpq with hpq | hpq
      · exact hS p q hpq
      · exact hS' p q hpq
    · rename_i e b hb
      rw [hb] at hnode
      exact ⟨S, hS, hnode⟩

/-- Whatever the arena holds, an annotated tree leaves the same positions in it, also where linking fails, and whoever
follows a position then and did not before comes right after it in a word of the tree. -/
theorem link_annotated_linked (t : PatternTree) (arena : Arena) :
    ∃ R, (∀ p q, R p q → t.idRegex.Adjacent p q) ∧ Arena.Linked R arena (t.annotated.link arena).2 :=
  linkNodes_linked (fun _ hn _ _ hown _ hp _ hq => adjacent_of_ownLinks hn hown hp hq) arena

/-! ### Failures -/

/-- Whatever the arena holds, a parsed tree is linked as follows.  Without attributes it fails for want of them if it has
a concatenation or a star, and changes nothing otherwise.  With attributes it succeeds exactly if the arena holds the
positions that end the left side of a concatenation or the child of a star, for each of these nodes, and it fails for
want of such a position otherwise. -/
theorem linkPositions_failures {tokens : List Token} {arena₀ arena₁ : Arena} {t : PatternTree}
    (ht : PatternTree.parse tokens arena₀ = (.ok (some t), arena₁)) (arena : Arena) :
    ((∃ n ∈ t.subtrees, n.operator? = some .concat ∨ n.operator? = some .star) →
      ∃ cause, t.linkPositions arena = .error (.brokenInvariant cause) ∧
        cause.text = "node attributes read before the attribute pass") ∧
    ((¬ ∃ n ∈ t.subtrees, n.operator? = some .concat ∨ n.operator? = some .star) →
      t.linkPositions arena = .ok arena) ∧
    ∃ t', t.withAttributes = .ok t' ∧
      ((∃ linked, t'.linkPositions arena = .ok linked) ↔ ∀ n ∈ t'.subtrees, Linkable arena n) ∧
      ((¬ ∀ n ∈ t'.subtrees, Linkable arena n) →
        ∃ cause, t'.linkPositions arena = .error (.brokenInvariant cause) ∧
          cause.text = "lastpos refers to an unallocated position") := by
  have hbare : t.link arena = (if t.linkOrder.any (·.linkedChild?.isSome) then
      .error (.brokenInvariant .attributesNotComputed) else .ok (), arena) :=
    linkNodes_of_attributes?_eq_none
      (fun n hn _ => (unannotated_of_parse ht).attributes?_linkedChild? (mem_linkOrder.1 hn)) arena
  have hany : t.linkOrder.any (·.linkedChild?.isSome) = true ↔
      ∃ n ∈ t.subtrees, n.operator? = some .concat ∨ n.operator? = some .star := by
    rw [List.any_eq_true]
    exact exists_congr fun n => and_congr mem_linkOrder isSome_linkedChild?_iff
  have hnodes : ∀ n ∈ t.annotated.linkOrder, ∃ s : PatternTree, n = s.annotated := fun _ hn =>
    exists_eq_annotated_of_mem_linkOrder hn
  have hfail : (¬ ∀ n ∈ t.annotated.subtrees, Linkable arena n) →
      t.annotated.linkPositions arena = .error (.brokenInvariant .positionNotAllocated) := fun h =>
    linkPositions_eq_error_iff.2 (linkNodes_of_not_linkable hnodes fun hall => h fun n hn =>
      hall n (mem_linkOrder.2 hn))
  refine ⟨fun h => ?_, fun h => ?_, t.annotated, t.withAttributes_eq, ⟨fun h => ?_, fun h => ?_⟩, fun h => ?_⟩
  · rw [if_pos (hany.2 h)] at hbare
    exact ⟨_, linkPositions_eq_error_iff.2 (congrArg Prod.fst hbare), rfl⟩
  · rw [if_neg fun hsome => h (hany.1 hsome)] at hbare
    exact linkPositions_eq_ok_iff.2 hbare
  · obtain ⟨linked, hl⟩ := h
    by_contra hnot
    rw [hfail hnot] at hl
    cases hl
  · obtain ⟨linked, hl⟩ := linkNodes_of_linkable hnodes fun n hn => h n (mem_linkOrder.1 hn)
    exact ⟨linked, linkPositions_eq_ok_iff.2 hl⟩
  · exact ⟨_, hfail h, rfl⟩

/-- A letter before a loop: the tree is linked in the arena that it was read into, and not in one with a single position,
for the loop goes round from the second. -/
theorem linkPositions_failures_reset : ∃ t t' arena,
    PatternTree.parse [.literal 'a', .literal 'b', .star, .concat] ∅ = (.ok (some t), arena) ∧
    t.withAttributes = .ok t' ∧
    (∃ cause, t.linkPositions arena = .error (.brokenInvariant cause) ∧
      cause.text = "node attributes read before the attribute pass") ∧
    (∃ linked, t'.linkPositions arena = .ok linked) ∧
    ∃ cause, t'.linkPositions ((∅ : Arena).allocate .endMarker).2 = .error (.brokenInvariant cause) ∧
      cause.text = "lastpos refers to an unallocated position" := by
  let t : PatternTree := .concat none (.leaf none 1 (.char 'a')) (.star none (.leaf none 2 (.char 'b')))
  let arena : Arena := ⟨#[⟨1, .char 'a', ∅⟩, ⟨2, .char 'b', ∅⟩]⟩
  have hparse : PatternTree.parse [.literal 'a', .literal 'b', .star, .concat] ∅ = (.ok (some t), arena) := rfl
  have hconcat : ∃ n ∈ t.subtrees, n.operator? = some .concat ∨ n.operator? = some .star := by
    refine ⟨t, ?_, Or.inl rfl⟩
    simp [t]
  have hnodes : t.annotated.subtrees = (t.annotated.preorder 0).map Prod.snd := (map_snd_preorder 0 _).symm
  obtain ⟨hbare, -, t', ht, hok, -⟩ := linkPositions_failures hparse arena
  obtain ⟨-, -, t'', ht'', -, hfail⟩ := linkPositions_failures hparse ((∅ : Arena).allocate .endMarker).2
  obtain rfl : t.annotated = t' := Except.ok.inj (t.withAttributes_eq.symm.trans ht)
  obtain rfl : t.annotated = t'' := Except.ok.inj (t.withAttributes_eq.symm.trans ht'')
  rw [hnodes] at hok hfail
  exact ⟨t, t.annotated, arena, hparse, ht, hbare hconcat, hok.2 (by decide), hfail (by decide)⟩

end PatternTree

end PositionAutomaton
