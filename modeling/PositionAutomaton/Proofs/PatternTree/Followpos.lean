import PositionAutomaton.PatternTree.Links
import PositionAutomaton.Proofs.Arena.Numbering
import PositionAutomaton.Proofs.PatternTree.Attributes

/-!
# What the links say

Linking adds to the positions that may follow a position and changes nothing else; `Arena.Linked` says so for a set of
links given as a relation, and composes along a run of links.  The links of an annotated tree whose positions are all in
the arena succeed, and they are the pairs of numbers that stand side by side in a word of the tree
(`linkPositions_annotated`).
-/

namespace PositionAutomaton

namespace Arena

/-- The second arena is the first one with the positions related by `R` added to those that may follow. -/
structure Linked (R : PositionId → PositionId → Prop) (a b : Arena) : Prop where
  size_eq : b.size = a.size
  get?_none : ∀ {p}, a.get? p = none → b.get? p = none
  get?_some : ∀ {p x}, a.get? p = some x →
    ∃ s, b.get? p = some { x with followpos := s } ∧ ∀ q, q ∈ s ↔ q ∈ x.followpos ∨ R p q

variable {R S : PositionId → PositionId → Prop} {a b c : Arena}

theorem Linked.refl (a : Arena) : Linked (fun _ _ => False) a a where
  size_eq := rfl
  get?_none h := h
  get?_some {p x} h := ⟨x.followpos, h, by simp⟩

theorem Linked.trans (h : Linked R a b) (h' : Linked S b c) : Linked (fun p q => R p q ∨ S p q) a c where
  size_eq := h'.size_eq.trans h.size_eq
  get?_none hp := h'.get?_none (h.get?_none hp)
  get?_some {p x} hp := by
    obtain ⟨s, hs, hmem⟩ := h.get?_some hp
    obtain ⟨s', hs', hmem'⟩ := h'.get?_some hs
    refine ⟨s', hs', fun q => ?_⟩
    rw [hmem', hmem, or_assoc]

theorem Linked.congr (h : Linked R a b) (hR : ∀ p q, R p q ↔ S p q) : Linked S a b where
  size_eq := h.size_eq
  get?_none := h.get?_none
  get?_some {p x} hp := by
    obtain ⟨s, hs, hmem⟩ := h.get?_some hp
    refine ⟨s, hs, fun q => ?_⟩
    rw [hmem, hR]

theorem Linked.isSome_get? (h : Linked R a b) (p : PositionId) : (b.get? p).isSome = (a.get? p).isSome := by
  cases hp : a.get? p with
  | none => rw [h.get?_none hp]
  | some x =>
    obtain ⟨s, hs, -⟩ := h.get?_some hp
    rw [hs]
    rfl

theorem Linked.symbol?_eq (h : Linked R a b) (p : PositionId) : b.symbol? p = a.symbol? p := by
  unfold symbol?
  cases hp : a.get? p with
  | none => rw [h.get?_none hp]
  | some x =>
    obtain ⟨s, hs, -⟩ := h.get?_some hp
    rw [hs]
    rfl

/-- A position that was handed out can be given followers. -/
theorem addFollowers?_spec {a : Arena} {id : PositionId} (ids : PositionSet) (h : (a.get? id).isSome) :
    ∃ b, a.addFollowers? id ids = some b ∧ Linked (fun p q => p = id ∧ q ∈ ids) a b := by
  obtain ⟨h0, hid⟩ := isSome_get?_iff.1 h
  have h0' := toNat_ne_zero h0
  have hcond : ¬ (id = 0 ∨ a.size ≤ id.toNat - 1) := by
    intro hbad
    rcases hbad with he | he
    · exact h0 he
    · omega
  refine ⟨_, by rw [addFollowers?, if_neg hcond], ?_, ?_, ?_⟩
  · simp [size]
  · -- what was not handed out is still not found
    intro p hp
    unfold get? at hp ⊢
    split
    · rfl
    · simp_all
  · intro p x hp
    obtain ⟨hp0, hx⟩ := get?_eq_some_iff.1 hp
    have hp0' := toNat_ne_zero hp0
    by_cases hpid : p = id
    · subst hpid
      refine ⟨x.followpos ∪ ids, ?_, by simp⟩
      simp [get?_eq_some_iff, hp0, Array.getElem?_modify, hx]
    · have hne : id.toNat - 1 ≠ p.toNat - 1 := fun he => hpid (UInt32.toNat_inj.1 (by omega))
      refine ⟨x.followpos, ?_, by simp [hpid]⟩
      simp [get?_eq_some_iff, hp0, Array.getElem?_modify, hx, hne]

/-- Positions that were handed out can be linked. -/
theorem link_spec (next : PositionSet) {ps : List PositionId} (h : ∀ p ∈ ps, (a.get? p).isSome) :
    ∃ b, a.link next ps = (.ok (), b) ∧ Linked (fun p q => p ∈ ps ∧ q ∈ next) a b := by
  induction ps generalizing a with
  | nil => exact ⟨a, rfl, (Linked.refl a).congr (by simp)⟩
  | cons p ps ih =>
    obtain ⟨b, hb, hab⟩ := addFollowers?_spec next (h p (by simp))
    have hrest : ∀ q ∈ ps, (b.get? q).isSome := by
      intro q hq
      rw [hab.isSome_get?]
      exact h q (by simp [hq])
    obtain ⟨c, hc, hbc⟩ := ih hrest
    have hlink : a.link next (p :: ps) = (.ok (), c) := by
      rw [link, hb]
      exact hc
    refine ⟨c, hlink, (hab.trans hbc).congr fun x y => ?_⟩
    rw [List.mem_cons, or_and_right]

/-- What is kept when followers are given to one position is kept when they are given to several, even if that fails. -/
theorem link_induction {P : Arena → Prop}
    (step : ∀ {a b : Arena} {id ids}, a.addFollowers? id ids = some b → P a → P b) (next : PositionSet)
    (ps : List PositionId) (h : P a) : P (a.link next ps).2 := by
  induction ps generalizing a with
  | nil => exact h
  | cons p ps ih =>
    rw [link]
    split
    · exact ih (step ‹_› h)
    · exact h

end Arena

namespace PatternTree

/-! ### The order of the nodes -/

theorem linkWalk_append (ts us : List PatternTree) : linkWalk (ts ++ us) = linkWalk ts ++ linkWalk us := by
  induction ts using linkWalk.induct with
  | case1 => rw [linkWalk_nil]; rfl
  | case2 t waiting ih =>
    rw [List.cons_append, linkWalk_cons, linkWalk_cons, ← List.append_assoc, ih, List.cons_append]

/-- A node comes before its children, and these come from the right to the left. -/
theorem linkOrder_eq (t : PatternTree) : t.linkOrder = t :: t.children.reverse.flatMap linkOrder := by
  have hwalk : ∀ ts, linkWalk ts = ts.flatMap linkOrder := by
    intro ts
    induction ts with
    | nil => exact linkWalk_nil
    | cons t ts ih => rw [← List.singleton_append, linkWalk_append, ih]; rfl
  rw [linkOrder, linkWalk_cons, List.append_nil, hwalk]

theorem linkOrder_annotated (t : PatternTree) :
    t.annotated.linkOrder = t.annotated :: t.children.reverse.flatMap (·.annotated.linkOrder) := by
  rw [linkOrder_eq, children_annotated, ← List.map_reverse, List.flatMap_map]

/-! ### Linking nodes -/

theorem linkNodes_append {arena b : Arena} {ts : List PatternTree} (h : linkNodes arena ts = (.ok (), b))
    (us : List PatternTree) : linkNodes arena (ts ++ us) = linkNodes b us := by
  induction ts generalizing arena with
  | nil =>
    cases h
    rfl
  | cons t ts ih =>
    rw [linkNodes] at h
    rw [List.cons_append, linkNodes]
    split at h
    · exact ih h
    · cases h

theorem linkNodes_cons {t : PatternTree} {ps : List PositionId} {next : PositionSet} {arena b : Arena}
    (ht : t.ownLinks = .ok (ps, next)) (hb : arena.link next ps = (.ok (), b)) (ts : List PatternTree) :
    linkNodes arena (t :: ts) = linkNodes b ts := by
  rw [linkNodes, linkNode, ht]
  dsimp only
  rw [hb]

/-- What is kept when followers are given to one position is kept by linking any nodes, even if that fails. -/
theorem linkNodes_induction {P : Arena → Prop}
    (step : ∀ {a b : Arena} {id ids}, a.addFollowers? id ids = some b → P a → P b) (ts : List PatternTree)
    {a : Arena} (h : P a) : P (linkNodes a ts).2 := by
  induction ts generalizing a with
  | nil => exact h
  | cons t ts ih =>
    have hnode : P (t.linkNode a).2 := by
      rw [linkNode]
      split
      · exact Arena.link_induction step _ _ h
      · exact h
    rw [linkNodes]
    split
    · exact ih (by simpa [*] using hnode)
    · simpa [*] using hnode

theorem linkPositions_eq_ok_iff {t : PatternTree} {a b : Arena} :
    t.linkPositions a = .ok b ↔ t.link a = (.ok (), b) := by
  unfold linkPositions
  rcases t.link a with ⟨e | -, b'⟩ <;> simp [Except.map]

theorem linkPositions_eq_error_iff {t : PatternTree} {a : Arena} {e : CompileError} :
    t.linkPositions a = .error e ↔ (t.link a).1 = .error e := by
  unfold linkPositions
  rcases t.link a with ⟨e | -, b'⟩ <;> simp [Except.map]

/-- All positions of the tree are in the arena. -/
def Allocated (arena : Arena) (t : PatternTree) : Prop :=
  ∀ p ∈ t.regex.letters.map Prod.fst, (arena.get? p).isSome

theorem Allocated.linked {R : PositionId → PositionId → Prop} {a b : Arena} {t : PatternTree}
    (h : Allocated a t) (hab : Arena.Linked R a b) : Allocated b t := by
  intro p hp
  rw [hab.isSome_get?]
  exact h p hp

theorem Allocated.link_lastpos {arena : Arena} {t : PatternTree} (h : Allocated arena t) (next : PositionSet) :
    ∃ b, arena.link next t.rootAttributes.lastpos.toList = (.ok (), b) ∧
      Arena.Linked (fun p q => t.idRegex.Ends p ∧ q ∈ next) arena b := by
  have hlast : ∀ p ∈ t.rootAttributes.lastpos.toList, (arena.get? p).isSome := fun p hp =>
    h p (mem_letters_of_mem_lastpos (OrderedSet.mem_toList.1 hp))
  obtain ⟨b, hb, hab⟩ := Arena.link_spec next hlast
  refine ⟨b, hb, hab.congr fun p q => ?_⟩
  rw [OrderedSet.mem_toList, mem_lastpos_rootAttributes]

theorem ownLinks_annotated_concat (a : Option Attributes) (left right : PatternTree) :
    (concat a left right).annotated.ownLinks =
      .ok (left.rootAttributes.lastpos.toList, right.rootAttributes.firstpos) := by
  show (left.annotated.attributes >>= _) = _
  rw [attributes_annotated]
  show (right.annotated.attributes >>= _) = _
  rw [attributes_annotated]
  rfl

theorem ownLinks_annotated_star (a : Option Attributes) (child : PatternTree) :
    (star a child).annotated.ownLinks = .ok (child.rootAttributes.lastpos.toList, child.rootAttributes.firstpos) := by
  show (child.annotated.attributes >>= _) = _
  rw [attributes_annotated]
  rfl

theorem linkOrder_annotated_concat (a : Option Attributes) (left right : PatternTree) :
    (concat a left right).annotated.linkOrder =
      (concat a left right).annotated :: (right.annotated.linkOrder ++ left.annotated.linkOrder) := by
  rw [linkOrder_annotated]
  show _ :: (right.annotated.linkOrder ++ (left.annotated.linkOrder ++ [])) = _
  rw [List.append_nil]

theorem linkOrder_annotated_union (a : Option Attributes) (left right : PatternTree) :
    (union a left right).annotated.linkOrder =
      (union a left right).annotated :: (right.annotated.linkOrder ++ left.annotated.linkOrder) := by
  rw [linkOrder_annotated]
  show _ :: (right.annotated.linkOrder ++ (left.annotated.linkOrder ++ [])) = _
  rw [List.append_nil]

theorem linkOrder_annotated_star (a : Option Attributes) (child : PatternTree) :
    (star a child).annotated.linkOrder = (star a child).annotated :: child.annotated.linkOrder := by
  rw [linkOrder_annotated]
  show _ :: (child.annotated.linkOrder ++ []) = _
  rw [List.append_nil]

/-- The nodes of an annotated subtree, linked one after the other. -/
private theorem linkNodes_linkOrder (t : PatternTree) {arena : Arena} (h : Allocated arena t) :
    ∃ b, linkNodes arena t.annotated.linkOrder = (.ok (), b) ∧ Arena.Linked t.idRegex.Adjacent arena b := by
  induction t generalizing arena with
  | leaf a id symbol =>
    have hnone : ∀ p q, ¬ Regex.Adjacent (.letter id) p q := fun _ _ => Regex.not_adjacent_letter
    refine ⟨arena, ?_, (Arena.Linked.refl arena).congr fun p q => (iff_false_intro (hnone p q)).symm⟩
    rw [linkOrder_eq]
    rfl
  | epsilon a =>
    have hnone : ∀ p q : PositionId, ¬ Regex.Adjacent .epsilon p q := fun _ _ => Regex.not_adjacent_epsilon
    refine ⟨arena, ?_, (Arena.Linked.refl arena).congr fun p q => (iff_false_intro (hnone p q)).symm⟩
    rw [linkOrder_eq]
    rfl
  | concat a left right ihl ihr =>
    have hl : Allocated arena left := fun p hp => h p (by simp_all [regex, Regex.letters])
    have hr : Allocated arena right := fun p hp => h p (by simp_all [regex, Regex.letters])
    -- the node is linked first, then the right subtree, then the left one
    obtain ⟨b, hb, hab⟩ := hl.link_lastpos right.rootAttributes.firstpos
    obtain ⟨c, hc, hbc⟩ := ihr (hr.linked hab)
    obtain ⟨d, hd, hcd⟩ := ihl ((hl.linked hab).linked hbc)
    refine ⟨d, ?_, ((hab.trans hbc).trans hcd).congr fun p q => ?_⟩
    · rw [linkOrder_annotated_concat, linkNodes_cons (ownLinks_annotated_concat a left right) hb, linkNodes_append hc, hd]
    · show _ ↔ Regex.Adjacent (.concat left.idRegex right.idRegex) p q
      rw [Regex.adjacent_concat, mem_firstpos_rootAttributes]
      grind
  | union a left right ihl ihr =>
    have hl : Allocated arena left := fun p hp => h p (by simp_all [regex, Regex.letters])
    have hr : Allocated arena right := fun p hp => h p (by simp_all [regex, Regex.letters])
    obtain ⟨b, hb, hab⟩ := ihr hr
    obtain ⟨c, hc, hbc⟩ := ihl (hl.linked hab)
    refine ⟨c, ?_, (hab.trans hbc).congr fun p q => ?_⟩
    · rw [linkOrder_annotated_union, linkNodes_cons rfl rfl, linkNodes_append hb, hc]
    · exact or_comm.trans Regex.adjacent_union.symm
  | star a child ih =>
    have hchild : Allocated arena child := h
    obtain ⟨b, hb, hab⟩ := hchild.link_lastpos child.rootAttributes.firstpos
    obtain ⟨c, hc, hbc⟩ := ih (hchild.linked hab)
    refine ⟨c, ?_, (hab.trans hbc).congr fun p q => ?_⟩
    · rw [linkOrder_annotated_star, linkNodes_cons (ownLinks_annotated_star a child) hb, hc]
    · show _ ↔ Regex.Adjacent (.star child.idRegex) p q
      rw [Regex.adjacent_star, mem_firstpos_rootAttributes, or_comm]

/-- Linking an annotated tree adds the pairs of numbers that stand side by side in a word of the tree. -/
theorem linkPositions_annotated {t : PatternTree} {arena : Arena} (h : Allocated arena t) :
    ∃ b, t.annotated.linkPositions arena = .ok b ∧ Arena.Linked t.idRegex.Adjacent arena b := by
  obtain ⟨b, hb, hlinked⟩ := linkNodes_linkOrder t h
  exact ⟨b, linkPositions_eq_ok_iff.2 hb, hlinked⟩

end PatternTree

end PositionAutomaton
