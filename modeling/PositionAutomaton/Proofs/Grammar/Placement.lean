import PositionAutomaton.Grammar
import PositionAutomaton.Proofs.Token.Joining

/-!
# Patterns by local conditions

Whether a list of tokens is a pattern can be told without a derivation (`derives_iff`): the tokens are those of the
grammar, an operand stands wherever one has to (`Placed`, which compares each token with the one before), and the
parentheses close (`Closes`, which counts them).  The derivation is found from left to right; `Context` is what has been
read of it when the next phrase begins.
-/

namespace PositionAutomaton

namespace Token

/-- The tokens that patterns are written with. -/
def isWritten : Token → Bool
  | .concat | .positiveClosure | .optional => false
  | _ => true

/-- Behind a token that ends an operand or does not, an operand has ended wherever the next token needs one. -/
def Placed (closed : Bool) : List Token → Prop
  | [] => True
  | t :: ts => (t.opensOperand = true ∨ closed = true) ∧ Placed t.closesOperand ts

/-- The tokens close `n` groups and those that they open themselves. -/
def Closes (n : Nat) (ts : List Token) : Prop :=
  (∀ p, p <+: ts → p.count .closeParen ≤ n + p.count .openParen) ∧
    ts.count .closeParen = n + ts.count .openParen

theorem placed_append {closed : Bool} {ts us : List Token} :
    Placed closed (ts ++ us) ↔ Placed closed ts ∧ Placed (closedAfter closed ts) us := by
  induction ts generalizing closed with
  | nil => simp [Placed, closedAfter]
  | cons t ts ih => rw [List.cons_append, Placed, Placed, ih, closedAfter_cons, and_assoc]

theorem closes_nil {n : Nat} : Closes n [] ↔ n = 0 := by
  simp [Closes, eq_comm]

private theorem closes_cons_iff {n : Nat} {t : Token} {ts : List Token} : Closes n (t :: ts) ↔
    (∀ p, p <+: ts → (t :: p).count .closeParen ≤ n + (t :: p).count .openParen) ∧
      (t :: ts).count .closeParen = n + (t :: ts).count .openParen := by
  refine and_congr_left' ⟨fun h p hp => h (t :: p) (List.cons_prefix_cons.2 ⟨rfl, hp⟩), fun h p hp => ?_⟩
  -- the empty beginning closes nothing, and every other one starts with `t`
  cases p with
  | nil => simp
  | cons u p =>
    obtain ⟨rfl, hpre⟩ := List.cons_prefix_cons.1 hp
    exact h p hpre

theorem closes_openParen {n : Nat} {ts : List Token} : Closes n (.openParen :: ts) ↔ Closes (n + 1) ts := by
  rw [closes_cons_iff, Closes]
  simp [Nat.add_assoc, Nat.add_comm 1]

theorem closes_closeParen {n : Nat} {ts : List Token} :
    Closes n (.closeParen :: ts) ↔ ∃ m, n = m + 1 ∧ Closes m ts := by
  rw [closes_cons_iff]
  simp only [Closes, List.count_cons_self, List.count_cons_of_ne (show Token.closeParen ≠ .openParen by decide)]
  constructor
  · intro h
    obtain ⟨hp, ht⟩ := h
    have h0 := hp [] (List.nil_prefix ..)
    simp only [List.count_nil] at h0
    refine ⟨n - 1, by omega, fun p hpre => ?_, by omega⟩
    have := hp p hpre
    omega
  · intro h
    obtain ⟨m, rfl, hp, ht⟩ := h
    refine ⟨fun p hpre => ?_, by omega⟩
    have := hp p hpre
    omega

theorem closes_cons {n : Nat} {t : Token} (ho : t ≠ .openParen) (hc : t ≠ .closeParen) {ts : List Token} :
    Closes n (t :: ts) ↔ Closes n ts := by
  rw [closes_cons_iff, Closes]
  simp only [List.count_cons_of_ne ho, List.count_cons_of_ne hc]

/-- Concatenations do not count as parentheses. -/
theorem closes_joinAfter_iff {closed : Bool} {n : Nat} {ts : List Token} :
    Closes n (joinAfter closed ts) ↔ Closes n ts := by
  induction ts generalizing closed n with
  | nil => rfl
  | cons t ts ih =>
    have hconcat : ∀ us, Closes n ((if closed && t.opensOperand then [.concat] else []) ++ us) ↔ Closes n us := by
      intro us
      split
      · exact closes_cons (by simp) (by simp)
      · rfl
    rw [joinAfter, hconcat]
    by_cases ho : t = .openParen
    · rw [ho, closes_openParen, closes_openParen, ih]
    · by_cases hc : t = .closeParen
      · simp only [hc, closes_closeParen, ih]
      · rw [closes_cons ho hc, closes_cons ho hc, ih]

end Token

open Token

/-! ### What a derivation says of its tokens -/

section Derives

variable {φ : Phrase} {ts : List Token} {r : Regex Symbol}

theorem Derives.isWritten (h : Derives φ ts r) : ∀ t ∈ ts, t.isWritten = true := by
  have single : ∀ {u : Token}, u.isWritten = true → ∀ t ∈ [u], t.isWritten = true := by simp
  induction h with
  | literal | epsilon | endMarker => exact single rfl
  | group _ ih =>
    exact List.forall_mem_append.2 ⟨List.forall_mem_cons.2 ⟨rfl, ih⟩, single rfl⟩
  | star _ ih => exact List.forall_mem_append.2 ⟨ih, single rfl⟩
  | concat _ _ ihl ihr => exact List.forall_mem_append.2 ⟨ihl, ihr⟩
  | union _ _ ihl ihr => exact List.forall_mem_append.2 ⟨ihl, List.forall_mem_cons.2 ⟨rfl, ihr⟩⟩
  | atom _ ih | factor _ ih | term _ ih => exact ih

/-- A phrase starts with a token that starts an operand. -/
theorem Derives.exists_cons (h : Derives φ ts r) : ∃ t us, ts = t :: us ∧ t.opensOperand = true := by
  induction h with
  | literal | epsilon | endMarker | group => exact ⟨_, _, rfl, rfl⟩
  | star _ ih | concat _ _ ih _ | union _ _ ih _ =>
    obtain ⟨t, us, rfl, ht⟩ := ih
    exact ⟨t, _, rfl, ht⟩
  | atom _ ih | factor _ ih | term _ ih => exact ih

/-- A phrase ends with a token that ends an operand. -/
theorem Derives.closedAfter_eq (h : Derives φ ts r) (closed : Bool) : closedAfter closed ts = true := by
  induction h generalizing closed with
  | literal | epsilon | endMarker => rfl
  | group | star => exact closedAfter_concat ..
  | concat _ _ _ ihr => rw [closedAfter_append, ihr]
  | union _ _ _ ihr => rw [closedAfter_append, closedAfter_cons, ihr]
  | atom _ ih | factor _ ih | term _ ih => exact ih closed

/-- The parentheses of a phrase are matched with each other. -/
theorem Derives.closes_append (h : Derives φ ts r) (n : Nat) (us : List Token) : Closes n (ts ++ us) ↔ Closes n us := by
  induction h generalizing n us with
  | literal | epsilon | endMarker => exact closes_cons (by simp) (by simp)
  | group _ ih =>
    rw [List.append_assoc, List.cons_append, closes_openParen, ih, List.singleton_append, closes_closeParen]
    simp
  | star _ ih =>
    rw [List.append_assoc, ih]
    exact closes_cons (by simp) (by simp)
  | concat _ _ ihl ihr => rw [List.append_assoc, ihl, ihr]
  | union _ _ ihl ihr =>
    rw [List.append_assoc, ihl, List.cons_append, closes_cons (by simp) (by simp), ihr]
  | atom _ ih | factor _ ih | term _ ih => exact ih n us

theorem Derives.closes (h : Derives φ ts r) : Closes 0 ts := by
  simpa using (h.closes_append 0 []).2 (closes_nil.2 rfl)

theorem Derives.placed (h : Derives φ ts r) (closed : Bool) : Placed closed ts := by
  induction h generalizing closed with
  | literal | epsilon | endMarker => exact ⟨Or.inl rfl, trivial⟩
  | group h ih =>
    exact ⟨Or.inl rfl, placed_append.2 ⟨ih _, Or.inr (h.closedAfter_eq _), trivial⟩⟩
  | star h ih => exact placed_append.2 ⟨ih _, Or.inr (h.closedAfter_eq _), trivial⟩
  | concat _ _ ihl ihr => exact placed_append.2 ⟨ihl _, ihr _⟩
  | union h _ ihl ihr => exact placed_append.2 ⟨ihl _, Or.inr (h.closedAfter_eq _), ihr _⟩
  | atom _ ih | factor _ ih | term _ ih => exact ih closed

end Derives

/-! ### Finding a derivation from left to right -/

/-- What stands before a phrase of a derivation that has been read up to there, with `n` groups open. -/
inductive Context : Phrase → List Token → Nat → Prop where
  | start : Context .union [] 0
  | openParen {ts : List Token} {n : Nat} : Context .factor ts n → Context .union (ts ++ [.openParen]) (n + 1)
  | union {ts us : List Token} {r : Regex Symbol} {n : Nat} :
    Context .union ts n → Derives .union us r → Context .term (ts ++ us ++ [.union]) n
  | term {ts : List Token} {n : Nat} : Context .union ts n → Context .term ts n
  | concat {ts us : List Token} {r : Regex Symbol} {n : Nat} :
    Context .term ts n → Derives .term us r → Context .factor (ts ++ us) n
  | factor {ts : List Token} {n : Nat} : Context .term ts n → Context .factor ts n

/-- The tokens read end with a phrase in its context. -/
def Complete (φ : Phrase) (ts : List Token) (n : Nat) : Prop :=
  ∃ us vs r, ts = us ++ vs ∧ Context φ us n ∧ Derives φ vs r

theorem Complete.term {ts : List Token} {n : Nat} (h : Complete .factor ts n) : Complete .term ts n := by
  obtain ⟨us, vs, r, rfl, hus, hvs⟩ := h
  cases hus with
  | concat h hu => exact ⟨_, _, _, List.append_assoc .., h, .concat hu hvs⟩
  | factor h => exact ⟨us, vs, r, rfl, h, .factor hvs⟩

theorem Complete.union {ts : List Token} {n : Nat} (h : Complete .term ts n) : Complete .union ts n := by
  obtain ⟨us, vs, r, rfl, hus, hvs⟩ := h
  cases hus with
  | union h hu => exact ⟨_, _, _, by simp, h, .union hu hvs⟩
  | term h => exact ⟨us, vs, r, rfl, h, .term hvs⟩

/-- The tokens read, when an operand has ended and when one has to come. -/
def ReadUpTo (closed : Bool) (ts : List Token) (n : Nat) : Prop :=
  if closed then Complete .factor ts n else Context .factor ts n

/-- Where an operand has ended, it ends a factor of a term, and another factor may come. -/
theorem ReadUpTo.context {closed : Bool} {ts : List Token} {n : Nat} (h : ReadUpTo closed ts n) :
    Context .factor ts n := by
  cases closed with
  | false => exact h
  | true =>
    obtain ⟨us, vs, r, rfl, hus, hvs⟩ := Complete.term h
    exact .concat hus hvs

theorem ReadUpTo.atom {closed : Bool} {ts us : List Token} {r : Regex Symbol} {n : Nat} (h : ReadUpTo closed ts n)
    (hus : Derives .atom us r) : ReadUpTo true (ts ++ us) n :=
  ⟨ts, us, r, rfl, h.context, .atom hus⟩

private theorem derives_of_read {closed : Bool} {done ts : List Token} {n : Nat} (h : ReadUpTo closed done n)
    (hw : ∀ t ∈ ts, t.isWritten = true) (hp : Placed closed ts) (hlast : closedAfter closed ts = true)
    (hc : Closes n ts) : ∃ r, Derives .union (done ++ ts) r := by
  induction ts generalizing closed done n with
  | nil =>
    obtain rfl : closed = true := hlast
    obtain rfl := closes_nil.1 hc
    obtain ⟨us, vs, r, rfl, hus, hvs⟩ := Complete.union (Complete.term h)
    cases hus
    exact ⟨r, by simpa using hvs⟩
  | cons t ts ih =>
    -- after `t` the tokens read are `done ++ [t]`, and the rest keeps its conditions
    have next : ∀ {m}, ReadUpTo t.closesOperand (done ++ [t]) m → Closes m ts →
        ∃ r, Derives .union (done ++ t :: ts) r := by
      intro m hr hm
      have hwritten : ∀ u ∈ ts, u.isWritten = true := fun u hu => hw u (List.mem_cons_of_mem _ hu)
      rw [closedAfter_cons] at hlast
      have := ih hr hwritten hp.2 hlast hm
      simpa using this
    cases t with
    | literal c => exact next (h.atom (.literal c)) ((closes_cons (by simp) (by simp)).1 hc)
    | epsilon => exact next (h.atom .epsilon) ((closes_cons (by simp) (by simp)).1 hc)
    | endMarker => exact next (h.atom .endMarker) ((closes_cons (by simp) (by simp)).1 hc)
    | openParen => exact next (.factor (.term (.openParen h.context))) (closes_openParen.1 hc)
    | closeParen =>
      -- what was read since the parenthesis that is closed is a whole pattern
      obtain rfl : closed = true := by simpa [opensOperand, isLeaf] using hp.1
      obtain ⟨m, rfl, hm⟩ := closes_closeParen.1 hc
      obtain ⟨us, vs, r, rfl, hus, hvs⟩ := Complete.union (Complete.term h)
      cases hus with
      | openParen hts =>
        refine next ?_ hm
        exact ⟨_, .openParen :: vs ++ [.closeParen], r, by simp, hts, .atom (.group hvs)⟩
    | star =>
      obtain rfl : closed = true := by simpa [opensOperand, isLeaf] using hp.1
      obtain ⟨us, vs, r, rfl, hus, hvs⟩ := h
      refine next ?_ ((closes_cons (by simp) (by simp)).1 hc)
      exact ⟨us, vs ++ [.star], _, by simp, hus, .star hvs⟩
    | union =>
      obtain rfl : closed = true := by simpa [opensOperand, isLeaf] using hp.1
      obtain ⟨us, vs, r, rfl, hus, hvs⟩ := Complete.union (Complete.term h)
      exact next (.factor (.union hus hvs)) ((closes_cons (by simp) (by simp)).1 hc)
    | concat | positiveClosure | optional => exact absurd (hw _ List.mem_cons_self) Bool.false_ne_true

/-- A list of tokens is a pattern exactly if its tokens are those of the grammar, each at a place where it may stand,
and its parentheses close. -/
theorem derives_iff {ts : List Token} : (∃ r, Derives .union ts r) ↔
    (∀ t ∈ ts, t.isWritten = true) ∧ Placed false ts ∧ closedAfter false ts = true ∧ Closes 0 ts := by
  constructor
  · intro h
    obtain ⟨r, h⟩ := h
    exact ⟨h.isWritten, h.placed false, h.closedAfter_eq false, h.closes⟩
  · intro h
    obtain ⟨hw, hp, hlast, hc⟩ := h
    have h0 : ReadUpTo false [] 0 := Context.factor (.term .start)
    exact derives_of_read h0 hw hp hlast hc

end PositionAutomaton
