import Mathlib.Data.List.Chain
import PositionAutomaton.Token

/-!
# Concatenations between tokens

`Token.insertConcats` looks at pairs of tokens.  Read from left to right it only has to remember whether the token
before ends an operand, which is `Token.joinAfter`; so a list in two parts is joined part by part
(`joinAfter_append`), and nothing but concatenations is added (`filter_joinAfter`).  Afterwards no two operands stand
side by side (`isChain_cons_joinAfter`), and joining again changes nothing (`joinAfter_joinAfter`).
-/

namespace PositionAutomaton

namespace Token

/-- The tokens with their concatenations, behind a token that ends an operand or does not. -/
def joinAfter (closed : Bool) : List Token → List Token
  | [] => []
  | t :: ts => (if closed && t.opensOperand then [.concat] else []) ++ t :: joinAfter t.closesOperand ts

theorem insertConcats_eq_joinAfter (ts : List Token) : insertConcats ts = joinAfter false ts := by
  have cons : ∀ t ts, insertConcats (t :: ts) = t :: joinAfter t.closesOperand ts := by
    intro t ts
    induction ts generalizing t with
    | nil => rfl
    | cons u ts ih =>
      rw [insertConcats, joinAfter, ih]
      split <;> rfl
  cases ts with
  | nil => rfl
  | cons t ts => exact cons t ts

/-- Whether the last token ends an operand, for the empty list whether the one before does. -/
def closedAfter (closed : Bool) (ts : List Token) : Bool :=
  (ts.getLast?.map closesOperand).getD closed

theorem closedAfter_cons (closed : Bool) (t : Token) (ts : List Token) :
    closedAfter closed (t :: ts) = closedAfter t.closesOperand ts := by
  cases ts with
  | nil => rfl
  | cons u ts =>
    simp only [closedAfter, List.getLast?_cons_cons]
    cases h : (u :: ts).getLast? with
    | none => simp at h
    | some v => rfl

theorem closedAfter_append (closed : Bool) (ts us : List Token) :
    closedAfter closed (ts ++ us) = closedAfter (closedAfter closed ts) us := by
  induction ts generalizing closed with
  | nil => rfl
  | cons t ts ih => rw [List.cons_append, closedAfter_cons, closedAfter_cons, ih]

theorem closedAfter_concat (closed : Bool) (ts : List Token) (t : Token) :
    closedAfter closed (ts ++ [t]) = t.closesOperand := by
  simp [closedAfter]

/-- Two parts are joined one after the other. -/
theorem joinAfter_append (closed : Bool) (ts us : List Token) :
    joinAfter closed (ts ++ us) = joinAfter closed ts ++ joinAfter (closedAfter closed ts) us := by
  induction ts generalizing closed with
  | nil => rfl
  | cons t ts ih =>
    rw [List.cons_append, joinAfter, joinAfter, ih, closedAfter_cons, List.append_assoc, List.cons_append]

/-- Behind an operand, what starts with an operand is joined to it. -/
theorem joinAfter_true {t : Token} (h : t.opensOperand = true) (ts : List Token) :
    joinAfter true (t :: ts) = .concat :: joinAfter false (t :: ts) := by
  simp [joinAfter, h]

/-- Apart from concatenations, the tokens stay as they were. -/
theorem filter_joinAfter (closed : Bool) (p : Token → Bool) (hp : p .concat = false) (ts : List Token) :
    (joinAfter closed ts).filter p = ts.filter p := by
  induction ts generalizing closed with
  | nil => rfl
  | cons t ts ih =>
    rw [joinAfter, List.filter_append, List.filter_cons, List.filter_cons, ih]
    split <;> simp [hp]

theorem mem_joinAfter {closed : Bool} {t : Token} (ht : t ≠ .concat) {ts : List Token} :
    t ∈ joinAfter closed ts ↔ t ∈ ts := by
  have h := filter_joinAfter closed (· != .concat) (by simp) ts
  have : t ∈ (joinAfter closed ts).filter (· != .concat) ↔ t ∈ ts.filter (· != .concat) := by rw [h]
  simpa [ht] using this

/-! ### Operands side by side -/

/-- The first token ends an operand and the second one starts an operand. -/
def Juxtaposed (t u : Token) : Prop :=
  (t.isLeaf = true ∨ t ∈ [closeParen, star, positiveClosure, optional]) ∧ (u.isLeaf = true ∨ u = openParen)

instance (t u : Token) : Decidable (Juxtaposed t u) :=
  inferInstanceAs (Decidable (_ ∧ _))

theorem closesOperand_iff {t : Token} :
    t.closesOperand = true ↔ t.isLeaf = true ∨ t ∈ [closeParen, star, positiveClosure, optional] := by
  cases t <;> simp [closesOperand, isLeaf]

theorem opensOperand_iff {t : Token} : t.opensOperand = true ↔ t.isLeaf = true ∨ t = openParen := by
  cases t <;> simp [opensOperand, isLeaf]

theorem juxtaposed_iff {t u : Token} : Juxtaposed t u ↔ t.closesOperand = true ∧ u.opensOperand = true := by
  rw [Juxtaposed, closesOperand_iff, opensOperand_iff]

/-- What is joined has nothing left to join. -/
theorem joinAfter_joinAfter (closed : Bool) (ts : List Token) :
    joinAfter closed (joinAfter closed ts) = joinAfter closed ts := by
  induction ts generalizing closed with
  | nil => rfl
  | cons t ts ih =>
    cases h : closed && t.opensOperand with
    | true =>
      -- the concatenation that was put in ends no operand, and neither does it start one
      obtain ⟨rfl, ht⟩ := Bool.and_eq_true_iff.1 h
      rw [joinAfter_true ht]
      exact congrArg (.concat :: t :: ·) (ih t.closesOperand)
    | false =>
      have hcons : ∀ us, joinAfter closed (t :: us) = t :: joinAfter t.closesOperand us := by
        intro us
        rw [joinAfter, h]
        rfl
      rw [hcons, hcons, ih]

/-- In what is joined behind a token, no operands are left side by side. -/
theorem isChain_cons_joinAfter (t : Token) (ts : List Token) :
    (t :: joinAfter t.closesOperand ts).IsChain fun t u => ¬ Juxtaposed t u := by
  induction ts generalizing t with
  | nil => exact .singleton t
  | cons u ts ih =>
    cases h : t.closesOperand && u.opensOperand with
    | true =>
      obtain ⟨ht, hu⟩ := Bool.and_eq_true_iff.1 h
      rw [ht, joinAfter_true hu]
      have hleft : ¬ Juxtaposed t .concat := by simp [juxtaposed_iff, opensOperand, isLeaf]
      have hright : ¬ Juxtaposed .concat u := by simp [juxtaposed_iff, closesOperand, isLeaf]
      exact .cons_cons hleft (.cons_cons hright (ih u))
    | false =>
      have hnone : ¬ Juxtaposed t u := by
        rw [juxtaposed_iff, ← Bool.and_eq_true_iff, h]
        exact Bool.false_ne_true
      rw [joinAfter, h]
      exact .cons_cons hnone (ih u)

/-- Only what comes first depends on the token before. -/
theorem joinAfter_eq_append (closed : Bool) (ts : List Token) :
    joinAfter closed ts = (if closed && ts.head?.any opensOperand then [.concat] else []) ++ joinAfter false ts := by
  cases ts with
  | nil => cases closed <;> rfl
  | cons t ts => rfl

theorem closedAfter_false (ts : List Token) : closedAfter false ts = ts.getLast?.any closesOperand := by
  rw [closedAfter]
  cases ts.getLast? <;> rfl

/-- Once they are made explicit, concatenations stay as they are, and no operands stand side by side.  The other tokens
are those from before in the same order, so without concatenations they give back a list that had none.  Two lists, one
behind the other, get what each of them gets and one more concatenation exactly where an operand meets an operand. -/
theorem insertConcats_laws (ts : List Token) :
    insertConcats (insertConcats ts) = insertConcats ts ∧
    ((insertConcats ts).IsChain fun t u => ¬ Juxtaposed t u) ∧
    (insertConcats ts).filter (· ≠ .concat) = ts.filter (· ≠ .concat) ∧
    ((insertConcats ts).filter (· ≠ .concat) = ts ↔ .concat ∉ ts) ∧
    ∀ us, insertConcats (ts ++ us) = insertConcats ts ++
      (if ∃ t ∈ ts.getLast?, ∃ u ∈ us.head?, Juxtaposed t u then [.concat] else []) ++ insertConcats us := by
  simp only [insertConcats_eq_joinAfter]
  have hfilter : (joinAfter false ts).filter (· ≠ .concat) = ts.filter (· ≠ .concat) :=
    filter_joinAfter false _ (by simp) ts
  refine ⟨joinAfter_joinAfter false ts, ?_, hfilter, ?_, fun us => ?_⟩
  · cases ts with
    | nil => exact .nil
    | cons t ts => exact isChain_cons_joinAfter t ts
  · rw [hfilter, List.filter_eq_self]
    constructor
    · intro h hmem
      simpa using h _ hmem
    · intro h t ht
      simpa using fun heq : t = .concat => h (heq ▸ ht)
  · rw [joinAfter_append, joinAfter_eq_append (closedAfter false ts), ← List.append_assoc, closedAfter_false]
    congr 2
    cases ts.getLast? <;> cases us.head? <;> simp [juxtaposed_iff]

end Token

end PositionAutomaton
