import Mathlib.Algebra.Group.Nat.Even
import PositionAutomaton.Proofs.Token.Scanning

/-!
# Escapes

Where a text is rejected, and where it is not.  A character that is read by itself has an even number of backslashes
right before it (`mem_unescaped_iff`), and a text is rejected for the first such character that is unreadable
(`scanFrom_eq_error_iff`), wherever it starts and whatever follows (`scanFrom_add_eq_error`,
`scanFrom_append_eq_error`).  Tokens are read back from the text that escapes all their literals
(`scanFrom_flatMap_written`).
-/

namespace PositionAutomaton

namespace Token

/-- The characters that stand for nothing by themselves. -/
def unreadable : List Char :=
  ['.', '[', ']', '{', '}']

theorem ofChar?_eq_none_iff {c : Char} : ofChar? c = none ↔ c ∈ unreadable := by
  unfold ofChar?
  split <;> simp_all [unreadable]

/-! ### Texts that are rejected -/

theorem unescaped_cons {c : Char} (hc : c ≠ '\\') (offset : Nat) (cs : List Char) :
    unescaped offset (c :: cs) = (offset, c) :: unescaped (offset + 1) cs :=
  unescaped.eq_4 offset c cs (fun hb _ => hc hb) (fun _ _ hb _ => hc hb)

/-- A text is rejected for the first character that is not escaped and unreadable, a backslash at the end included. -/
theorem scanFrom_eq_error_iff {o : Nat} {cs : List Char} {e : CompileError} : scanFrom o cs = .error e ↔
    ∃ i c, e = .unknownToken c i ∧ (unescaped o cs).find? (·.2 ∈ '\\' :: unreadable) = some (i, c) := by
  fun_induction scanFrom o cs with
  | case1 => simp [unescaped]
  | case2 o => simp [unescaped, eq_comm]
  | case3 o c rest ih => rw [map_eq_error_iff, ih, unescaped]
  | case4 o c rest hlone hpair hc =>
    have hmem : c ∈ '\\' :: unreadable := List.mem_cons_of_mem _ (ofChar?_eq_none_iff.1 hc)
    rw [unescaped_cons (ne_backslash hlone hpair), List.find?_cons_of_pos (by simpa using hmem)]
    simp [eq_comm]
  | case5 o c rest hlone hpair t ht ih =>
    have hmem : c ∉ '\\' :: unreadable := by
      rw [List.mem_cons, not_or, ← ofChar?_eq_none_iff, ht]
      exact ⟨ne_backslash hlone hpair, Option.some_ne_none t⟩
    rw [map_eq_error_iff, ih, unescaped_cons (ne_backslash hlone hpair), List.find?_cons_of_neg (by simpa using hmem)]

/-- Moved on by `k` places, a text is rejected `k` places later. -/
theorem scanFrom_add_eq_error {o i : Nat} {cs : List Char} {c : Char}
    (h : scanFrom o cs = .error (.unknownToken c i)) (k : Nat) :
    scanFrom (k + o) cs = .error (.unknownToken c (k + i)) := by
  fun_induction scanFrom o cs with
  | case1 => cases h
  | case2 =>
    cases h
    rfl
  | case3 o d rest ih =>
    rw [scanFrom, Nat.add_assoc, ih (map_eq_error_iff.1 h)]
    rfl
  | case4 o d rest hlone hpair hd =>
    cases h
    rw [scanFrom_cons (ne_backslash hlone hpair), hd]
  | case5 o d rest hlone hpair t ht ih =>
    rw [scanFrom_cons (ne_backslash hlone hpair), ht, Nat.add_assoc, ih (map_eq_error_iff.1 h)]
    rfl

/-- A text that is rejected, but not for a backslash at its end, is rejected whatever follows. -/
theorem scanFrom_append_eq_error {o i : Nat} {cs : List Char} {c : Char} (hc : c ≠ '\\')
    (h : scanFrom o cs = .error (.unknownToken c i)) (ds : List Char) :
    scanFrom o (cs ++ ds) = .error (.unknownToken c i) := by
  fun_induction scanFrom o cs with
  | case1 => cases h
  | case2 =>
    cases h
    exact absurd rfl hc
  | case3 o d rest ih =>
    rw [List.cons_append, List.cons_append, scanFrom, ih (map_eq_error_iff.1 h)]
    rfl
  | case4 o d rest hlone hpair hd =>
    cases h
    rw [List.cons_append, scanFrom_cons hc, hd]
  | case5 o d rest hlone hpair t ht ih =>
    rw [List.cons_append, scanFrom_cons (ne_backslash hlone hpair), ht, ih (map_eq_error_iff.1 h)]
    rfl

/-! ### Tokens as texts -/

/-- The characters of a token: a literal is escaped, whatever it is, and any other token is its sign. -/
def written : Token → List Char
  | .literal c => ['\\', c]
  | t => [t.char]

theorem scanFrom_written {t : Token} (ht : t ≠ .concat ∧ t ≠ .endMarker) (offset : Nat) :
    scanFrom offset t.written = .ok [t] := by
  cases t <;> first | rfl | simp at ht

theorem scanFrom_flatMap_written {ts : List Token} (h : ∀ t ∈ ts, t ≠ .concat ∧ t ≠ .endMarker) (offset : Nat) :
    scanFrom offset (ts.flatMap written) = .ok ts := by
  induction ts generalizing offset with
  | nil => rfl
  | cons t ts ih =>
    obtain ⟨ht, hts⟩ := List.forall_mem_cons.1 h
    rw [List.flatMap_cons, scanFrom_append (scanFrom_written ht offset), ih hts]
    rfl

/-! ### Escaped characters by their places -/

/-- How many backslashes stand right before the place `i`. -/
def backslashesBefore (cs : List Char) : Nat → Nat
  | 0 => 0
  | i + 1 => if cs[i]? = some '\\' then backslashesBefore cs i + 1 else 0

theorem backslashesBefore_succ (cs : List Char) (i : Nat) :
    backslashesBefore cs (i + 1) = if cs[i]? = some '\\' then backslashesBefore cs i + 1 else 0 :=
  rfl

theorem backslashesBefore_cons {c : Char} (hc : c ≠ '\\') (cs : List Char) (i : Nat) :
    backslashesBefore (c :: cs) (i + 1) = backslashesBefore cs i := by
  induction i with
  | zero => simp [backslashesBefore, hc]
  | succ i ih => rw [backslashesBefore_succ, List.getElem?_cons_succ, ih, backslashesBefore_succ]

/-- Behind an escaped character, backslashes are paired as if it and its backslash were not there. -/
theorem even_backslashesBefore_escape (c : Char) (cs : List Char) (i : Nat) :
    Even (backslashesBefore ('\\' :: c :: cs) (i + 2)) ↔ Even (backslashesBefore cs i) := by
  induction i with
  | zero =>
    by_cases hc : c = '\\'
    · subst hc
      exact iff_of_true ⟨1, rfl⟩ ⟨0, rfl⟩
    · simp [backslashesBefore, hc]
  | succ i ih =>
    rw [backslashesBefore_succ _ (i + 2), backslashesBefore_succ cs, List.getElem?_cons_succ, List.getElem?_cons_succ]
    split
    · rw [Nat.even_add_one, Nat.even_add_one, ih]
    · rfl

/-- The character at the place `i` is `c` and is not escaped, since the backslashes before it are escaped in pairs; and
it escapes no character itself, since it is no backslash or the last one. -/
structure IsUnescapedAt (cs : List Char) (i : Nat) (c : Char) : Prop where
  getElem?_eq : cs[i]? = some c
  even : Even (backslashesBefore cs i)
  last : c = '\\' → i + 1 = cs.length

theorem isUnescapedAt_cons_succ {d : Char} (hd : d ≠ '\\') {c : Char} {cs : List Char} {i : Nat} :
    IsUnescapedAt (d :: cs) (i + 1) c ↔ IsUnescapedAt cs i c := by
  constructor
  · intro h
    exact ⟨h.getElem?_eq, backslashesBefore_cons hd cs i ▸ h.even, fun hc => Nat.succ.inj (h.last hc)⟩
  · intro h
    exact ⟨h.getElem?_eq, (backslashesBefore_cons hd cs i).symm ▸ h.even, fun hc => congrArg (· + 1) (h.last hc)⟩

theorem isUnescapedAt_escape_add_two {c d : Char} {cs : List Char} {i : Nat} :
    IsUnescapedAt ('\\' :: d :: cs) (i + 2) c ↔ IsUnescapedAt cs i c := by
  constructor
  · intro h
    exact ⟨h.getElem?_eq, (even_backslashesBefore_escape d cs i).1 h.even, fun hc => by simpa using h.last hc⟩
  · intro h
    exact ⟨h.getElem?_eq, (even_backslashesBefore_escape d cs i).2 h.even, fun hc => by simpa using h.last hc⟩

theorem mem_unescaped_iff {o k : Nat} {c : Char} {cs : List Char} :
    (k, c) ∈ unescaped o cs ↔ ∃ i, k = o + i ∧ IsUnescapedAt cs i c := by
  fun_induction unescaped o cs with
  | case1 =>
    refine iff_of_false List.not_mem_nil ?_
    rintro ⟨i, -, h⟩
    simpa using h.getElem?_eq
  | case2 o =>
    rw [List.mem_singleton]
    constructor
    · intro h
      obtain ⟨rfl, rfl⟩ := Prod.mk.inj h
      exact ⟨0, rfl, rfl, .zero, fun _ => rfl⟩
    · rintro ⟨_ | i, rfl, h⟩
      · obtain rfl : '\\' = c := Option.some.inj h.getElem?_eq
        rfl
      · simpa using h.getElem?_eq
  | case3 o d rest ih =>
    rw [ih]
    constructor
    · rintro ⟨i, rfl, h⟩
      exact ⟨i + 2, by omega, isUnescapedAt_escape_add_two.2 h⟩
    · rintro ⟨_ | _ | i, rfl, h⟩
      · obtain rfl : '\\' = c := Option.some.inj h.getElem?_eq
        simpa using h.last rfl
      · simpa [backslashesBefore] using h.even
      · exact ⟨i, by omega, isUnescapedAt_escape_add_two.1 h⟩
  | case4 o d rest hlone hpair ih =>
    have hd := ne_backslash hlone hpair
    rw [List.mem_cons, ih]
    constructor
    · rintro (h | ⟨i, rfl, h⟩)
      · obtain ⟨rfl, rfl⟩ := Prod.mk.inj h
        exact ⟨0, rfl, rfl, .zero, fun hc => absurd hc hd⟩
      · exact ⟨i + 1, by omega, (isUnescapedAt_cons_succ hd).2 h⟩
    · rintro ⟨_ | i, rfl, h⟩
      · obtain rfl : d = c := Option.some.inj h.getElem?_eq
        exact Or.inl rfl
      · exact Or.inr ⟨i, by omega, (isUnescapedAt_cons_succ hd).1 h⟩

/-- The places are listed from left to right. -/
theorem pairwise_unescaped (o : Nat) (cs : List Char) : (unescaped o cs).Pairwise fun x y => x.1 < y.1 := by
  fun_induction unescaped o cs with
  | case1 => exact .nil
  | case2 => exact List.pairwise_singleton ..
  | case3 o d rest ih => exact ih
  | case4 o d rest _ _ ih =>
    refine List.pairwise_cons.2 ⟨fun x hx => ?_, ih⟩
    obtain ⟨i, hi, -⟩ := mem_unescaped_iff.1 hx
    omega

/-- Behind a text that is read, a second one is read or rejected as if by itself, only that much later; and a text that
is rejected for an unreadable character is rejected whatever follows.  A text is rejected exactly for the first
character that is unreadable and not escaped, or for a last backslash that is not escaped; not to be escaped means to
stand behind an even number of backslashes.  Every list of tokens that have a sign is read from some text, in which its
literals are escaped, and no other tokens are read. -/
theorem scan_laws (p q : String) :
    (∀ ts, scan p = .ok ts →
      (∀ us, scan q = .ok us → scan (p ++ q) = .ok (ts ++ us)) ∧
      ∀ c i, scan q = .error (.unknownToken c i) → scan (p ++ q) = .error (.unknownToken c (p.length + i))) ∧
    (∀ c i, c ∈ unreadable → scan p = .error (.unknownToken c i) → scan (p ++ q) = .error (.unknownToken c i)) ∧
    (∀ e, scan p = .error e ↔ ∃ i c, e = .unknownToken c i ∧
      (unescaped 0 p.toList).find? (·.2 ∈ '\\' :: unreadable) = some (i, c)) ∧
    ((unescaped 0 p.toList).Pairwise fun x y => x.1 < y.1) ∧
    (∀ i c, (i, c) ∈ unescaped 0 p.toList ↔ IsUnescapedAt p.toList i c) ∧
    (∀ ts, .concat ∉ ts → .endMarker ∉ ts → scan (.ofList (ts.flatMap written)) = .ok ts) ∧
    ∀ ts, scan p = .ok ts → .concat ∉ ts ∧ .endMarker ∉ ts := by
  refine ⟨fun ts hp => ⟨fun us hq => scan_append hp hq, fun c i hq => ?_⟩, fun c i hc hp => ?_,
    fun e => scanFrom_eq_error_iff, pairwise_unescaped 0 _, fun i c => ?_, fun ts hconcat hend => ?_,
    fun ts hp => ⟨fun h => ?_, fun h => ?_⟩⟩
  · rw [scan, String.toList_append, scanFrom_append hp, String.length_toList, Nat.add_comm, scanFrom_add_eq_error hq]
    rfl
  · have hne : c ≠ '\\' := by
      rintro rfl
      simp [unreadable] at hc
    rw [scan, String.toList_append]
    exact scanFrom_append_eq_error hne hp q.toList
  · simp [mem_unescaped_iff]
  · rw [scan, String.toList_ofList]
    exact scanFrom_flatMap_written (fun t ht => ⟨ne_of_mem_of_not_mem ht hconcat, ne_of_mem_of_not_mem ht hend⟩) 0
  · exact (ne_of_mem_scan hp _ h).1 rfl
  · exact (ne_of_mem_scan hp _ h).2 rfl

/-- An escaped star and the empty word before an unreadable character, an escaped backslash before one, and literals of
all kinds. -/
theorem scan_laws_escapes :
    scan "\\*ε" = .ok [.literal '*', .epsilon] ∧ scan "ab]" = .error (.unknownToken ']' 2) ∧
    scan ("\\*ε" ++ "ab]") = .error (.unknownToken ']' 5) ∧
    scan "\\\\." = .error (.unknownToken '.' 2) ∧ scan ("\\\\." ++ "[") = .error (.unknownToken '.' 2) ∧
    scan (.ofList ([.literal '\\', .star, .literal '.'].flatMap written)) = .ok [.literal '\\', .star, .literal '.'] ∧
    .concat ∉ [Token.literal '*', .epsilon] := by
  obtain ⟨happend, -, -, -, -, hwritten, hsigns⟩ := scan_laws "\\*ε" "ab]"
  obtain ⟨-, hreject, -⟩ := scan_laws "\\\\." "["
  exact ⟨rfl, rfl, (happend _ rfl).2 _ _ rfl, rfl, hreject _ _ (by decide) rfl, hwritten _ (by decide) (by decide),
    (hsigns _ rfl).1⟩

end Token

end PositionAutomaton
