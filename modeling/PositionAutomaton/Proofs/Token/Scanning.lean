import PositionAutomaton.Token.Lexer

/-!
# What is scanned

Scanning gives the tokens that have a sign, so a concatenation or an end marker is never read from a text
(`ne_of_mem_scan`), and any other token but a literal is read where its sign is not escaped (`mem_iff_of_scanFrom`).
A text in two parts is scanned part by part (`scanFrom_append`).
-/

namespace PositionAutomaton

namespace Token

private theorem ne_of_ofChar? {c : Char} {t : Token} (h : ofChar? c = some t) : t ≠ .concat ∧ t ≠ .endMarker := by
  unfold ofChar? at h
  split at h <;> cases h <;> exact ⟨nofun, nofun⟩

private theorem ne_of_mem_scanFrom {offset : Nat} {cs : List Char} {ts : List Token} (h : scanFrom offset cs = .ok ts) :
    ∀ t ∈ ts, t ≠ .concat ∧ t ≠ .endMarker := by
  fun_induction scanFrom offset cs generalizing ts with
  | case1 =>
    cases h
    simp
  | case2 => cases h
  | case3 offset c rest ih =>
    obtain ⟨us, hus, rfl⟩ := map_eq_ok_iff.1 h
    exact List.forall_mem_cons.2 ⟨by simp, ih hus⟩
  | case4 => cases h
  | case5 offset c rest _ _ t ht ih =>
    obtain ⟨us, hus, rfl⟩ := map_eq_ok_iff.1 h
    exact List.forall_mem_cons.2 ⟨ne_of_ofChar? ht, ih hus⟩

/-- Concatenations and end markers are not scanned. -/
theorem ne_of_mem_scan {pattern : String} {ts : List Token} (h : scan pattern = .ok ts) :
    ∀ t ∈ ts, t ≠ .concat ∧ t ≠ .endMarker :=
  ne_of_mem_scanFrom h

theorem isDefect_of_scan {pattern : String} {e : CompileError} (h : scan pattern = .error e) : e.isDefect = false := by
  obtain ⟨c, i, rfl⟩ := exists_unknownToken_of_scan h
  rfl

/-! ### Escaped characters -/

/-- The characters of a text with their places, the first at `offset`, without those that are escaped and the
backslashes that escape them. -/
def unescaped (offset : Nat) : List Char → List (Nat × Char)
  | [] => []
  | ['\\'] => [(offset, '\\')]
  | '\\' :: _ :: rest => unescaped (offset + 2) rest
  | c :: rest => (offset, c) :: unescaped (offset + 1) rest

/-- A token other than a literal is scanned where its sign stands and is not escaped. -/
theorem mem_iff_of_scanFrom {offset : Nat} {cs : List Char} {ts : List Token} (h : scanFrom offset cs = .ok ts)
    {t : Token} (ht : ∀ c, t ≠ .literal c) : t ∈ ts ↔ ∃ p ∈ unescaped offset cs, ofChar? p.2 = some t := by
  fun_induction scanFrom offset cs generalizing ts with
  | case1 =>
    cases h
    simp [unescaped]
  | case2 => cases h
  | case3 offset c rest ih =>
    obtain ⟨us, hus, rfl⟩ := map_eq_ok_iff.1 h
    rw [unescaped, ← ih hus, List.mem_cons, or_iff_right (ht c)]
  | case4 => cases h
  | case5 offset c rest hlone hpair u hu ih =>
    obtain ⟨us, hus, rfl⟩ := map_eq_ok_iff.1 h
    rw [unescaped]
    · simp only [List.mem_cons, exists_eq_or_imp, hu, Option.some.injEq, ih hus, eq_comm]
    · exact hlone
    · exact hpair

/-! ### Texts one behind the other -/

variable {o : Nat} {s : List Char} {ts us : List Token}

theorem ne_backslash {c : Char} {cs : List Char} (hlone : c = '\\' → cs = [] → False)
    (hpair : ∀ d ds, c = '\\' → cs = d :: ds → False) : c ≠ '\\' := by
  intro hc
  cases cs with
  | nil => exact hlone hc rfl
  | cons d ds => exact hpair d ds hc rfl

/-- A character other than a backslash is read by itself. -/
theorem scanFrom_cons {c : Char} (hc : c ≠ '\\') (offset : Nat) (cs : List Char) :
    scanFrom offset (c :: cs) = match ofChar? c with
      | none => .error (.unknownToken c offset)
      | some t => (scanFrom (offset + 1) cs).map (t :: ·) :=
  scanFrom.eq_4 offset c cs (fun hb _ => hc hb) (fun _ _ hb _ => hc hb)

/-- What is read at one place is read at every place. -/
theorem scanFrom_eq_ok (h : scanFrom o s = .ok ts) (offset : Nat) : scanFrom offset s = .ok ts := by
  fun_induction scanFrom o s generalizing offset ts with
  | case1 => exact h
  | case2 => cases h
  | case3 _ c rest ih =>
    obtain ⟨us, hus, rfl⟩ := map_eq_ok_iff.1 h
    rw [scanFrom, ih hus]
    rfl
  | case4 => cases h
  | case5 _ c rest hlone hpair t ht ih =>
    obtain ⟨us, hus, rfl⟩ := map_eq_ok_iff.1 h
    rw [scanFrom_cons (ne_backslash hlone hpair), ht, ih hus]
    rfl

/-- Behind a text that is read, a second one is read as if by itself. -/
theorem scanFrom_append (h : scanFrom o s = .ok ts) (t : List Char) :
    scanFrom o (s ++ t) = (scanFrom (o + s.length) t).map (ts ++ ·) := by
  fun_induction scanFrom o s generalizing ts with
  | case1 =>
    cases h
    exact (id_map (scanFrom _ t)).symm
  | case2 => cases h
  | case3 o c rest ih =>
    obtain ⟨us, hus, rfl⟩ := map_eq_ok_iff.1 h
    have hlength : o + ('\\' :: c :: rest).length = o + 2 + rest.length := by
      simp only [List.length_cons]
      omega
    rw [List.cons_append, List.cons_append, scanFrom, ih hus, hlength]
    exact (comp_map _ _ (scanFrom _ t)).symm
  | case4 => cases h
  | case5 o c rest hlone hpair t' ht ih =>
    obtain ⟨us, hus, rfl⟩ := map_eq_ok_iff.1 h
    have hlength : o + (c :: rest).length = o + 1 + rest.length := by
      simp only [List.length_cons]
      omega
    rw [List.cons_append, scanFrom_cons (ne_backslash hlone hpair), ht, hlength]
    show (scanFrom (o + 1) (rest ++ t)).map (t' :: ·) = _
    rw [ih hus]
    exact (comp_map _ _ (scanFrom _ t)).symm

theorem scan_append {p q : String} (hp : scan p = .ok ts) (hq : scan q = .ok us) : scan (p ++ q) = .ok (ts ++ us) := by
  rw [scan, String.toList_append, scanFrom_append hp, scanFrom_eq_ok hq]
  rfl

end Token

end PositionAutomaton
