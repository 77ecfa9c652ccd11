import PositionAutomaton.CommandLine.Outcome
import PositionAutomaton.Proofs.CommandLine.Texts
import PositionAutomaton.Proofs.Compilation.Encoding

/-!
# What a run leaves behind

What a run does follows from the answer to its request and from what the system takes of it (`run_eq`).  A run whose
pattern does not compile changes nothing but the standard error; any other writes to one place only, what is written there
is known from the states, the tree and the positions, and from the bytes of an automaton the automaton is read back
(`run_request`).  A run ends with 0 only if the system takes all that it has to write (`run_fst_eq_zero_iff`), and what is
refused is reported (`run_of_fault`).  There are arguments for each request (`Request.exists_arguments`).  Started in an
empty directory, a run leaves the outcome that is shown of it (`outcome_eq_run`).
-/

namespace PositionAutomaton

namespace CommandLine

open Binary

/-! ### Writing -/

/-- Printing does not break off. -/
def Payload.IsWhole : Payload → Prop
  | .printed p => p.isWhole = true
  | .encoded _ => True

/-- The bytes of the line that reports a failure. -/
def reported (message : String) : Bytes :=
  utf8 ("error: " ++ message ++ "\n")

section Effects

variable {File : Type}

/-- All bytes that are written to the sink are taken. -/
def System.Accepts (s : System File) (sink : Sink File) (bytes : Bytes) : Prop :=
  s.fault? sink bytes = none

/-- Where a run writes that is given a path or none, or why it cannot. -/
def System.sink? (s : System File) : Option String → Except String (Sink File)
  | none => .ok .standardOutput
  | some path => (s.locate path).map .file

theorem System.sink?_of_ok {s : System File} {path? : Option String} {path : String} (hpath : path? = some path) {file : File}
    (h : s.locate path = .ok file) : s.sink? path? = .ok (.file file) := by
  rw [hpath, sink?, h]
  rfl

theorem System.sink?_of_error {s : System File} {path? : Option String} {path : String} (hpath : path? = some path)
    {reason : String} (h : s.locate path = .error reason) : s.sink? path? = .error reason := by
  rw [hpath, sink?, h]
  rfl

theorem System.taken_of_accepts {s : System File} {sink : Sink File} {bytes : Bytes} (h : s.Accepts sink bytes) :
    s.taken sink bytes = bytes := by
  rw [taken, h]

theorem System.taken_of_fault {s : System File} {sink : Sink File} {bytes : Bytes} {fault : Fault}
    (h : s.fault? sink bytes = some fault) : s.taken sink bytes = bytes.take fault.taken := by
  rw [taken, h]

/-- What becomes of writing a payload, from how its bytes are refused. -/
def Payload.verdict (s : System File) : Payload → Option Fault → Except Stop Unit
  | .printed p, none => if p.isWhole then .ok () else .error .panic
  | .printed p, some fault =>
    if fault.atFlush && !p.isWhole then .error .panic else .error (.failure (.inputOutput fault.reason))
  | .encoded _, none => .ok ()
  | .encoded _, some fault =>
    .error (.failure (if fault.atFlush then .inputOutput fault.reason else .encoding (s.encoderWords fault)))

theorem Payload.verdict_eq_ok_iff {s : System File} {payload : Payload} {fault? : Option Fault} :
    payload.verdict s fault? = .ok () ↔ fault? = none ∧ payload.IsWhole := by
  cases payload with
  | printed p =>
    cases fault? with
    | none => cases hp : p.isWhole <;> simp [verdict, IsWhole, hp]
    | some fault =>
      rw [verdict]
      split <;> simp
  | encoded bytes => cases fault? <;> simp [verdict, IsWhole]

variable [DecidableEq File] {s : System File}

/-- The world in which bytes have been written to a sink, which is opened before if it is a file. -/
def World.leave (w : World File) (sink : Sink File) (bytes : Bytes) : World File :=
  match sink with
  | .file file => (w.truncate file).append (.file file) bytes
  | sink => w.append sink bytes

/-- What is written to a file that was opened is all that the file holds. -/
theorem World.leave_file (w : World File) (file : File) (bytes : Bytes) :
    w.leave (.file file) bytes = { w.store file bytes with opened := w.opened ++ [file] } := by
  have hempty : (w.truncate file).contents file = some [] := if_pos rfl
  rw [leave, append, hempty]
  simp only [store, truncate, World.mk.injEq, and_true, Option.getD_some, List.nil_append]
  funext f
  split <;> rfl

theorem Effect.run_write (sink : Sink File) (payload : Payload) (w : World File) : (write s sink payload).run.run w =
    (payload.verdict s (s.fault? sink payload.bytes), w.append sink (s.taken sink payload.bytes)) := by
  have hput : (put s sink payload.bytes).run.run w =
      (.ok (s.fault? sink payload.bytes), w.append sink (s.taken sink payload.bytes)) := rfl
  rw [write, ExceptT.run_bind, StateT.run_bind, hput]
  cases payload with
  | printed p =>
    obtain ⟨text, isWhole⟩ := p
    rcases s.fault? sink (Payload.printed ⟨text, isWhole⟩).bytes with _ | ⟨taken, reason, atFlush⟩
    · cases isWhole <;> rfl
    · cases isWhole <;> cases atFlush <;> rfl
  | encoded bytes => cases s.fault? sink (Payload.encoded bytes).bytes <;> rfl

theorem Effect.run_serve {r : Request} {a : Answer} (h : r.answer s.widest = .ok a) (w : World File) :
    (serve s r).run.run w =
      match s.sink? a.path with
      | .error reason => (.error (.failure (.inputOutput reason)), w)
      | .ok sink => (a.payload.verdict s (s.fault? sink a.payload.bytes), w.leave sink (s.taken sink a.payload.bytes)) := by
  obtain ⟨path, payload⟩ := a
  rw [serve, h]
  cases path with
  | none => exact run_write .standardOutput payload w
  | some path =>
    dsimp only
    rw [openOutput, create, System.sink?]
    cases s.locate path with
    | error reason => rfl
    | ok file => exact run_write (.file file) payload (w.truncate file)

/-! ### Runs and answers -/

variable {arguments : List String} {r : Request}

theorem run_of_error (h : Request.ofArguments? arguments = some r) {e : CompileError}
    (he : r.answer s.widest = .error e) (w : World File) :
    run s arguments w = conclude s (.error (.failure (.pattern e)), w) := by
  rw [run, h]
  dsimp only
  rw [Effect.serve, he]
  rfl

/-- A run serves the request that its arguments make. -/
theorem run_eq (h : Request.ofArguments? arguments = some r) {a : Answer} (ha : r.answer s.widest = .ok a)
    (w : World File) : run s arguments w =
      match s.sink? a.path with
      | .error reason => conclude s (.error (.failure (.inputOutput reason)), w)
      | .ok sink => conclude s
          (a.payload.verdict s (s.fault? sink a.payload.bytes), w.leave sink (s.taken sink a.payload.bytes)) := by
  rw [run, h]
  dsimp only
  rw [Effect.run_serve ha]
  cases s.sink? a.path <;> rfl

theorem conclude_failure {f : Failure} (h : s.Accepts .standardError (reported f.message)) (w : World File) :
    conclude s (.error (.failure f), w) = (1, { w with standardError := w.standardError ++ reported f.message }) := by
  have hline : utf8 (failureLine f.message) = reported f.message := rfl
  dsimp only [conclude]
  rw [hline, System.taken_of_accepts h, h]
  rfl

theorem conclude_fst_eq_zero_iff {x : Except Stop Unit × World File} : (conclude s x).1 = 0 ↔ x.1 = .ok () := by
  obtain ⟨(f | -) | -, w⟩ := x
  · dsimp only [conclude]
    split <;> simp
  · simp [conclude]
  · simp [conclude]

end Effects

/-! ### Arguments -/

/-- A key without an equals sign is found before the first one, and its value behind it. -/
theorem ArgumentForm.of_optionWithValue (key : String) (hkey : '=' ∉ key.toList) (value : String) :
    ArgumentForm.of ("--" ++ key ++ "=" ++ value) = .optionWithValue key value := by
  have hbefore : ∀ c ∈ key.toList, decide (c ≠ '=') = true :=
    fun c hc => decide_eq_true (ne_of_mem_of_not_mem hc hkey)
  have hchars : ("--" ++ key ++ "=" ++ value).toList = '-' :: '-' :: (key.toList ++ '=' :: value.toList) := by
    simp
  have htake : (key.toList ++ '=' :: value.toList).takeWhile (· ≠ '=') = key.toList := by
    rw [List.takeWhile_append_of_pos hbefore]
    simp
  have hdrop : (key.toList ++ '=' :: value.toList).dropWhile (· ≠ '=') = '=' :: value.toList := by
    rw [List.dropWhile_append_of_pos hbefore]
    simp
  cases hbody : key.toList ++ '=' :: value.toList with
  | nil => simp at hbody
  | cons b body =>
    rw [hbody] at hchars htake hdrop
    rw [of, hchars]
    simp only [htake, hdrop, String.ofList_toList]

theorem Given.addAll?_optionWithValue (g : Given) (key : String) (hkey : '=' ∉ key.toList) (value : String)
    (rest : List String) :
    g.addAll? (("--" ++ key ++ "=" ++ value) :: rest) = (g.addOption? key value).bind (·.addAll? rest) := by
  rw [addAll?, ArgumentForm.of_optionWithValue key hkey]
  rfl

/-- Every request is made by some arguments, unless its output is the empty path. -/
theorem Request.exists_arguments (r : Request) (h : r.output ≠ some "") :
    ∃ arguments, Request.ofArguments? arguments = some r := by
  obtain ⟨action, pattern, name, output⟩ := r
  obtain ⟨command, hcommand⟩ : ∃ command, Action.ofName? command = some action := by
    cases action with
    | dot => exact ⟨"dot", rfl⟩
    | tree => exact ⟨"tree", rfl⟩
    | encode => exact ⟨"encode", rfl⟩
  obtain ⟨arguments, hgiven⟩ : ∃ arguments, Given.addAll? {} arguments =
      some { pattern := some pattern, name := some name, output } := by
    cases output with
    | none =>
      refine ⟨["--" ++ "name" ++ "=" ++ name, "--", pattern], ?_⟩
      rw [Given.addAll?_optionWithValue _ "name" (by decide)]
      rfl
    | some path =>
      have houtput : Given.addOption? { name := some name } "output" path =
          some { name := some name, output := some path } := if_neg (by simpa using h)
      refine ⟨["--" ++ "name" ++ "=" ++ name, "--" ++ "output" ++ "=" ++ path, "--", pattern], ?_⟩
      rw [Given.addAll?_optionWithValue _ "name" (by decide)]
      show Given.addAll? { name := some name } _ = _
      rw [Given.addAll?_optionWithValue _ "output" (by decide), houtput]
      rfl
  refine ⟨command :: arguments, ?_⟩
  rw [ofArguments?, hcommand, hgiven]
  rfl

/-! ### Requests -/

namespace Request

/-- The path of the file that is written, none if that is the standard output. -/
def destination? (r : Request) : Option String :=
  match r.action with
  | .dot | .tree => r.output
  | .encode => some (r.output.getD defaultFile)

/-- The bytes that are written of a compilation. -/
def written (r : Request) (c : Compilation) : Bytes :=
  match r.action with
  | .dot => utf8 c.automaton.drawing
  | .tree => utf8 c.fullReport
  | .encode => c.automaton.encode

/-- Of a tree that is printed no node is too deep for its indentation. -/
def Fits (r : Request) (widest : Option Nat) (c : Compilation) : Prop :=
  r.action = .tree → c.FitsWithin widest

def payload (r : Request) (widest : Option Nat) (c : Compilation) : Payload :=
  match r.action with
  | .dot => .printed (.whole (c.automaton.graphviz ++ "\n"))
  | .tree => .printed (c.report widest)
  | .encode => .encoded c.automaton.encode

/-- The failure of a run whose destination refuses what is written. -/
def refusal {File : Type} (r : Request) (s : System File) (fault : Fault) : Failure :=
  if r.action = .encode ∧ fault.atFlush = false then .encoding (s.encoderWords fault) else .inputOutput fault.reason

variable {r : Request} {c : Compilation} {widest : Option Nat}

theorem answer_of_error {e : CompileError} (h : compile r.pattern r.name = .error e) : r.answer widest = .error e := by
  rw [answer, h]
  rfl

theorem answer_of_compile (h : compile r.pattern r.name = .ok c) :
    r.answer widest = .ok ⟨r.destination?, r.payload widest c⟩ := by
  obtain ⟨action, pattern, name, output⟩ := r
  rw [answer, h]
  cases action <;> rfl

theorem isWhole_payload_iff : (r.payload widest c).IsWhole ↔ r.Fits widest c := by
  obtain ⟨action, pattern, name, output⟩ := r
  cases action with
  | dot => exact iff_of_true rfl fun htree => nomatch htree
  | tree => exact c.isWhole_report_iff.trans ⟨fun hfits _ => hfits, fun hfits => hfits rfl⟩
  | encode => exact iff_of_true trivial fun htree => nomatch htree

theorem bytes_payload (h : r.Fits widest c) : (r.payload widest c).bytes = r.written c := by
  obtain ⟨action, pattern, name, output⟩ := r
  cases action with
  | dot => exact congrArg utf8 c.automaton.graphviz_eq_drawing
  | tree => exact congrArg (fun p => utf8 p.text) (Compilation.report_of_fits (h rfl))
  | encode => rfl

theorem verdict_payload_of_fault {File : Type} (s : System File) (h : r.Fits widest c) (fault : Fault) :
    (r.payload widest c).verdict s (some fault) = .error (.failure (r.refusal s fault)) := by
  have hwhole := isWhole_payload_iff.2 h
  obtain ⟨action, pattern, name, output⟩ := r
  obtain ⟨taken, reason, atFlush⟩ := fault
  cases action with
  | dot => cases atFlush <;> rfl
  | tree =>
    have hreport : (c.report widest).isWhole = true := hwhole
    cases atFlush <;> simp [payload, Payload.verdict, refusal, hreport]
  | encode => cases atFlush <;> rfl

end Request

/-! ### Runs -/

section Runs

variable {File : Type} [DecidableEq File] {s : System File} {arguments : List String} {r : Request} {c : Compilation}
  {sink : Sink File}

theorem run_of_sink_error (h : Request.ofArguments? arguments = some r) (hc : compile r.pattern r.name = .ok c)
    {reason : String} (hsink : s.sink? r.destination? = .error reason) (w : World File) :
    run s arguments w = conclude s (.error (.failure (.inputOutput reason)), w) := by
  rw [run_eq h (Request.answer_of_compile hc)]
  dsimp only
  rw [hsink]

/-- A run that can write opens its destination, and concludes with what becomes of writing. -/
theorem run_of_sink (h : Request.ofArguments? arguments = some r) (hc : compile r.pattern r.name = .ok c)
    (hsink : s.sink? r.destination? = .ok sink) (hfits : r.Fits s.widest c) (w : World File) : run s arguments w =
      conclude s ((r.payload s.widest c).verdict s (s.fault? sink (r.written c)),
        w.leave sink (s.taken sink (r.written c))) := by
  rw [run_eq h (Request.answer_of_compile hc)]
  dsimp only
  rw [hsink]
  dsimp only
  rw [Request.bytes_payload hfits]

theorem run_of_accepts (h : Request.ofArguments? arguments = some r) (hc : compile r.pattern r.name = .ok c)
    (hsink : s.sink? r.destination? = .ok sink) (hfits : r.Fits s.widest c) (haccepts : s.Accepts sink (r.written c))
    (w : World File) : run s arguments w = (0, w.leave sink (r.written c)) := by
  have hverdict : (r.payload s.widest c).verdict s (s.fault? sink (r.written c)) = .ok () :=
    Payload.verdict_eq_ok_iff.2 ⟨haccepts, Request.isWhole_payload_iff.2 hfits⟩
  rw [run_of_sink h hc hsink hfits, hverdict, System.taken_of_accepts haccepts]
  rfl

/-- A destination that refuses bytes has those that it took before, and the run fails with the reason of the system, or in
the words of the encoder if that has met the fault. -/
theorem run_of_fault (h : Request.ofArguments? arguments = some r) (hc : compile r.pattern r.name = .ok c)
    (hsink : s.sink? r.destination? = .ok sink) (hfits : r.Fits s.widest c) {fault : Fault}
    (hfault : s.fault? sink (r.written c) = some fault) (w : World File) : run s arguments w =
      conclude s (.error (.failure (r.refusal s fault)), w.leave sink ((r.written c).take fault.taken)) := by
  rw [run_of_sink h hc hsink hfits, System.taken_of_fault hfault, hfault, Request.verdict_payload_of_fault s hfits]

/-- A run ends with 0 exactly if its pattern compiles, it can open its destination, nothing that it prints is too wide, and
all that it writes is taken. -/
theorem run_fst_eq_zero_iff (h : Request.ofArguments? arguments = some r) (w : World File) :
    (run s arguments w).1 = 0 ↔ ∃ c sink, compile r.pattern r.name = .ok c ∧ s.sink? r.destination? = .ok sink ∧
      r.Fits s.widest c ∧ s.Accepts sink (r.written c) := by
  constructor
  · intro hzero
    cases hc : compile r.pattern r.name with
    | error e =>
      rw [run_of_error h (Request.answer_of_error hc), conclude_fst_eq_zero_iff] at hzero
      cases hzero
    | ok c =>
      cases hsink : s.sink? r.destination? with
      | error reason =>
        rw [run_of_sink_error h hc hsink, conclude_fst_eq_zero_iff] at hzero
        cases hzero
      | ok sink =>
        rw [run_eq h (Request.answer_of_compile hc)] at hzero
        dsimp only at hzero
        rw [hsink, conclude_fst_eq_zero_iff] at hzero
        obtain ⟨haccepts, hwhole⟩ := Payload.verdict_eq_ok_iff.1 hzero
        have hfits := Request.isWhole_payload_iff.1 hwhole
        rw [Request.bytes_payload hfits] at haccepts
        exact ⟨c, sink, rfl, rfl, hfits, haccepts⟩
  · intro hsome
    obtain ⟨c, sink, hc, hsink, hfits, haccepts⟩ := hsome
    rw [run_of_accepts h hc hsink hfits haccepts]

/-- Whatever files there are, a run whose pattern does not compile opens none, changes none and prints nothing; if the
standard error takes the report on the error, the run ends with 1 and has done nothing else.  If the pattern compiles, the
destination takes all that is written and no node of a tree is too deep, the run ends with 0: it prints and opens no file, or
it writes to one file and prints nothing.  A file that cannot be opened lets it fail with the reason of the system.  From the
file of an encoded automaton the automaton of the pattern is read back, and all bytes are used, as long as the states and the
bytes of the name can be counted in 64 bits.  A destination that refuses bytes is left with those that it took before, and
the run fails. -/
theorem run_request (h : Request.ofArguments? arguments = some r) (s : System File) (w : World File) :
    (∀ e, compile r.pattern r.name = .error e →
      (run s arguments w).2.contents = w.contents ∧ (run s arguments w).2.opened = w.opened ∧
      (run s arguments w).2.standardOutput = w.standardOutput ∧
      (s.Accepts .standardError (reported e.message) →
        run s arguments w = (1, { w with standardError := w.standardError ++ reported e.message }))) ∧
    ∀ c, compile r.pattern r.name = .ok c →
      (r.destination? = none → r.Fits s.widest c → s.Accepts .standardOutput (r.written c) →
        run s arguments w = (0, { w with standardOutput := w.standardOutput ++ r.written c })) ∧
      (∀ path, r.destination? = some path →
        (∀ reason, s.locate path = .error reason →
          s.Accepts .standardError (reported ("i/o error: " ++ reason)) → run s arguments w =
            (1, { w with standardError := w.standardError ++ reported ("i/o error: " ++ reason) })) ∧
        ∀ file, s.locate path = .ok file → r.Fits s.widest c → s.Accepts (.file file) (r.written c) →
          run s arguments w = (0, { w.store file (r.written c) with opened := w.opened ++ [file] }) ∧
          (r.action = .encode → c.automaton.stateCount < 2 ^ 64 → (utf8 r.name).length < 2 ^ 64 →
            ∃ bytes m, (run s arguments w).2.contents file = some bytes ∧
              Automaton.ofPattern r.pattern r.name = .ok m ∧ Automaton.decode? bytes = some (m, bytes.length))) ∧
      ∀ sink fault, s.sink? r.destination? = .ok sink → r.Fits s.widest c →
        s.fault? sink (r.written c) = some fault →
        s.Accepts .standardError (reported (r.refusal s fault).message) → run s arguments w =
          (1, (w.leave sink ((r.written c).take fault.taken)).append .standardError
            (reported (r.refusal s fault).message)) := by
  refine ⟨fun e he => ?_, fun c hc => ⟨fun hnone hfits haccepts => ?_, fun path hpath =>
    ⟨fun reason hreason haccepts => ?_, fun file hfile hfits haccepts => ?_⟩,
    fun sink fault hsink hfits hfault haccepts => ?_⟩⟩
  · rw [run_of_error h (Request.answer_of_error he)]
    exact ⟨rfl, rfl, rfl, fun haccepts => conclude_failure (f := .pattern e) haccepts w⟩
  · have hsink : s.sink? r.destination? = .ok .standardOutput := by
      rw [hnone]
      rfl
    rw [run_of_accepts h hc hsink hfits haccepts]
    rfl
  · rw [run_of_sink_error h hc (System.sink?_of_error hpath hreason)]
    exact conclude_failure (f := .inputOutput reason) haccepts w
  · have hsink := System.sink?_of_ok hpath hfile
    have hrun : run s arguments w = (0, { w.store file (r.written c) with opened := w.opened ++ [file] }) := by
      rw [run_of_accepts h hc hsink hfits haccepts, World.leave_file]
    refine ⟨hrun, fun hencode hcount hname => ⟨r.written c, c.automaton, ?_, ?_, ?_⟩⟩
    · rw [hrun]
      exact if_pos rfl
    · rw [Automaton.ofPattern, hc]
      rfl
    · have hwritten : r.written c = c.automaton.encode := by
        rw [Request.written, hencode]
      rw [hwritten]
      exact decode?_of_compile hc hcount hname
  · rw [run_of_fault h hc hsink hfits hfault]
    exact conclude_failure haccepts _

end Runs

/-- A directory in which one file can be opened, a device that is full, and a formatter that takes widths of 16 bits. -/
def earlierSystem : System String where
  locate path := if path = "dfa.bin" ∨ path = "/dev/full" then .ok path else .error "Permission denied (os error 13)"
  fault? sink _ :=
    if sink = .file "/dev/full" then some ⟨0, "No space left on device (os error 28)", false⟩ else none
  widest := some 65535
  encoderWords fault := fault.reason
  panicMessage := "panicked"

/-- An earlier run has left the file. -/
def earlierOutput : World String where
  contents file := if file = "dfa.bin" then some [1, 2, 3] else none

/-- A pattern that does not compile leaves the file as it was, a file that cannot be opened changes nothing, a device that
is full is opened and refuses what is encoded, a tree is printed, and the automaton of a pattern that compiles takes the place
of what was there. -/
theorem run_request_earlierOutput :
    run earlierSystem ["encode", "a)"] earlierOutput =
      (1, { earlierOutput with standardError := reported (CompileError.unmatchedCloseParen 3).message }) ∧
    run earlierSystem ["dot", "--output=dfa.dot", "--", "-a"] earlierOutput =
      (1, { earlierOutput with standardError := reported ("i/o error: " ++ "Permission denied (os error 13)") }) ∧
    run earlierSystem ["encode", "a", "--output=/dev/full"] earlierOutput =
      (1, { earlierOutput.store "/dev/full" [] with
        opened := ["/dev/full"]
        standardError :=
          reported ("could not encode the automaton: " ++ "No space left on device (os error 28)") }) ∧
    (∃ c, compile "a*" "pattern" = .ok c ∧ c.FitsWithin (some 65535) ∧
      run earlierSystem ["tree", "a*"] earlierOutput = (0, { earlierOutput with standardOutput := utf8 c.fullReport })) ∧
    ∃ c, compile "(a|b)*abb" "p" = .ok c ∧
      run earlierSystem ["encode", "--name", "p", "(a|b)*abb"] earlierOutput =
        (0, { earlierOutput.store "dfa.bin" c.automaton.encode with opened := ["dfa.bin"] }) ∧
      ∃ bytes m, (run earlierSystem ["encode", "--name", "p", "(a|b)*abb"] earlierOutput).2.contents "dfa.bin" =
        some bytes ∧ Automaton.ofPattern "(a|b)*abb" "p" = .ok m ∧ Automaton.decode? bytes = some (m, bytes.length) := by
  refine ⟨?_, ?_, ?_, ?_, ?_⟩
  · have hrequest : Request.ofArguments? ["encode", "a)"] = some { action := .encode, pattern := "a)" } := by
      decide +kernel
    have hcompiled : (compile "a)" "pattern").map (·.automaton) = .error (.unmatchedCloseParen 3) := by decide +kernel
    have herror := map_eq_error_iff.1 hcompiled
    exact ((run_request hrequest earlierSystem earlierOutput).1 _ herror).2.2.2 rfl
  · have hrequest : Request.ofArguments? ["dot", "--output=dfa.dot", "--", "-a"] =
        some { action := .dot, pattern := "-a", output := some "dfa.dot" } := by decide +kernel
    have hcompiled : (compile "-a" "pattern").map (·.automaton.stateCount) = .ok 3 := by decide +kernel
    obtain ⟨c, hc, -⟩ := map_eq_ok_iff.1 hcompiled
    obtain ⟨-, hfile, -⟩ := (run_request hrequest earlierSystem earlierOutput).2 c hc
    exact (hfile "dfa.dot" rfl).1 "Permission denied (os error 13)" rfl rfl
  · have hrequest : Request.ofArguments? ["encode", "a", "--output=/dev/full"] =
        some { action := .encode, pattern := "a", output := some "/dev/full" } := by decide +kernel
    have hcompiled : (compile "a" "pattern").map (·.automaton.stateCount) = .ok 2 := by decide +kernel
    obtain ⟨c, hc, -⟩ := map_eq_ok_iff.1 hcompiled
    obtain ⟨-, -, hfault⟩ := (run_request hrequest earlierSystem earlierOutput).2 c hc
    have hrun := hfault (.file "/dev/full") ⟨0, "No space left on device (os error 28)", false⟩ rfl
      (fun htree => by cases htree) rfl rfl
    rw [World.leave_file] at hrun
    exact hrun
  · have hrequest : Request.ofArguments? ["tree", "a*"] = some { action := .tree, pattern := "a*" } := by
      decide +kernel
    have hcompiled : (compile "a*" "pattern").map (fun c => decide (c.FitsWithin (some 65535))) = .ok true := by
      decide +kernel
    obtain ⟨c, hc, hfits⟩ := map_eq_ok_iff.1 hcompiled
    have hfits : c.FitsWithin (some 65535) := of_decide_eq_true hfits
    obtain ⟨hprint, -⟩ := (run_request hrequest earlierSystem earlierOutput).2 c hc
    exact ⟨c, hc, hfits, hprint rfl (fun _ => hfits) rfl⟩
  · have hrequest : Request.ofArguments? ["encode", "--name", "p", "(a|b)*abb"] =
        some { action := .encode, pattern := "(a|b)*abb", name := "p" } := by decide +kernel
    have hcompiled : (compile "(a|b)*abb" "p").map (·.automaton.stateCount) = .ok 4 := by decide +kernel
    obtain ⟨c, hc, hcount⟩ := map_eq_ok_iff.1 hcompiled
    obtain ⟨-, hfile, -⟩ := (run_request hrequest earlierSystem earlierOutput).2 c hc
    obtain ⟨-, hwrites⟩ := hfile "dfa.bin" rfl
    obtain ⟨hrun, hread⟩ := hwrites "dfa.bin" rfl (fun htree => by cases htree) rfl
    exact ⟨c, hc, hrun, hread rfl (by omega) (by decide)⟩

/-! ### The empty directory -/

/-- The outputs are texts, and no file is there that was not opened. -/
structure Shows (w : World Place) : Prop where
  standardOutput : ∃ text, w.standardOutput = utf8 text
  standardError : ∃ text, w.standardError = utf8 text
  opened : ∀ {place bytes}, w.contents place = some bytes → place ∈ w.opened

theorem Shows.mem_files_iff {w : World Place} (h : Shows w) {name : String} {bytes : Bytes} :
    (name, bytes) ∈ w.opened.filterMap w.file? ↔ w.contents (.inside name) = some bytes := by
  rw [List.mem_filterMap]
  constructor
  · intro hfile
    obtain ⟨place, -, hplace⟩ := hfile
    cases place with
    | outside => cases hplace
    | inside found =>
      obtain ⟨contents, hcontents, hpair⟩ := Option.map_eq_some_iff.1 hplace
      cases hpair
      exact hcontents
  · intro hcontents
    refine ⟨.inside name, h.opened hcontents, ?_⟩
    rw [World.file?, hcontents]
    rfl

theorem shows_conclude_failure (f : Failure) :
    Shows (conclude .directory (.error (.failure f), .emptyDirectory)).2 where
  standardOutput := ⟨"", rfl⟩
  standardError := ⟨failureLine f.message, rfl⟩
  opened h := by cases h

/-- What is printed is a text, as only `encode` writes bytes that are none, and never without a file. -/
theorem Request.exists_text_of_destination?_eq_none {r : Request} (h : r.destination? = none) (c : Compilation) :
    ∃ text, r.written c = utf8 text := by
  obtain ⟨action, pattern, name, output⟩ := r
  cases action with
  | dot => exact ⟨_, rfl⟩
  | tree => exact ⟨_, rfl⟩
  | encode => cases h

theorem shows_run (arguments : List String) : Shows (run .directory arguments .emptyDirectory).2 := by
  cases hr : Request.ofArguments? arguments with
  | none =>
    rw [run, hr]
    exact ⟨⟨"", rfl⟩, ⟨"", rfl⟩, fun h => by cases h⟩
  | some r =>
    cases hc : compile r.pattern r.name with
    | error e =>
      rw [run_of_error hr (Request.answer_of_error hc)]
      exact shows_conclude_failure _
    | ok c =>
      have hfits : r.Fits System.directory.widest c := fun _ t _ => t.fitsWithin_none
      cases hpath : r.destination? with
      | none =>
        have hsink : System.directory.sink? r.destination? = .ok .standardOutput := by
          rw [hpath]
          rfl
        rw [run_of_accepts hr hc hsink hfits rfl]
        exact ⟨r.exists_text_of_destination?_eq_none hpath c, ⟨"", rfl⟩, fun h => by cases h⟩
      | some path =>
        cases hplace : System.directory.locate path with
        | error reason =>
          rw [run_of_sink_error hr hc (System.sink?_of_error hpath hplace)]
          exact shows_conclude_failure _
        | ok place =>
          rw [run_of_accepts hr hc (System.sink?_of_ok hpath hplace) hfits rfl, World.leave_file]
          refine ⟨⟨"", rfl⟩, ⟨"", rfl⟩, fun {found bytes} h => ?_⟩
          -- only the file that was opened is there
          by_cases hfound : found = place
          · simp [hfound]
          · simp [World.store, World.emptyDirectory, hfound] at h

/-- Started in an empty directory, a run leaves the outcome that is shown of it. -/
theorem outcome_eq_run (arguments : List String) :
    (outcome arguments).exitCode = (run .directory arguments .emptyDirectory).1 ∧
    utf8 (outcome arguments).standardOutput = (run .directory arguments .emptyDirectory).2.standardOutput ∧
    utf8 (outcome arguments).standardError = (run .directory arguments .emptyDirectory).2.standardError ∧
    ∀ name bytes, (name, bytes) ∈ (outcome arguments).files ↔
      (run .directory arguments .emptyDirectory).2.contents (.inside name) = some bytes := by
  have hshows := shows_run arguments
  have htext : ∀ bytes, (∃ text, bytes = utf8 text) → utf8 ((ofUtf8? bytes).getD "") = bytes := by
    intro bytes h
    obtain ⟨text, rfl⟩ := h
    rw [ofUtf8?_utf8]
    rfl
  refine ⟨rfl, htext _ hshows.standardOutput, htext _ hshows.standardError, fun name bytes => ?_⟩
  exact hshows.mem_files_iff

end CommandLine

end PositionAutomaton
