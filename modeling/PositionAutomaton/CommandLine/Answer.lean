import PositionAutomaton.Automaton.Binary
import PositionAutomaton.Automaton.Graphviz
import PositionAutomaton.CommandLine.Request
import PositionAutomaton.Compilation.Report

/-!
# Answering a request

A request is answered by what it writes, to the standard output or to one file, and only a pattern that compiles
writes anything.
-/

namespace PositionAutomaton

namespace CommandLine

/-- What is written: a text as it is printed, or the bytes of an automaton. -/
inductive Payload where
  | printed (p : Printout)
  | encoded (bytes : Bytes)
deriving DecidableEq

def Payload.bytes : Payload → Bytes
  | .printed p => Binary.utf8 p.text
  | .encoded bytes => bytes

/-- What is written, and the path of the file that it is written to, none for the standard output. -/
structure Answer where
  path : Option String
  payload : Payload
deriving DecidableEq

/-- The file that an automaton is written to when none is named. -/
def defaultFile : String :=
  "dfa.bin"

/-- The pattern is compiled before anything else is done. -/
def Request.answer (widest : Option Nat) (r : Request) : Except CompileError Answer := do
  let c ← compile r.pattern r.name
  return match r.action with
    | .dot => { path := r.output, payload := .printed (.whole (c.automaton.graphviz ++ "\n")) }
    | .tree => { path := r.output, payload := .printed (c.report widest) }
    | .encode => { path := some (r.output.getD defaultFile), payload := .encoded c.automaton.encode }

/-- The line that reports a failure. -/
def failureLine (message : String) : String :=
  "error: " ++ message ++ "\n"

end CommandLine

end PositionAutomaton
