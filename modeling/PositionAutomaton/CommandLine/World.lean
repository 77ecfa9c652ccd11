import PositionAutomaton.CommandLine.Answer

/-!
# Running in a world

A run as the effects it has one after the other, on the files that are there and on the two outputs.  What the system
does is any function (`System`): a path may lead to no file, and bytes that are written may be refused, by a full device or
a closed pipe, at once or not before the buffer is flushed.  A failure does not undo the effects before it, so what it
leaves behind depends on the order in which things are done.

The lines that a run can be made to log on the standard error are left out.
-/

namespace PositionAutomaton

namespace CommandLine

/-- Where bytes are written. -/
inductive Sink (File : Type) where
  | standardOutput
  | standardError
  | file (file : File)
deriving DecidableEq

/-- How bytes are refused. -/
structure Fault where
  /-- The number of bytes that are taken before. -/
  taken : Nat
  /-- Why no more are taken, in the words of the system. -/
  reason : String
  /-- Nothing is noticed before the buffer is flushed at the end. -/
  atFlush : Bool
deriving DecidableEq

/-- What a run depends on and does not change. -/
structure System (File : Type) where
  /-- The file that a path leads to, which need not be there yet, or why none can be opened. -/
  locate : String → Except String File
  /-- How bytes are refused that are written to a sink, none if all of them are taken. -/
  fault? : Sink File → Bytes → Option Fault
  /-- The widest indentation that can be printed, none if there is no bound. -/
  widest : Option Nat
  /-- The words of the encoder for bytes of its own that are refused. -/
  encoderWords : Fault → String
  /-- What is reported when printing breaks off, or when the standard error refuses the report on a failure. -/
  panicMessage : String

/-- The bytes that are taken of those that are written. -/
def System.taken {File : Type} (s : System File) (sink : Sink File) (bytes : Bytes) : Bytes :=
  match s.fault? sink bytes with
  | none => bytes
  | some fault => bytes.take fault.taken

/-- What a run finds and changes. -/
structure World (File : Type) where
  contents : File → Option Bytes
  /-- The files that were opened to be written, in order. -/
  opened : List File := []
  standardOutput : Bytes := []
  standardError : Bytes := []

namespace World

variable {File : Type} [DecidableEq File]

/-- The file has these bytes and no others. -/
def store (w : World File) (file : File) (bytes : Bytes) : World File :=
  { w with contents := fun f => if f = file then some bytes else w.contents f }

/-- The file is opened to be written, and is empty then, whether it was there before or not. -/
def truncate (w : World File) (file : File) : World File :=
  { w.store file [] with opened := w.opened ++ [file] }

/-- Bytes come behind those that are there. -/
def append (w : World File) : Sink File → Bytes → World File
  | .standardOutput, bytes => { w with standardOutput := w.standardOutput ++ bytes }
  | .standardError, bytes => { w with standardError := w.standardError ++ bytes }
  | .file file, bytes => w.store file ((w.contents file).getD [] ++ bytes)

end World

/-- Why a run fails. -/
inductive Failure where
  | pattern (e : CompileError)
  /-- A file cannot be opened, or what is written is refused. -/
  | inputOutput (reason : String)
  /-- The encoder is refused its bytes. -/
  | encoding (words : String)
deriving DecidableEq

def Failure.message : Failure → String
  | .pattern e => e.message
  | .inputOutput reason => "i/o error: " ++ reason
  | .encoding words => "could not encode the automaton: " ++ words

/-- How a run ends before its end: it reports a failure, or it breaks off. -/
inductive Stop where
  | failure (f : Failure)
  | panic
deriving DecidableEq

/-- A part of a run.  If it stops, what it has changed stays changed. -/
abbrev Effect (File α : Type) : Type :=
  ExceptT Stop (StateM (World File)) α

namespace Effect

variable {File : Type} [DecidableEq File] (s : System File)

/-- Opens the file that a path leads to. -/
def create (path : String) : Effect File File :=
  match s.locate path with
  | .error reason => throw (.failure (.inputOutput reason))
  | .ok file => do
    modify (·.truncate file)
    return file

def openOutput : Option String → Effect File (Sink File)
  | none => return .standardOutput
  | some path => return .file (← create s path)

/-- Writes bytes, as many as are taken. -/
def put (sink : Sink File) (bytes : Bytes) : Effect File (Option Fault) := do
  modify (·.append sink (s.taken sink bytes))
  return s.fault? sink bytes

/-- Writes through a buffer, which is flushed at the end.  It is flushed too where printing breaks off, but what is
refused then is not noticed any more. -/
def write (sink : Sink File) (payload : Payload) : Effect File Unit := do
  match payload, ← put s sink payload.bytes with
  | .printed p, none => if p.isWhole then return () else throw .panic
  | .printed p, some fault =>
    if fault.atFlush && !p.isWhole then throw .panic else throw (.failure (.inputOutput fault.reason))
  | .encoded _, none => return ()
  | .encoded _, some fault =>
    throw (.failure (if fault.atFlush then .inputOutput fault.reason else .encoding (s.encoderWords fault)))

/-- Everything that is done for a request. -/
def serve (r : Request) : Effect File Unit :=
  match r.answer s.widest with
  | .error e => throw (.failure (.pattern e))
  | .ok answer => do write s (← openOutput s answer.path) answer.payload

end Effect

section Run

variable {File : Type} [DecidableEq File] (s : System File)

/-- The exit code, and the report on the standard error where a run has stopped.  If that is refused, reporting a failure
breaks off itself. -/
def conclude : Except Stop Unit × World File → Nat × World File
  | (.ok (), w) => (0, w)
  | (.error (.failure f), w) =>
    let line := Binary.utf8 (failureLine f.message)
    (if (s.fault? .standardError line).isNone then 1 else 101, w.append .standardError (s.taken .standardError line))
  | (.error .panic, w) =>
    (101, w.append .standardError (s.taken .standardError (Binary.utf8 s.panicMessage)))

/-- The exit code of a run, and what it makes of the world.  Wrong usage ends it before anything is done; its text is left
out, and so are requests for help and for the version. -/
def run (arguments : List String) (w : World File) : Nat × World File :=
  match Request.ofArguments? arguments with
  | none => (2, w)
  | some request => conclude s ((Effect.serve s request).run.run w)

end Run

end CommandLine

end PositionAutomaton
