import PositionAutomaton.CommandLine.World

/-!
# Running in an empty directory

What a run leaves behind when it starts in an empty directory and nothing that it writes is refused: exit code, texts and
files.
-/

namespace PositionAutomaton

namespace CommandLine

/-- What can be seen after a run. -/
structure Outcome where
  exitCode : Nat
  standardOutput : String := ""
  standardError : String := ""
  /-- The files in the directory, by name. -/
  files : List (String × Bytes) := []
deriving DecidableEq

/-- Why a file cannot be written. -/
inductive FileFault where
  | noSuchDirectory
  | isDirectory
deriving DecidableEq

/-- The words of the system. -/
def FileFault.reason : FileFault → String
  | .noSuchDirectory => "No such file or directory (os error 2)"
  | .isDirectory => "Is a directory (os error 21)"

/-- Where a new file comes to be. -/
inductive Place where
  | inside (name : String)
  | outside
deriving DecidableEq

/-- The place that path components lead to from the directory, or from outside of it.  Empty components and `.` stay,
`..` leaves the directory, and no other directory is there to enter. -/
def place (inDirectory : Bool) : List String → Except FileFault Place
  | [] => .error .isDirectory
  | "" :: rest | "." :: rest => place inDirectory rest
  | ".." :: rest => place false rest
  | [name] => .ok (if inDirectory then .inside name else .outside)
  | _ :: rest => if rest.all (·.isEmpty) then .error .isDirectory else .error .noSuchDirectory

/-- The place of a path; one that starts with a slash starts outside. -/
def placeOfPath (path : String) : Except FileFault Place :=
  place (!path.startsWith "/") (path.splitOn "/")

/-- A directory to which files can be added, where everything that is written is taken. -/
def System.directory : System Place where
  locate path := (placeOfPath path).mapError FileFault.reason
  fault? _ _ := none
  widest := none
  encoderWords fault := fault.reason
  panicMessage := ""

/-- A directory without files. -/
def World.emptyDirectory : World Place where
  contents _ := none

/-- A file in the directory, with its name. -/
def World.file? (w : World Place) : Place → Option (String × Bytes)
  | .inside name => (w.contents (.inside name)).map (name, ·)
  | .outside => none

/-- Wrong usage ends with 2, any other failure with 1. -/
def outcome (arguments : List String) : Outcome :=
  let (exitCode, w) := run .directory arguments .emptyDirectory
  { exitCode
    standardOutput := (Binary.ofUtf8? w.standardOutput).getD ""
    standardError := (Binary.ofUtf8? w.standardError).getD ""
    files := w.opened.filterMap w.file? }

end CommandLine

end PositionAutomaton
