/-!
# Command line arguments

The first argument says what to do and the others follow in any order: the pattern, and the options `--name` and
`--output`, each at most once and with its value after `=` or as the next argument.  An argument that starts with a
hyphen and is not a hyphen alone is an option, except after `--`.  Requests for help or for the version are left out:
here `help`, `--help`, `-h`, `--version` and `-V` are wrong usage, while the program prints a text and ends with 0.
-/

namespace PositionAutomaton

namespace CommandLine

/-- What a request asks for. -/
inductive Action where
  /-- Draw the automaton. -/
  | dot
  /-- Report the tree and the links of its positions. -/
  | tree
  /-- Write the automaton as bytes. -/
  | encode
deriving DecidableEq

/-- What to do with which pattern. -/
structure Request where
  action : Action
  pattern : String
  name : String := "pattern"
  output : Option String := none
deriving DecidableEq

/-- The arguments read so far. -/
structure Given where
  pattern : Option String := none
  name : Option String := none
  output : Option String := none

namespace Given

/-- There is one pattern. -/
def addPattern? (g : Given) (value : String) : Option Given :=
  if g.pattern.isSome then none else some { g with pattern := some value }

/-- No option is given twice, and the output is not the empty path. -/
def addOption? (g : Given) (key value : String) : Option Given :=
  match key with
  | "name" => if g.name.isSome then none else some { g with name := some value }
  | "output" => if g.output.isSome || value.isEmpty then none else some { g with output := some value }
  | _ => none

end Given

/-- What an argument is by its form. -/
inductive ArgumentForm where
  | plain
  /-- Only plain arguments follow. -/
  | endOfOptions
  | option (key : String)
  | optionWithValue (key value : String)
  | unknownOption
deriving DecidableEq

def ArgumentForm.of (argument : String) : ArgumentForm :=
  match argument.toList with
  | ['-', '-'] => .endOfOptions
  | '-' :: '-' :: body =>
    let key := String.ofList (body.takeWhile (· ≠ '='))
    match body.dropWhile (· ≠ '=') with
    | [] => .option key
    | _ :: value => .optionWithValue key (String.ofList value)
  | '-' :: _ :: _ => .unknownOption
  | _ => .plain

/-- Reads the arguments after the first. -/
def Given.addAll? (g : Given) : List String → Option Given
  | [] => some g
  | argument :: rest =>
    match ArgumentForm.of argument with
    | .plain => do addAll? (← g.addPattern? argument) rest
    | .endOfOptions => rest.foldlM addPattern? g
    | .optionWithValue key value => do addAll? (← g.addOption? key value) rest
    | .option key =>
      match rest with
      | [] => none
      | value :: rest =>
        if ArgumentForm.of value = .plain then do
          addAll? (← g.addOption? key value) rest
        else
          none
    | .unknownOption => none

def Action.ofName? : String → Option Action
  | "dot" => some .dot
  | "tree" => some .tree
  | "encode" => some .encode
  | _ => none

/-- The request that the arguments make, none if they are used wrongly or ask for help or for the version. -/
def Request.ofArguments? : List String → Option Request
  | [] => none
  | actionName :: arguments => do
    let action ← Action.ofName? actionName
    let given ← Given.addAll? {} arguments
    let pattern ← given.pattern
    return { action, pattern, name := given.name.getD "pattern", output := given.output }

end CommandLine

end PositionAutomaton
