import DiffAnalyzer.Circuit

/-!
# Invocations

A command line names a command and its options.  Options are written `--name value`,
`--name=value`, `-n value`, `-nvalue` or `-n=value`, each at most once for the command
and once before it; two flags apply to all commands and may stand on either side of
the command.  Behind `--` everything is an argument of the simulation.

A value is judged where it is found: a file is opened before the next argument is
looked at, so one that cannot be opened ends parsing even if help is asked for later.
-/

namespace DiffAnalyzer

namespace CommandLine

/-- What help is asked for. -/
inductive Topic where
  | program
  | command (name : String)
  /-- Asking for help itself. -/
  | help
deriving DecidableEq, Repr

/-- Why parsing ends without an invocation. -/
inductive Stop where
  /-- Help in full or in summary. -/
  | help (topic : Topic) (full : Bool)
  | version
  | unknownArgument (arg : String)
  | repeatedOption (name : String)
  | missingValue (name : String)
  | unneededValue (name : String)
  | invalidValue (name value : String)
  | closedFile (name path : String)
  | missingOption (name : String)
  | missingCommand
  | unknownCommand (name : String)
deriving DecidableEq, Repr

/-- What a file is opened for. -/
inductive Opening where
  | input
  | output
deriving DecidableEq, Repr

/-- The files a command line can reach.  The path of a dash stands for the standard
input and output, which are always open. -/
structure Surroundings (m : Type → Type) where
  /-- Whether a file can be opened. -/
  opens : Opening → String → m Bool
  /-- The text of an open file, if it is one. -/
  read : String → m (Option String)

/-- An option of a command. -/
structure OptionSpec where
  name : String
  short : Option Char := none
  /-- What its value is called; an option without one is a flag. -/
  value : Option String := none
  about : String
  /-- The value it has when it is not given. -/
  fallback : Option String := none
  /-- The values it can have, with what they mean, if they are few. -/
  choices : List (String × String) := []
  /-- The values that are accepted. -/
  accepts : String → Bool := fun _ => true
  /-- What its value is opened for, if it is a path. -/
  opening : Option Opening := none

/-- Options found so far, with their values. -/
abbrev Given := List (String × String)

/-- How a command line starts: its options, and what comes behind them. -/
structure Split where
  given : Given
  /-- From the first argument on that is no option. -/
  rest : List String
  /-- Behind a separator `--`. -/
  trailing : Option (List String)

variable {m : Type → Type} [Monad m]

/-- Take an option with its value. -/
def give (s : Surroundings m) (spec : OptionSpec) (value : String) (given : Given) :
    ExceptT Stop m Given := do
  if (given.lookup spec.name).isSome then throw (.repeatedOption spec.name)
  if !spec.accepts value then throw (.invalidValue spec.name value)
  if let some opening := spec.opening then
    if value != "-" && !(← s.opens opening value) then throw (.closedFile spec.name value)
  pure (given ++ [(spec.name, value)])

/-- What an argument is to a parser of options. -/
inductive Token where
  | separator
  /-- An option by its name or its letter, and the value attached to it. -/
  | long (name : String) (value : Option String)
  | short (letter : Char) (value : Option String)
  | word

/-- A dash alone is a word. -/
def tokenOf (arg : String) : Token :=
  match arg.toList with
  | ['-', '-'] => .separator
  | '-' :: '-' :: body =>
    match splitFirst? '=' body with
    | some (name, value) => .long (String.ofList name) (some (String.ofList value))
    | none => .long (String.ofList body) none
  | ['-', letter] => .short letter none
  | '-' :: letter :: '=' :: value => .short letter (some (String.ofList value))
  | '-' :: letter :: value => .short letter (some (String.ofList value))
  | _ => .word

/-- The option that a token names. -/
def specOf? (specs : List OptionSpec) : Token → Option (OptionSpec × Option String)
  | .long name value => (specs.find? fun s => s.name == name).map (·, value)
  | .short letter value => (specs.find? fun s => s.short == some letter).map (·, value)
  | .separator | .word => none

/-- Options that end parsing at once: every command explains itself, and the program,
which is no command, also tells its version. -/
def stopOf (topic : Topic) (arg : String) : Stop :=
  if arg == "--help" then .help topic true
  else if arg.startsWith "-h" then .help topic false
  else if topic = .program && (arg == "--version" || arg.startsWith "-V") then .version
  else .unknownArgument arg

/-- Split the options off a list of arguments, those of the program or of a command. -/
def splitOptions (s : Surroundings m) (specs : List OptionSpec) (topic : Topic)
    (given : Given) : List String → ExceptT Stop m Split
  | [] => pure ⟨given, [], none⟩
  | arg :: rest =>
    match tokenOf arg with
    | .separator => pure ⟨given, [], some rest⟩
    | .word => pure ⟨given, arg :: rest, none⟩
    | token =>
      match specOf? specs token with
      | none => throw (stopOf topic arg)
      | some (spec, attached) =>
        if spec.value.isNone then do
          if attached.isSome then throw (.unneededValue spec.name)
          splitOptions s specs topic (← give s spec "" given) rest
        else
          match attached, rest with
          | some value, rest => do
            splitOptions s specs topic (← give s spec value given) rest
          | none, value :: rest => do
            let .word := tokenOf value | throw (.missingValue spec.name)
            splitOptions s specs topic (← give s spec value given) rest
          | none, [] => throw (.missingValue spec.name)

/-- The commands. -/
inductive Command where
  /-- Write a program for a target. -/
  | compile (output : String) (target : Target) (precision : Option Nat)
  /-- Print the circuit in linear form. -/
  | linearize (strict : Bool)
  /-- Print the variables by role. -/
  | classify
  /-- Write the dependency graph. -/
  | graph (output : String)
  /-- Simulate the circuit. -/
  | run (args : List String)
deriving DecidableEq, Repr

/-- What a command line asks for. -/
structure Invocation where
  file : String
  strictNaming : Bool
  denyCyclic : Bool
  command : Command
deriving DecidableEq, Repr

/-- The file that is written, if it is not the standard output. -/
def Invocation.outputFile? (i : Invocation) : Option String :=
  match i.command with
  | .compile output _ _ | .graph output => if output == "-" then none else some output
  | _ => none

/-- The options of all commands. -/
def commonSpecs : List OptionSpec :=
  [{ name := "strict-naming"
     about := "Put every equation into `name = element(variables...)` form" },
   { name := "deny-cyclic"
     about := "Fail on feedback loops between auxiliary variables" }]

def fileSpec : OptionSpec where
  name := "file"
  short := some 'f'
  value := some "FILE"
  about := "Source file, or pass \"-\" to read from stdin"
  opening := some .input

def outputSpec : OptionSpec where
  name := "output"
  short := some 'o'
  value := some "OUTPUT"
  about := "Output file, or pass \"-\" to write to stdout"
  fallback := some "-"
  opening := some .output

def targetOf? : String → Option Target
  | "c" => some .c
  | "listing" => some .listing
  | _ => none

def targetSpec : OptionSpec where
  name := "target"
  short := some 't'
  value := some "TARGET"
  about := "Kind of program to emit"
  fallback := some "c"
  choices := [("c", "Standalone C99 program"), ("listing", "Pseudo-code listing")]
  accepts text := (targetOf? text).isSome

def precisionOf? (text : String) : Option Nat := unsigned? (1 <<< 64) text.toList

def precisionSpec : OptionSpec where
  name := "precision"
  value := some "PRECISION"
  about := "Significant digits printed by the generated program"
  accepts text := (precisionOf? text).isSome

def strictSpec : OptionSpec where
  name := "strict"
  about := "Name every intermediate, including the outermost element"

/-- A command with its options besides those of all commands. -/
structure CommandSpec where
  name : String
  about : String
  /-- What its full help adds. -/
  details : Option String := none
  options : List OptionSpec
  /-- What it takes behind the separator, and what for. -/
  trailing : Option (String × String) := none

def commandSpecs : List CommandSpec :=
  [{ name := "compile"
     about := "Compile a circuit into a simulation program"
     options := [fileSpec, outputSpec, targetSpec, precisionSpec] },
   { name := "linearize"
     about := "Print the circuit with one computing element per equation"
     options := [fileSpec, strictSpec] },
   { name := "classify"
     about := "Print the variables by role, in evaluation order"
     options := [fileSpec] },
   { name := "graph"
     about := "Print the dependency graph in Graphviz dot format"
     options := [fileSpec, outputSpec] },
   { name := "run"
     about := "Simulate the circuit in process"
     details := some <|
       "Takes the arguments of generated programs after `--`, for example " ++
         "`ddac run -f circuit.dda -- --max_iterations=1000 --rk_order=4 y`."
     options := [fileSpec]
     trailing := some ("ARGS", "Simulation arguments and variables to print") }]

def commandSpec? (name : String) : Option CommandSpec :=
  commandSpecs.find? fun c => c.name == name

/-- The command of a name with its options.  Only a run takes further arguments. -/
def commandOf (name : String) (given : Given) (trailing : List String) : Except Stop Command :=
  let output := (given.lookup "output").getD "-"
  match name, trailing with
  | "run", args => .ok (.run args)
  | _, arg :: _ => .error (.unknownArgument arg)
  | "compile", [] =>
    let target := ((given.lookup "target").bind targetOf?).getD .c
    .ok (.compile output target ((given.lookup "precision").bind precisionOf?))
  | "linearize", [] => .ok (.linearize (given.lookup "strict").isSome)
  | "classify", [] => .ok .classify
  | "graph", [] => .ok (.graph output)
  | name, [] => .error (.unknownCommand name)

/-- What the names of commands behind `help` ask for. -/
def helpOf : List String → Stop
  | [] => .help .program true
  | name :: names =>
    let topic? : Option Topic :=
      if name == "help" then some .help else (commandSpec? name).map fun c => .command c.name
    match topic?, names with
    | none, _ => .unknownCommand name
    | some _, other :: _ => .unknownCommand other
    | some topic, [] => .help topic true

/-- Parse what follows the name of a command. -/
def parseCommand (s : Surroundings m) (before : Given) (name : String) (args : List String) :
    ExceptT Stop m Invocation := do
  match commandSpec? name with
  | none => throw (if name == "help" then helpOf args else .unknownCommand name)
  | some spec =>
    let split ← splitOptions s (commonSpecs ++ spec.options) (.command name) [] args
    match split.rest with
    | arg :: _ => throw (.unknownArgument arg)
    | [] =>
      let flag (name : String) := (before.lookup name).isSome || (split.given.lookup name).isSome
      match split.given.lookup "file" with
      | none => throw (.missingOption "file")
      | some file =>
        let command ← ExceptT.mk (pure (commandOf name split.given (split.trailing.getD [])))
        pure {
          file
          strictNaming := flag "strict-naming"
          denyCyclic := flag "deny-cyclic"
          command }

/-- Parse a command line. -/
def parse (s : Surroundings m) (args : List String) : ExceptT Stop m Invocation := do
  let split ← splitOptions s commonSpecs .program [] args
  match split.trailing, split.rest with
  | some (arg :: _), _ => throw (.unknownArgument arg)
  | _, [] => throw .missingCommand
  | _, name :: rest => parseCommand s split.given name rest

end CommandLine

end DiffAnalyzer
