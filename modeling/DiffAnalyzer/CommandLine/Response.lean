import DiffAnalyzer.CommandLine.Help
import DiffAnalyzer.Simulation.Run

/-!
# Responses

What a command writes, and how it ends: with code 0, with code 1 and an error message
behind the warnings, or with code 2 if the command line itself is at fault or names a
file that cannot be opened.
-/

namespace DiffAnalyzer

namespace CommandLine

/-- What a command leaves behind. -/
structure Response where
  code : Nat
  stdout : List UInt8
  stderr : String
  /-- A file that was written, and what was written to it. -/
  file : Option (String × List UInt8)

def warningText (w : Warning) : String :=
  "\x1b[33mwarning\x1b[0m: " ++ w.message ++ "\n"

def warningsText (warnings : List Warning) : String := "".intercalate (warnings.map warningText)

namespace Response

/-- A command that fails after it wrote something. -/
def failure (warnings : List Warning) (stdout : List UInt8) (message : String) : Response :=
  ⟨1, stdout, warningsText warnings ++ "Error: " ++ message ++ "\n", none⟩

/-- A command that prints a text. -/
def success (warnings : List Warning) (text : String) : Response :=
  ⟨0, utf8Bytes text.toList, warningsText warnings, none⟩

/-- A command that writes a text to an output. -/
def written (warnings : List Warning) (output : Option String) (text : String) : Response :=
  match output with
  | none => success warnings text
  | some path => ⟨0, [], warningsText warnings, some (path, utf8Bytes text.toList)⟩

/-- A command that breaks off at an error it cannot show. -/
def aborted : Response := ⟨101, [], "the diagnostic exceeds its source\n", none⟩

def usage (message : String) : Response := ⟨2, [], "error: " ++ message ++ "\n", none⟩

end Response

/-- The response to a command line that asks for no command. -/
def Stop.response : Stop → Response
  | .help topic full => .success [] (helpText topic full)
  | .version => .success [] versionText
  | .unknownArgument arg => .usage s!"unexpected argument `{arg}` found"
  | .repeatedOption name => .usage s!"the argument `--{name}` cannot be used multiple times"
  | .missingValue name => .usage s!"a value is required for `--{name}` but none was supplied"
  | .unneededValue name => .usage s!"unexpected value for `--{name}` found; no more were expected"
  | .invalidValue name value => .usage s!"invalid value `{value}` for `--{name}`"
  | .closedFile name path => .usage s!"cannot open `{path}` for `--{name}`"
  | .missingOption name => .usage s!"the argument `--{name}` was not provided"
  | .missingCommand => .usage "a subcommand is required"
  | .unknownCommand name => .usage s!"unrecognized subcommand `{name}`"

/-- The lists of fields that a simulation can show. -/
def variableList (l : Layout) : String :=
  "".intercalate ([("state", l.state), ("aux", l.aux), ("constants", l.constants)].map fun e =>
    e.1 ++ ":\n" ++ "".intercalate (e.2.fields.map fun name => "  " ++ toString name ++ "\n"))

/-- Simulate a compiled circuit. -/
def simulate (c : Compilation) (o : RunOptions) : Response :=
  if o.listVariables then .success c.warnings (variableList c.program.layout)
  else
    match Simulator.withOverrides .float c.program o with
    | .error e => .failure c.warnings [] e.message
    | .ok simulator =>
      let (outcome, _, sink) := (Simulator.run .float .float o).run (simulator, .unlimited)
      match outcome with
      | .ok () => ⟨0, sink.bytes, warningsText c.warnings, none⟩
      | .error e => .failure c.warnings sink.bytes e.message

namespace Invocation

def options (i : Invocation) : CompileOptions where
  strictNaming := i.strictNaming
  denyCyclic := i.denyCyclic
  precision := match i.command with
    | .compile _ _ precision => precision
    | _ => none

/-- Read the circuit and go on with it. -/
def withCircuit (i : Invocation) (text : List Char) (next : Circuit → Response) : Response :=
  match Circuit.empty.addFile i.file text with
  | .ok circuit => next circuit
  | .error e =>
    match e.message? false with
    | some message => .failure [] [] message
    | none => .aborted

/-- Compile the circuit and go on with it. -/
def withCompilation (i : Invocation) (text : List Char) (next : Compilation → Response) :
    Response :=
  i.withCircuit text fun circuit =>
    match circuit.compile i.options with
    | .ok compilation => next compilation
    | .error e => .failure [] [] e.message

/-- Carry out a command on the text of its file. -/
def execute (i : Invocation) (text : List Char) : Response :=
  match i.command with
  | .compile _ target _ =>
    i.withCompilation text fun compilation =>
      match target.emit i.options compilation.program with
      | .ok written => .written compilation.warnings i.outputFile? written
      | .error fault => .failure compilation.warnings [] fault.message
  | .linearize strict =>
    i.withCircuit text fun circuit =>
      match circuit.equations.linearize (strict || i.strictNaming) with
      | .ok linearized => .success [] (toString linearized)
      | .error e => .failure [] [] e.message
  | .classify =>
    i.withCircuit text fun circuit =>
      match circuit.classify i.options with
      | .ok classification => .success classification.warnings classification.text
      | .error e => .failure [] [] e.message
  | .graph _ =>
    i.withCircuit text fun circuit => .written [] i.outputFile? circuit.equations.dot
  | .run args =>
    match RunOptions.ofArguments args with
    | .error e => .failure [] [] e.message
    | .ok o => i.withCompilation text fun compilation => simulate compilation o

end Invocation

/-- The response to a command line. -/
def respond {m : Type → Type} [Monad m] (s : Surroundings m) (args : List String) :
    m Response := do
  match ← (parse s args).run with
  | .error stop => pure stop.response
  | .ok invocation =>
    match ← s.read invocation.file with
    | none => pure (.failure [] [] "stream did not contain valid UTF-8")
    | some text => pure (invocation.execute text.toList)

end CommandLine

end DiffAnalyzer
