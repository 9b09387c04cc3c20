import DiffAnalyzer.Number.Text
import DiffAnalyzer.Scheme
import DiffAnalyzer.SortedMap

/-!
# Options of a run

A run is set up by arguments `--key=value`, where a bare `--key` stands for `--key=1`.
`--ic:NAME=V`, `--dt:NAME=V` and `--const:NAME=V` override an initial value, a step size
and a constant; an argument that does not start with `--` names a variable to write.
-/

namespace DiffAnalyzer

structure RunOptions where
  /-- Number of time steps. -/
  maxIterations : Nat := 100
  /-- Only one in this many steps is written. -/
  stride : Nat := 1
  /-- Order of the scheme. -/
  order : Nat := 1
  /-- Write a row before the first step. -/
  initialRow : Bool := false
  /-- Evaluate the auxiliaries for the current state before a row is written. -/
  freshAuxiliaries : Bool := true
  /-- Write raw doubles instead of text. -/
  binary : Bool := false
  /-- List the variables instead of running. -/
  listVariables : Bool := false
  /-- Variables to write; all if empty. -/
  query : List String := []
  initial : SortedMap String Number := ∅
  steps : SortedMap String Number := ∅
  constants : SortedMap String Number := ∅
deriving DecidableEq

/-- Why an argument is refused. -/
inductive ArgumentError where
  | illegal (arg : String)
  | notNumber (arg value : String)
  | notBoolean (arg value : String)
deriving DecidableEq, Repr

def ArgumentError.message : ArgumentError → String
  | .illegal arg => s!"illegal argument `{arg}`"
  | .notNumber arg value => s!"not a number in `{arg}`: {value}"
  | .notBoolean arg value => s!"not a boolean in `{arg}`: {value}"

/-- The parts before and after the first occurrence of a character. -/
def splitFirst? (c : Char) (text : List Char) : Option (List Char × List Char) :=
  match text.dropWhile (· != c) with
  | [] => none
  | _ :: rest => some (text.takeWhile (· != c), rest)

/-- A natural number in decimal digits, an optional plus before them, below `bound`. -/
def unsigned? (bound : Nat) (text : List Char) : Option Nat :=
  let digits := match text with
    | '+' :: rest => rest
    | rest => rest
  let value := Nat.ofDigitChars 10 digits 0
  if !digits.isEmpty && digits.all Char.isDigit && value < bound then some value else none

/-- The spellings of a boolean. -/
def flag? (text : List Char) : Option Bool :=
  let text := String.ofList text
  if ["1", "true", "True"].contains text then some true
  else if ["0", "false", "False"].contains text then some false
  else none

namespace RunOptions

def scheme? (o : RunOptions) : Option Scheme := Scheme.ofOrder? o.order

private def value {α : Type} (arg : String) (text : List Char)
    (fault : String → String → ArgumentError) (result : Option α) : Except ArgumentError α :=
  match result with
  | some x => .ok x
  | none => .error (fault arg (String.ofList text))

/-- Override a value; the number is read before the kind of override is looked at. -/
def override (o : RunOptions) (arg : String) (kind name text : List Char) :
    Except ArgumentError RunOptions := do
  let x ← value arg text .notNumber (Number.ofText? text)
  let name := String.ofList name
  match String.ofList kind with
  | "ic" => pure { o with initial := o.initial.insert name x }
  | "dt" => pure { o with steps := o.steps.insert name x }
  | "const" => pure { o with constants := o.constants.insert name x }
  | _ => throw (.illegal arg)

/-- Set the option that a key names. -/
def set (o : RunOptions) (arg : String) (key text : List Char) :
    Except ArgumentError RunOptions := do
  let size (bits : Nat) := value arg text .notNumber (unsigned? (1 <<< bits) text)
  let flag := value arg text .notBoolean (flag? text)
  match String.ofList key with
  | "max_iterations" => pure { o with maxIterations := ← size 64 }
  | "modulo_write" => pure { o with stride := ← size 64 }
  | "rk_order" => pure { o with order := ← size 32 }
  | "write_initial_conditions" => pure { o with initialRow := ← flag }
  | "always_compute_aux_before_printing" => pure { o with freshAuxiliaries := ← flag }
  | "binary_output" => pure { o with binary := ← flag }
  | "list_all_variables" => pure { o with listVariables := ← flag }
  | _ => throw (.illegal arg)

/-- Take one argument into account. -/
def addArgument (o : RunOptions) (arg : String) : Except ArgumentError RunOptions :=
  match arg.toList with
  | '-' :: '-' :: body =>
    let (key, text) := (splitFirst? '=' body).getD (body, ['1'])
    match splitFirst? ':' key with
    | some (kind, name) => o.override arg kind name text
    | none => o.set arg key text
  | _ => .ok { o with query := o.query ++ [arg] }

/-- The options that a list of arguments sets; later arguments win. -/
def ofArguments (args : List String) : Except ArgumentError RunOptions :=
  args.foldlM addArgument {}

end RunOptions

end DiffAnalyzer
