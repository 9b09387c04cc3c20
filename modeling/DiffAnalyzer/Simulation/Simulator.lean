import DiffAnalyzer.Program.Basic
import DiffAnalyzer.Simulation.Interpretation
import DiffAnalyzer.Simulation.RunOptions

/-!
# Simulators

A simulator holds the values of a program's fields between evaluations.  Statements
run one after another and each auxiliary keeps the value assigned last, so one that is
read before its statement runs still has the value of the evaluation before.
-/

namespace DiffAnalyzer

/-- What a name was expected to be. -/
inductive VariableKind where
  | constant
  | evolved
deriving DecidableEq, Repr

instance : ToString VariableKind where
  toString
    | .constant => "a constant"
    | .evolved => "an evolved variable"

/-- Why a simulation fails. -/
inductive RunError where
  | unknownVariable (name : String)
  | wrongKind (name : String) (expected : VariableKind)
  /-- The program names a field but has no value to start it from. -/
  | noValue (name : String)
  | invalidOrder (order : Nat)
  | invalidStride
  | compile (error : CompileError)
  | output (reason : String)
deriving DecidableEq, Repr

def RunError.message : RunError → String
  | .unknownVariable name => s!"`{name}` is not a variable of the program"
  | .wrongKind name expected => s!"`{name}` is not {expected}"
  | .noValue name => s!"`{name}` has no value"
  | .invalidOrder order => s!"invalid Runge-Kutta order {order}, expected 1 to 4"
  | .invalidStride => "modulo_write must be positive"
  | .compile error => error.message
  | .output reason => s!"cannot write output: {reason}"

/-- A program with the values of its fields. -/
structure Simulator (V : Type) where
  program : Program
  constants : List V
  steps : List V
  state : List V
  aux : List V
  /-- Steps taken so far. -/
  iterations : Nat

/-- A computation on a simulator that may fail; what it did before failing stays done. -/
abbrev SimulationM (V : Type) := ExceptT RunError (StateM (Simulator V))

/-- The fields that an evaluation writes. -/
structure Registers (V : Type) where
  aux : List V
  derivative : List V

namespace Simulator

variable {V : Type} (I : Interpretation V)

def resolve (constants : List V) : Parameter → V
  | .number x => I.literal x
  | .constant index => constants.getD index I.missing

/-- Set state and step sizes to what the program says for the constants in use. -/
def resetParameters (s : Simulator V) : Simulator V :=
  { s with
    state := s.program.initial.map (resolve I s.constants)
    steps := s.program.steps.map (resolve I s.constants) }

/-- Start from the initial values of a program. -/
def ofProgram (p : Program) : Simulator V :=
  resetParameters I {
    program := p
    constants := p.constantValues.map I.literal
    steps := []
    state := []
    aux := List.replicate p.layout.aux.size I.zero
    iterations := 0 }

/-- Replace the value that a field has. -/
def replaceValue (values : List V) (index : Nat) (name : String) (value : V) :
    Except RunError (List V) :=
  if index < values.length then .ok (values.set index value) else .error (.noValue name)

def constantIndex (s : Simulator V) (name : String) : Except RunError Nat :=
  match s.program.lookup? name with
  | some ⟨.constant, index⟩ => .ok index
  | some _ => .error (.wrongKind name .constant)
  | none => .error (.unknownVariable name)

def setConstant (s : Simulator V) (name : String) (value : V) :
    Except RunError (Simulator V) := do
  let constants ← replaceValue s.constants (← s.constantIndex name) name value
  pure { s with constants }

def evolvedIndex (s : Simulator V) (name : String) : Except RunError Nat :=
  match s.program.lookup? name with
  | some ⟨.state, index⟩ => .ok index
  | some _ => .error (.wrongKind name .evolved)
  | none => .error (.unknownVariable name)

def setInitial (s : Simulator V) (name : String) (value : V) :
    Except RunError (Simulator V) := do
  let state ← replaceValue s.state (← s.evolvedIndex name) name value
  pure { s with state }

def setStep (s : Simulator V) (name : String) (value : V) :
    Except RunError (Simulator V) := do
  let steps ← replaceValue s.steps (← s.evolvedIndex name) name value
  pure { s with steps }

/-- Start from a program with the overrides of a run.  Constants come first, so that
initial values and step sizes that refer to them follow. -/
def withOverrides (p : Program) (o : RunOptions) : Except RunError (Simulator V) := do
  let s ← o.constants.toList.foldlM (fun s e => s.setConstant e.1 (I.literal e.2)) (ofProgram I p)
  let s ← o.initial.toList.foldlM (fun s e => s.setInitial e.1 (I.literal e.2))
    (s.resetParameters I)
  o.steps.toList.foldlM (fun s e => s.setStep e.1 (I.literal e.2)) s

/-- The value in a slot. -/
def read? (s : Simulator V) (slot : Slot) : Option V :=
  match slot.group with
  | .state | .derivative => s.state[slot.index]?
  | .aux => s.aux[slot.index]?
  | .constant => s.constants[slot.index]?

/-- The value of a variable; an auxiliary has that of its last evaluation. -/
def value? (s : Simulator V) (name : String) : Option V :=
  (s.program.lookup? name).bind s.read?

/-- What a statement reads from an operand. -/
def readOperand (constants state : List V) (r : Registers V) : Operand → V
  | .number x => I.literal x
  | .slot ⟨group, index⟩ =>
    match group with
    | .state | .derivative => state.getD index I.missing
    | .aux => r.aux.getD index I.missing
    | .constant => constants.getD index I.missing

def evalExpr (constants state : List V) (r : Registers V) : Expr → Except CompileError V
  | .copy operand => .ok (readOperand I constants state r operand)
  | .apply element args => I.applyElement element (args.map (readOperand I constants state r))

/-- Assign to a field.  State and constants cannot be assigned. -/
def assign (r : Registers V) (slot : Slot) (value : V) : Registers V :=
  match slot.group with
  | .aux => { r with aux := r.aux.set slot.index value }
  | .derivative => { r with derivative := r.derivative.set slot.index value }
  | .state | .constant => r

/-- Run statements until one fails. -/
def runStatements (constants state : List V) :
    List Statement → Registers V → Except CompileError Unit × Registers V
  | [], r => (.ok (), r)
  | s :: rest, r =>
    match evalExpr I constants state r s.expr with
    | .error e => (.error e, r)
    | .ok value => runStatements constants state rest (assign r s.target value)

/-- Evaluate all statements for a state: the auxiliaries are updated and the derivative
is returned. -/
def evaluate (state : List V) : SimulationM V (List V) := ExceptT.mk fun s =>
  let start : Registers V := ⟨s.aux, List.replicate s.program.layout.state.size I.zero⟩
  let (outcome, r) := runStatements I s.constants state s.program.statements start
  let s := { s with aux := r.aux }
  match outcome with
  | .ok () => (.ok r.derivative, s)
  | .error e => (.error (.compile e), s)

/-- Advance the state by one step of a scheme. -/
def step (scheme : Scheme) : SimulationM V Unit := do
  let s ← get
  let state ← scheme.tableau.stepM I.toArithmetic s.state s.steps (evaluate I)
  modify fun s => { s with state, iterations := s.iterations + 1 }

end Simulator

end DiffAnalyzer
