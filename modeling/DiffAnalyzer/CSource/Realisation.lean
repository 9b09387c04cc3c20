import DiffAnalyzer.CSource.Basic
import DiffAnalyzer.Identifier

/-!
# From programs to C

`Program.toC` names the fields of a program by C identifiers and turns its statements
into C expressions.  Elements without a counterpart in C are found before anything
else is looked at.
-/

namespace DiffAnalyzer

/-- Names that a generated program defines or includes. -/
def definedNames : List String := [
  "NULL", "EOF", "NAN", "INFINITY", "HUGE_VAL", "RAND_MAX", "EXIT_SUCCESS", "EXIT_FAILURE",
  "BUFSIZ", "FILENAME_MAX", "M_PI", "M_E", "stdin", "stdout", "stderr", "errno",
  "OUTPUT_PRECISION", "N_STATE", "N_AUX", "N_CONST", "N_VARIABLES"]

/-- The field of a record that has no other. -/
def placeholder : String := "_none"

/-- Identifiers that no field may have. -/
def unusableNames : List String := reservedWords ++ definedNames ++ [placeholder]

namespace CSource

/-- Significant digits unless asked for others. -/
def defaultPrecision : Nat := 6

/-- Why a program has no counterpart in C. -/
inductive Fault where
  | compile (error : CompileError)
  | noField (slot : Slot)
  | noInitialValue (field : Atom)
  | noStepSize (field : Atom)
deriving DecidableEq, Repr

def Fault.message : Fault → String
  | .compile error => error.message
  | .noField slot => s!"no field behind {slot}"
  | .noInitialValue field => s!"no initial value for `{field}`"
  | .noStepSize field => s!"no step size for `{field}`"

/-- There is a C function or operator for the element. -/
def isRealisable : Element → Bool
  | .funcgen | .unknown _ => false
  | _ => true

/-- The element of a statement that C has no counterpart for. -/
def obstacle? (s : Statement) : Option Element :=
  match s.expr with
  | .copy _ => none
  | .apply element _ => if isRealisable element then none else some element

/-- Identifiers for the names of a record. -/
def nameFields (r : Record) : StateT Renamer (Except CompileError) (List Field) :=
  r.fields.mapM fun variableName => do
    pure ⟨← Renamer.rename (toString variableName), variableName⟩

namespace Fields

def ofLayout (l : Layout) : Except CompileError Fields := do
  let names : StateT Renamer (Except CompileError) Fields := do
    pure ⟨← nameFields l.state, ← nameFields l.aux, ← nameFields l.constants⟩
  let (fields, _) ← names.run (.ofReserved unusableNames)
  pure fields

variable (f : Fields)

/-- The identifier of a slot. -/
def name (slot : Slot) : Except Fault Atom :=
  match (f.group slot.group)[slot.index]? with
  | some field => .ok field.name
  | none => .error (.noField slot)

def slotValue (slot : Slot) : Except Fault Value := Value.member slot.group <$> f.name slot

def operand : Operand → Except Fault Value
  | .number x => .ok (.number x)
  | .slot slot => f.slotValue slot

def parameter : Parameter → Except Fault Value
  | .number x => .ok (.number x)
  | .constant index => f.slotValue ⟨.constant, index⟩

/-- The expression of an element.  Integrators contribute their derivative, which like a
sum is negated. -/
def application (element : Element) (args : List Value) : Expr :=
  match element with
  | .int | .diff | .sum => .negatedSum args
  | .mult => .product args
  | .const => .sequence args
  | element => .call element args

def expr : DiffAnalyzer.Expr → Except Fault Expr
  | .copy x => Expr.value <$> f.operand x
  | .apply element args => do
    let args ← args.mapM f.operand
    if isRealisable element then pure (application element args)
    else throw (.compile (.unsupported element .c))

def assignment (s : Statement) : Except Fault Assignment := do
  let name ← f.name s.target
  let expr ← f.expr s.expr
  pure ⟨s.target.group, name, expr, s.description⟩

def block (b : DiffAnalyzer.Block) : Except Fault Block := do
  pure ⟨b.part, ← b.statements.mapM f.assignment⟩

/-- Initial value and step size of a state field with its index. -/
def parametersOf (p : Program) (entry : Field × Nat) : Except Fault (Parameter × Parameter) :=
  match p.initial[entry.2]?, p.steps[entry.2]? with
  | none, _ => .error (.noInitialValue entry.1.name)
  | some _, none => .error (.noStepSize entry.1.name)
  | some initial, some step => .ok (initial, step)

def parameterInit (p : Program) (entry : Field × Nat) : Except Fault ParameterInit := do
  let (initial, step) ← parametersOf p entry
  let initial ← f.parameter initial
  let step ← f.parameter step
  pure ⟨entry.1.name, initial, step⟩

/-- The constants with their values. -/
def constantInits (p : Program) : List (Atom × Number) :=
  (f.constants.map Field.name).zip p.constantValues

end Fields

end CSource

namespace Program

open CSource

/-- Every element has a counterpart in C; else the first one without is at fault. -/
def checkElements (p : Program) : Except Fault Unit :=
  match p.statements.findSome? obstacle? with
  | some element => .error (.compile (.unsupported element .c))
  | none => .ok ()

/-- The C program that does what a program does. -/
def toC (precision : Option Nat) (p : Program) : Except Fault CProgram := do
  p.checkElements
  let fields ← (Fields.ofLayout p.layout).mapError .compile
  let parameterInits ← fields.state.zipIdx.mapM (fields.parameterInit p)
  let blocks ← p.blocks.mapM fields.block
  pure {
    precision := precision.getD defaultPrecision
    fields
    vars := p.vars
    constantInits := fields.constantInits p
    parameterInits
    blocks }

end Program

end DiffAnalyzer
