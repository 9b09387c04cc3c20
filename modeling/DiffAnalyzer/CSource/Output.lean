import DiffAnalyzer.CSource.Text

/-!
# Writing C programs

`Program.writeC` writes a C program piece by piece, as `CProgram.text` has it, and turns each
parameter and each statement into C when it comes to it.  What has been written by
then stays written if that fails.
-/

namespace DiffAnalyzer

namespace CSource

/-- A computation that writes to a text that accepts everything, and may fail half-way. -/
abbrev OutputM := ExceptT Fault (StateM String)

namespace OutputM

/-- Write a piece. -/
def put (piece : String) : OutputM Unit := modify (· ++ piece)

/-- Write a line. -/
def putLine (line : String) : OutputM Unit := put (line ++ "\n")

/-- A result that what comes next cannot do without. -/
def require {α : Type} (x : Except Fault α) : OutputM α := ExceptT.mk (pure x)

end OutputM

open OutputM

namespace Fields

variable (f : Fields)

/-- Both parameters of a field are looked up before a line is written. -/
def writeParameters (p : Program) (entry : Field × Nat) : OutputM Unit := do
  let (initial, step) ← require (parametersOf p entry)
  putLine (initialLine entry.1.name (← require (f.parameter initial)))
  putLine (stepLine entry.1.name (← require (f.parameter step)))

def writeInit (p : Program) : OutputM Unit := do
  put (constantsText (f.constantInits p))
  put parametersHead
  f.state.zipIdx.forM (f.writeParameters p)
  put "\x7d\n"

def writeStatement (s : Statement) : OutputM Unit := do
  let a ← require (f.assignment s)
  putLine a.text

def writeBlock (b : DiffAnalyzer.Block) : OutputM Unit :=
  if b.statements.isEmpty then pure ()
  else do
    put (blockHead b.part)
    b.statements.forM f.writeStatement

def writeDerivative (p : Program) : OutputM Unit := do
  put derivativeHead
  p.blocks.forM f.writeBlock
  put "\x7d\n"

end Fields

end CSource

open CSource OutputM in
/-- Write the C program that does what a program does. -/
def Program.writeC (precision : Option Nat) (p : Program) : OutputM Unit := do
  require p.checkElements
  let fields ← require ((Fields.ofLayout p.layout).mapError .compile)
  put preludeText
  put (fields.recordsText (precision.getD defaultPrecision) p.vars)
  put fields.lookupsText
  fields.writeInit p
  put fields.vectorText
  fields.writeDerivative p
  put integratorText
  put fixedText

end DiffAnalyzer
