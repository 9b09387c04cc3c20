import DiffAnalyzer.CSource.Output
import DiffAnalyzer.EquationSet.Linear
import DiffAnalyzer.Program.Assembly
import DiffAnalyzer.Program.Listing
import DiffAnalyzer.Simulation.Simulator
import DiffAnalyzer.Source.Parse

/-!
# Circuits

A circuit is collected from files, each variable defined in one of them, and then
analysed and compiled as a whole: its equations are brought into linear form,
classified, and assembled into a program for a simulator or a target language.
-/

namespace DiffAnalyzer

/-- Settings of a compilation. -/
structure CompileOptions where
  /-- Name the outermost application of every equation too. -/
  strictNaming : Bool := false
  /-- Refuse feedback loops between auxiliaries. -/
  denyCyclic : Bool := false
  /-- Significant digits that a generated program prints. -/
  precision : Option Nat := none
  vocabulary : Vocabulary := .standard

/-- Why a file cannot be added to a circuit. -/
inductive FileError where
  | source (filename : String) (fault : SourceFault)
  | redefined (name : Atom) (origin previous : String)
deriving DecidableEq, Repr

/-- The wording of an error, unless it is a diagnostic that cannot be shown. -/
def FileError.message? (color : Bool) : FileError → Option String
  | .source filename fault => (fault.diagnostic filename).render color
  | .redefined name origin previous =>
    some s!"`{name}` from {origin} is already defined in {previous}"

/-- Equations with the files they come from. -/
structure Circuit where
  equations : EquationSet
  origins : SortedMap Atom String

/-- What a compilation yields. -/
structure Compilation where
  linearized : EquationSet
  classification : Classification
  program : Program

def Compilation.warnings (c : Compilation) : List Warning := c.classification.warnings

/-- What a program can be written as. -/
inductive Target where
  | c
  | listing
deriving DecidableEq, Repr

/-- Write a program for a target. -/
def Target.write (t : Target) (o : CompileOptions) (p : Program) : CSource.OutputM Unit :=
  match t with
  | .c => p.writeC o.precision
  | .listing => CSource.OutputM.put p.listing

/-- The text of a program for a target. -/
def Target.emit (t : Target) (o : CompileOptions) (p : Program) : Except CSource.Fault String :=
  let (outcome, text) := (t.write o p).run ""
  outcome.map fun _ => text

namespace Circuit

def empty : Circuit := ⟨∅, ∅⟩

/-- Add an equation of a file. -/
def addEquation (origin : String) (c : Circuit) (e : Atom × Term) : Except FileError Circuit :=
  match c.origins.get? e.1 with
  | some previous => .error (.redefined e.1 origin previous)
  | none => .ok ⟨c.equations.insert e.1 e.2, c.origins.insert e.1 origin⟩

/-- Add the equations of a file, in the order of their names. -/
def addEquations (c : Circuit) (origin : String) (s : EquationSet) : Except FileError Circuit :=
  s.toList.foldlM (addEquation origin) c

/-- Read a file and add its equations. -/
def addFile (c : Circuit) (filename : String) (text : List Char) : Except FileError Circuit := do
  let equations ← (EquationSet.parse text).mapError (.source filename)
  c.addEquations filename equations

/-- The circuit of some files, given by name and text. -/
def ofFiles (files : List (String × List Char)) : Except FileError Circuit :=
  files.foldlM (fun c file => c.addFile file.1 file.2) empty

variable (c : Circuit) (o : CompileOptions)

/-- Classify the variables; those that nothing defines are accepted. -/
def classify : Except CompileError Classification := do
  let linearized ← c.equations.linearize o.strictNaming
  linearized.classify o.vocabulary

def compile : Except CompileError Compilation := do
  let linearized ← c.equations.linearize o.strictNaming
  let classification ← linearized.classify o.vocabulary
  if o.denyCyclic && !classification.auxCyclic.isEmpty then
    throw (.cyclicAuxiliary classification.auxCyclic)
  let program ← Program.assemble o.vocabulary linearized classification
  pure { linearized, classification, program }

/-- Compile and write for a target. -/
def emit (t : Target) : Except CSource.Fault String := do
  let compilation ← (c.compile o).mapError .compile
  t.emit o compilation.program

/-- Compile and prepare a simulation. -/
def simulator {V : Type} (I : Interpretation V) (run : RunOptions) :
    Except RunError (Simulator V) := do
  let compilation ← (c.compile o).mapError .compile
  Simulator.withOverrides I compilation.program run

end Circuit

end DiffAnalyzer
