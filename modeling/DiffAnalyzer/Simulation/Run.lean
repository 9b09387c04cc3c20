import DiffAnalyzer.Simulation.Simulator

/-!
# Runs

A run advances a simulator step by step and writes rows of values to a sink: a header
with the names and lines of text, or raw doubles.  The auxiliaries that are computed
for a row are put back afterwards, so that writing does not disturb what follows.
-/

namespace DiffAnalyzer

/-- Bytes written so far, and how many more are accepted if that is limited.  A sink has
each piece as soon as it is written: flushing it does nothing and does not fail, and sinks
that hold pieces back until they are flushed, and may lose them then, are not modelled. -/
structure Sink where
  /-- What was written, the last piece first. -/
  pieces : List (List UInt8)
  room : Option Nat

namespace Sink

def unlimited : Sink := ⟨[], none⟩

def limited (room : Nat) : Sink := ⟨[], some room⟩

def bytes (s : Sink) : List UInt8 := s.pieces.reverse.flatten

/-- Write a piece; a full sink takes what it has room for and fails. -/
def write (s : Sink) (piece : List UInt8) : Except RunError Unit × Sink :=
  match s.room with
  | none => (.ok (), { s with pieces := piece :: s.pieces })
  | some room =>
    if piece.length ≤ room then (.ok (), ⟨piece :: s.pieces, some (room - piece.length)⟩)
    else (.error (.output "full"), ⟨piece.take room :: s.pieces, some 0⟩)

end Sink

/-- How values are written in rows. -/
structure RowFormat (V : Type) where
  text : V → List Char
  bytes : V → List UInt8

/-- Positional text, or the eight bytes of a double from the lowest on. -/
def RowFormat.float : RowFormat Float where
  text x := (Number.ofFloat x).text
  bytes x := (List.range 8).map fun i => (x.toBits >>> (8 * i).toUInt64).toUInt8

/-- The UTF-8 bytes of a text. -/
def utf8Bytes (text : List Char) : List UInt8 := (String.ofList text).toUTF8.toList

/-- Texts with tabs between them and a line feed at the end. -/
def tabbedLine (texts : List (List Char)) : List Char :=
  List.intercalate ['\t'] texts ++ ['\n']

/-- A computation on a simulator and a sink that may fail half-way. -/
abbrev RunM (V : Type) := ExceptT RunError (StateM (Simulator V × Sink))

namespace RunM

variable {V : Type}

def simulate {α : Type} (x : SimulationM V α) : RunM V α := ExceptT.mk fun (s, sink) =>
  let (outcome, s) := x.run s
  (outcome, (s, sink))

def write (piece : List UInt8) : RunM V Unit := ExceptT.mk fun (s, sink) =>
  let (outcome, sink) := sink.write piece
  (outcome, (s, sink))

end RunM

namespace Simulator

variable {V : Type} (I : Interpretation V) (format : RowFormat V) (o : RunOptions)

/-- The values of a row.  The auxiliaries are as before once the values are read; a
failing evaluation leaves them as it left them. -/
def rowValues (slots : List Slot) : SimulationM V (List V) := do
  let before ← get
  if o.freshAuxiliaries then
    let _ ← evaluate I before.state
  let s ← get
  set { s with aux := before.aux }
  pure (slots.map fun slot => (s.read? slot).getD I.missing)

def rowBytes (values : List V) : List UInt8 :=
  if o.binary then values.flatMap format.bytes
  else utf8Bytes (tabbedLine (values.map format.text))

def writeRow (slots : List Slot) : RunM V Unit := do
  let values ← RunM.simulate (rowValues I o slots)
  RunM.write (rowBytes format o values)

/-- Take the remaining steps, from iteration number `done` on. -/
def runSteps (scheme : Scheme) (slots : List Slot) : (remaining done : Nat) → RunM V Unit
  | 0, _ => pure ()
  | remaining + 1, done => do
    RunM.simulate (step I scheme)
    if done % o.stride == 0 then writeRow I format o slots
    runSteps scheme slots remaining (done + 1)

/-- The names a run writes. -/
def queryNames (p : Program) (o : RunOptions) : List String :=
  if o.query.isEmpty then p.vars.map toString else o.query

/-- The slots of the names. -/
def querySlots (p : Program) (names : List String) : Except RunError (List Slot) :=
  names.mapM fun name =>
    match p.lookup? name with
    | some slot => .ok slot
    | none => .error (.unknownVariable name)

/-- What a run needs to know before it starts. -/
def plan (p : Program) (o : RunOptions) : Except RunError (Scheme × List Slot) := do
  match o.scheme? with
  | none => throw (.invalidOrder o.order)
  | some scheme =>
    if o.stride == 0 then throw .invalidStride
    pure (scheme, ← querySlots p (queryNames p o))

/-- Run the simulation.  The sink is flushed at the end, which succeeds for every sink that
is modelled. -/
def run : RunM V Unit := do
  let (s, _) ← get
  let (scheme, slots) ← liftExcept (plan s.program o)
  if !o.binary then
    RunM.write (utf8Bytes (tabbedLine ((queryNames s.program o).map String.toList)))
  if o.initialRow then
    modify fun (s, sink) => ({ s with aux := s.aux.map fun _ => I.missing }, sink)
    writeRow I format o slots
  runSteps I format o scheme slots o.maxIterations 0
where
  liftExcept {α : Type} (x : Except RunError α) : RunM V α := ExceptT.mk (pure x)

end Simulator

end DiffAnalyzer
