import DiffAnalyzer.Proofs.Stepping
import DiffAnalyzer.Simulation.Run
import Mathlib

/-!
# What a simulation leaves alone

An evaluation changes the auxiliaries of a simulator and nothing else
(`Simulator.keeps_evaluate`), whether it succeeds or not.  A row puts them back, so that
it changes nothing (`Simulator.rowValues_run`), and a step changes the state and the
number of iterations beside them (`Simulator.step_run`).  What does not depend on any of
these holds after a run if it holds before (`Simulator.keeps_run`).
-/

namespace DiffAnalyzer

variable {V : Type}

namespace Simulator

/-- The simulators differ in the values of their auxiliaries only. -/
structure SameButAux (sim sim' : Simulator V) : Prop where
  length : sim'.aux.length = sim.aux.length
  eq : { sim' with aux := sim.aux } = sim

namespace SameButAux

variable {sim sim' sim'' : Simulator V}

theorem refl (sim : Simulator V) : SameButAux sim sim := ⟨rfl, rfl⟩

theorem trans (h : SameButAux sim sim') (h' : SameButAux sim' sim'') : SameButAux sim sim'' := by
  refine ⟨h'.length.trans h.length, ?_⟩
  rw [← h.eq, ← h'.eq]

theorem program (h : SameButAux sim sim') : sim'.program = sim.program := by rw [← h.eq]

theorem constants (h : SameButAux sim sim') : sim'.constants = sim.constants := by rw [← h.eq]

theorem steps (h : SameButAux sim sim') : sim'.steps = sim.steps := by rw [← h.eq]

theorem state (h : SameButAux sim sim') : sim'.state = sim.state := by rw [← h.eq]

theorem iterations (h : SameButAux sim sim') : sim'.iterations = sim.iterations := by
  rw [← h.eq]

end SameButAux

variable {I : Interpretation V} {sim : Simulator V}

theorem length_assign (r : Registers V) (slot : Slot) (x : V) :
    (assign r slot x).aux.length = r.aux.length ∧
      (assign r slot x).derivative.length = r.derivative.length := by
  unfold assign
  cases slot.group <;> simp

/-- Statements keep the number of registers. -/
theorem length_runStatements (constants state : List V) (statements : List Statement)
    (r : Registers V) :
    (runStatements I constants state statements r).2.aux.length = r.aux.length ∧
      (runStatements I constants state statements r).2.derivative.length =
        r.derivative.length := by
  induction statements generalizing r with
  | nil => exact ⟨rfl, rfl⟩
  | cons st rest ih =>
    rw [runStatements]
    split
    · exact ⟨rfl, rfl⟩
    · rename_i x hx
      have hassign := length_assign r st.target x
      exact ⟨(ih _).1.trans hassign.1, (ih _).2.trans hassign.2⟩

theorem sameButAux_evaluate (sim : Simulator V) (state : List V) :
    SameButAux sim ((evaluate I state).run sim).2 := by
  have hlength := (length_runStatements (I := I) sim.constants state sim.program.statements
    ⟨sim.aux, List.replicate sim.program.layout.state.size I.zero⟩).1
  rw [evaluate_run]
  split
  · rename_i r hr
    rw [hr] at hlength
    exact ⟨hlength, rfl⟩
  · rename_i e r hr
    rw [hr] at hlength
    exact ⟨hlength, rfl⟩

theorem keeps_evaluate (state : List V) : Keeps (SameButAux sim) (evaluate I state) :=
  fun sim' h => h.trans (sameButAux_evaluate sim' state)

theorem keeps_slopesM (y steps : List V) (rows : List (List Coefficient))
    (slopes : List (List V)) :
    Keeps (SameButAux sim) (Tableau.slopesM I.toArithmetic y steps (evaluate I) rows slopes) := by
  induction rows generalizing slopes with
  | nil => exact .pure slopes
  | cons row rows ih => exact (keeps_evaluate _).bind fun _ => ih _

variable (I) in
/-- The slopes of a step from the current state. -/
def stageSlopes (scheme : Scheme) (sim : Simulator V) : SimulationM V (List (List V)) :=
  Tableau.slopesM I.toArithmetic sim.state sim.steps (evaluate I) scheme.tableau.stages []

/-- A step computes slopes and adds them to the state. -/
theorem step_run (sim : Simulator V) (scheme : Scheme) :
    (step I scheme).run sim = match (stageSlopes I scheme sim).run sim with
      | (.ok slopes, sim') => (.ok (), { sim' with
          state := Tableau.combine I.toArithmetic sim.state sim.steps scheme.tableau.update slopes
          iterations := sim'.iterations + 1 })
      | (.error e, sim') => (.error e, sim') := by
  have hget : (get : SimulationM V (Simulator V)).run sim = (.ok sim, sim) := rfl
  rw [step, run_bind hget, Tableau.stepM, bind_assoc, run_bind_eq, stageSlopes]
  generalize (Tableau.slopesM I.toArithmetic sim.state sim.steps (evaluate I)
    scheme.tableau.stages []).run sim = outcome
  obtain ⟨e | slopes, sim'⟩ := outcome
  · rfl
  · rfl

/-- The first stage of a scheme is the state itself. -/
theorem exists_stages_eq_cons (scheme : Scheme) :
    ∃ stages, scheme.tableau.stages = [] :: stages := by
  cases scheme <;> exact ⟨_, rfl⟩

/-- A step fails where the evaluation of the current state does. -/
theorem step_run_of_error {scheme : Scheme} {sim' : Simulator V} {error : RunError}
    (h : (evaluate I sim.state).run sim = (.error error, sim')) :
    (step I scheme).run sim = (.error error, sim') := by
  obtain ⟨stages, hstages⟩ := exists_stages_eq_cons scheme
  have hstate : Tableau.combine I.toArithmetic sim.state sim.steps [] [] = sim.state := rfl
  have hslopes : (stageSlopes I scheme sim).run sim = (.error error, sim') := by
    rw [stageSlopes, hstages, Tableau.slopesM, run_bind_eq, hstate, h]
  rw [step_run, hslopes]

/-- The values of a row are read after an evaluation that is taken back. -/
theorem rowValues_run (o : RunOptions) (slots : List Slot) (sim : Simulator V) :
    (rowValues I o slots).run sim =
      if o.freshAuxiliaries then
        match (evaluate I sim.state).run sim with
        | (.ok _, sim') => (.ok (slots.map fun slot => (sim'.read? slot).getD I.missing), sim)
        | (.error e, sim') => (.error e, sim')
      else (.ok (slots.map fun slot => (sim.read? slot).getD I.missing), sim) := by
  have hget : (get : SimulationM V (Simulator V)).run sim = (.ok sim, sim) := rfl
  rw [rowValues, run_bind hget]
  split
  · have hsame := sameButAux_evaluate (I := I) sim sim.state
    rw [run_bind_eq]
    generalize (evaluate I sim.state).run sim = outcome at hsame ⊢
    obtain ⟨e | _, sim'⟩ := outcome
    · rfl
    · exact congrArg (Prod.mk _) hsame.eq
  · rfl

section Parts

variable (I) (format : RowFormat V) (o : RunOptions)

/-- Write the names of the variables, unless the output is binary. -/
def writeHeader (p : Program) : RunM V Unit :=
  if o.binary then pure ()
  else RunM.write (utf8Bytes (tabbedLine ((queryNames p o).map String.toList)))

/-- Write the initial row if it is wanted; its evaluation finds no old values. -/
def writeInitialRow (slots : List Slot) : RunM V Unit :=
  if o.initialRow then do
    modify fun (s, sink) => ({ s with aux := s.aux.map fun _ => I.missing }, sink)
    writeRow I format o slots
  else pure ()

/-- A run with a plan writes the header, the initial row and the rows of the steps. -/
theorem run_run (sim : Simulator V) (sink : Sink) :
    (run I format o).run (sim, sink) = match plan sim.program o with
      | .ok (scheme, slots) => (do
          writeHeader o sim.program
          writeInitialRow I format o slots
          runSteps I format o scheme slots o.maxIterations 0 : RunM V Unit).run (sim, sink)
      | .error e => (.error e, (sim, sink)) := by
  have hget : (get : RunM V (Simulator V × Sink)).run (sim, sink) =
      (.ok (sim, sink), (sim, sink)) := rfl
  rw [run, run_bind_eq, hget]
  dsimp only
  rw [run_bind_eq]
  cases plan sim.program o with
  | error e => rfl
  | ok found =>
    obtain ⟨scheme, slots⟩ := found
    unfold writeHeader writeInitialRow
    cases o.binary <;> cases o.initialRow <;> rfl

end Parts

section KeepsRun

variable {α : Type} {P : Simulator V → Prop}

theorem keeps_simulate {x : SimulationM V α} (hx : Keeps P x) :
    Keeps (fun s => P s.1) (RunM.simulate x) :=
  fun s hs => hx s.1 hs

variable (P)

theorem keeps_write (piece : List UInt8) : Keeps (fun s => P s.1) (RunM.write piece) :=
  fun _ hs => hs

theorem keeps_writeHeader (o : RunOptions) (p : Program) :
    Keeps (fun s => P s.1) (writeHeader o p) := by
  unfold writeHeader
  split
  · exact .pure ()
  · exact keeps_write P _

/-! What does not depend on the auxiliaries survives a row, and a run if it does not depend on
state and iterations either. -/

variable {P} (format : RowFormat V) (o : RunOptions) (slots : List Slot)
  (hsame : ∀ {sim sim' : Simulator V}, SameButAux sim sim' → P sim → P sim')
include hsame

theorem keeps_rowValues : Keeps P (rowValues I o slots) := by
  intro sim hsim
  have hsim' := hsame (sameButAux_evaluate (I := I) sim sim.state) hsim
  rw [rowValues_run]
  split
  · generalize (evaluate I sim.state).run sim = outcome at hsim' ⊢
    obtain ⟨e | _, sim'⟩ := outcome
    · exact hsim'
    · exact hsim
  · exact hsim

theorem keeps_writeRow : Keeps (fun s => P s.1) (writeRow I format o slots) :=
  (keeps_simulate (keeps_rowValues o slots hsame)).bind fun _ => keeps_write P _

theorem keeps_writeInitialRow : Keeps (fun s => P s.1) (writeInitialRow I format o slots) := by
  unfold writeInitialRow
  split
  · refine Keeps.bind (.modify fun s hs => ?_) fun _ => keeps_writeRow format o slots hsame
    exact hsame ⟨List.length_map _, rfl⟩ hs
  · exact .pure ()

variable (hmove : ∀ {sim : Simulator V} (state : List V) (iterations : Nat),
  state.length = sim.state.length → P sim → P { sim with state, iterations })
include hmove

theorem keeps_step (scheme : Scheme) : Keeps P (step I scheme) := by
  intro sim hsim
  have hslopes : SameButAux sim ((stageSlopes I scheme sim).run sim).2 :=
    keeps_slopesM _ _ _ _ sim (.refl sim)
  rw [step_run]
  generalize (stageSlopes I scheme sim).run sim = outcome at hslopes ⊢
  have hsim' := hsame hslopes hsim
  obtain ⟨e | slopes, sim'⟩ := outcome
  · exact hsim'
  · refine hmove _ _ ?_ hsim'
    rw [Tableau.length_combine, hslopes.state]

theorem keeps_runSteps (scheme : Scheme) (remaining done : Nat) :
    Keeps (fun s => P s.1) (runSteps I format o scheme slots remaining done) := by
  induction remaining generalizing done with
  | zero => exact .pure ()
  | succ remaining ih =>
    refine (keeps_simulate (keeps_step hsame hmove scheme)).bind fun _ => ?_
    dsimp only
    split
    · exact (keeps_writeRow format o slots hsame).bind fun _ => ih _
    · exact ih _

theorem keeps_run : Keeps (fun s => P s.1) (run I format o) := by
  rintro ⟨sim, sink⟩ hsim
  rw [run_run]
  split
  · rename_i scheme slots _
    refine Keeps.bind (keeps_writeHeader P o sim.program) (fun _ => ?_) (sim, sink) hsim
    exact (keeps_writeInitialRow format o slots hsame).bind fun _ =>
      keeps_runSteps format o slots hsame hmove scheme o.maxIterations 0
  · exact hsim

end KeepsRun

end Simulator

end DiffAnalyzer
