import DiffAnalyzer.Proofs.Reachability
import DiffAnalyzer.Proofs.Runs
import DiffAnalyzer.Proofs.StrictNaming
import Mathlib

/-!
# The initial row

The row before the first step is evaluated without values of the auxiliaries.  When no
auxiliary is on a feedback loop nothing reads the old values, and the initial row comes
in addition to what is written without it (`Simulator.initialRow_adds_row`).  On a loop
the missing values stay, and every row may differ (`Simulator.initialRow_disturbs`).
-/

namespace DiffAnalyzer

namespace Simulator

variable {V : Type} {I : Interpretation V} {format : RowFormat V} {o : RunOptions}
  {sim sim' : Simulator V} {scheme : Scheme} {slots : List Slot}

section Success

theorem isSupported_of_step (h : ((step I scheme).run sim).1 = .ok ()) : sim.IsSupported := by
  cases hrun : (evaluate I sim.state).run sim with
  | mk outcome sim' =>
    cases outcome with
    | ok slopes => exact isSupported_of_evaluate (congrArg Prod.fst hrun)
    | error e =>
      rw [step_run_of_error hrun] at h
      cases h

theorem writeInitialRow_program (format : RowFormat V) (o : RunOptions) (slots : List Slot)
    {p : Program} :
    Keeps (fun s => s.1.program = p) (writeInitialRow I format o slots) :=
  keeps_writeInitialRow format o slots (P := fun sim => sim.program = p) fun hsame =>
    hsame.program.trans

theorem isSupported_of_rowValues {values : List V} (hfresh : o.freshAuxiliaries = true)
    (h : ((rowValues I o slots).run sim).1 = .ok values) : sim.IsSupported := by
  rw [rowValues_run, if_pos hfresh] at h
  split at h
  · rename_i slopes sim' hevaluate
    exact isSupported_of_evaluate (congrArg Prod.fst hevaluate)
  · cases h

theorem isSupported_of_writeInitialRow {sink : Sink} (hinitial : o.initialRow = true)
    (hfresh : o.freshAuxiliaries = true)
    (h : ((writeInitialRow I format o slots).run (sim, sink)).1 = .ok ()) : sim.IsSupported := by
  rw [writeInitialRow, if_pos hinitial] at h
  obtain ⟨_, _, hblank, h⟩ := exists_of_run_bind_ok h
  cases hblank
  obtain ⟨values, _, hvalues, -⟩ := exists_of_run_bind_ok h
  have hrow : ((rowValues I o slots).run (blank I sim)).1 = .ok values := congrArg Prod.fst hvalues
  have hblank : (blank I sim).IsSupported := isSupported_of_rowValues hfresh hrow
  exact hblank

/-- A run that succeeds with an initial row has a plan, and supported elements if it
evaluates at all. -/
theorem exists_plan_of_run {sink : Sink} (hinitial : o.initialRow = true)
    (h : ((run I format o).run (sim, sink)).1 = .ok ()) :
    ∃ scheme slots, plan sim.program o = .ok (scheme, slots) ∧
      (o.freshAuxiliaries = true ∨ 0 < o.maxIterations → sim.IsSupported) := by
  rw [run_run] at h
  split at h
  case h_2 => cases h
  case h_1 scheme slots hplan =>
    obtain ⟨_, ⟨sim₁, sink₁⟩, hheader, h⟩ := exists_of_run_bind_ok h
    obtain ⟨_, ⟨sim₂, sink₂⟩, hrow, h⟩ := exists_of_run_bind_ok h
    have hsim₁ := keeps_writeHeader (fun s : Simulator V => s.program = sim.program) o sim.program
      (sim, sink) rfl
    rw [hheader] at hsim₁
    have hsim₂ := writeInitialRow_program (I := I) format o slots (sim₁, sink₁) hsim₁
    rw [hrow] at hsim₂
    refine ⟨scheme, slots, hplan, ?_⟩
    rintro (hfresh | hsteps)
    · have hsupported := isSupported_of_writeInitialRow hinitial hfresh (congrArg Prod.fst hrow)
      exact isSupported_of_program hsim₁.symm hsupported
    · obtain ⟨n, hn⟩ := Nat.exists_eq_succ_of_ne_zero hsteps.ne'
      rw [hn, runSteps] at h
      obtain ⟨_, _, hstep, -⟩ := exists_of_run_bind_ok h
      have hstep' : ((step I scheme).run sim₂).1 = .ok () := congrArg Prod.fst hstep
      exact isSupported_of_program hsim₂.symm (isSupported_of_step hstep')

end Success

section LoopFree

variable {l : EquationSet} {v : Vocabulary} {p : Program} (h : p.IsLoopFree v l)
  (hsupported : ∀ st ∈ p.statements, st.expr.IsSupported) (hfits : Fits p sim)
  (hsame : SameButAux sim sim')
include h hsupported hfits hsame

/-- An evaluation without loops does not depend on what the auxiliaries were. -/
theorem evaluate_congr (state : List V) :
    (evaluate I state).run sim' = (evaluate I state).run sim := by
  obtain ⟨_, _, _, _, hp⟩ := h.assembled
  have hfits' := hsame.fits hfits
  rw [hp.evaluate_eq h.flat h.acyclic hsupported hfits.program hfits.aux,
    hp.evaluate_eq h.flat h.acyclic hsupported hfits'.program hfits'.aux, hsame.constants]
  refine congrArg (Prod.mk _) ?_
  rw [← hsame.eq]

theorem step_congr (scheme : Scheme) : (step I scheme).run sim' = (step I scheme).run sim := by
  -- the first stage forgets the auxiliaries, and each scheme has one
  obtain ⟨stages, hstages⟩ := exists_stages_eq_cons scheme
  rw [step_run, step_run, stageSlopes, stageSlopes, hstages, Tableau.slopesM, Tableau.slopesM,
    run_bind_eq, run_bind_eq, hsame.state, hsame.steps, evaluate_congr h hsupported hfits hsame]

/-- From the first step on, runs do not depend on what the auxiliaries were. -/
theorem after_succ_congr (scheme : Scheme) (n : Nat) :
    after I scheme (n + 1) sim' = after I scheme (n + 1) sim := by
  rw [after, after, advance, run_bind_eq, run_bind_eq, step_congr h hsupported hfits hsame]

theorem rows_congr : rows I format o scheme slots sim' = rows I format o scheme slots sim := by
  refine List.map_congr_left fun j _ => ?_
  rw [after_succ_congr h hsupported hfits hsame]

end LoopFree

theorem sameButAux_blank (sim : Simulator V) : SameButAux sim (blank I sim) :=
  ⟨List.length_map _, rfl⟩

/-- Without loops between auxiliaries, a run from a fresh simulator that succeeds with an
initial row writes what it writes without, and that row behind the header. -/
theorem initialRow_adds_row {c : Circuit} {options : CompileOptions} {r : Compilation}
    (hcompile : c.compile options = .ok r) (hcyclic : r.classification.auxCyclic = [])
    (hsim : withOverrides I r.program o = .ok sim) (hinitial : o.initialRow = true) {sink : Sink}
    (hrun : ((run I format o).run (sim, sink)).1 = .ok ()) :
    ∃ scheme slots sim₁ sim₂, plan r.program o = .ok (scheme, slots) ∧
      Writes (run I format o) sim
        (header o r.program ++ row I format o slots (blank I sim) ::
          rows I format o scheme slots sim) sim₁ ∧
      Writes (run I format { o with initialRow := false }) sim
        (header o r.program ++ rows I format o scheme slots sim) sim₂ := by
  obtain ⟨n, -, h⟩ := Circuit.exists_isLoopFree hcompile hcyclic
  have hfits := fits_withOverrides h.isConsistent hsim
  obtain ⟨scheme, slots, hplan, hsupported⟩ := exists_plan_of_run hinitial hrun
  have hrows : rows I format o scheme slots (blank I sim) = rows I format o scheme slots sim := by
    by_cases hsteps : 0 < o.maxIterations
    · have hstatements : ∀ st ∈ r.program.statements, st.expr.IsSupported := by
        rw [← hfits.program]
        exact hsupported (.inr hsteps)
      exact rows_congr h hstatements hfits (sameButAux_blank sim)
    · simp [rows, Nat.eq_zero_of_not_pos hsteps]
  have hwith := writes_run I format hplan hsupported
  have hwithout := writes_run_of_initialRow_eq_false I format
    (o := { o with initialRow := false }) hplan hsupported rfl
  refine ⟨scheme, slots, after I scheme o.maxIterations (blank I sim),
    after I scheme o.maxIterations sim, hfits.program ▸ hplan, ?_, ?_⟩
  · rw [initialRows, start, if_pos hinitial, if_pos hinitial, hrows, hfits.program] at hwith
    exact hwith
  · rw [hfits.program] at hwithout
    exact hwithout

/-- Only whether a value is NaN, which every operation keeps. -/
def nanPropagation : Interpretation Bool where
  add x y := x || y
  mul x y := x || y
  weight _ := false
  literal x := x.isNaN
  apply _ args := args.any id

def nanFormat : RowFormat Bool where
  text x := if x then ['N', 'a', 'N'] else ['0']
  bytes x := [if x then 1 else 0]

theorem initialRow_adds_row_decay : ∃ r sim,
    (⟨decay, ∅⟩ : Circuit).compile {} = .ok r ∧ r.classification.auxCyclic = [] ∧
      let o : RunOptions := { maxIterations := 1, initialRow := true, binary := true, query := ["x"] }
      withOverrides nanPropagation r.program o = .ok sim ∧
        ((run nanPropagation nanFormat o).run (sim, .unlimited)).1 = .ok () ∧
        ∃ scheme slots sim₁ sim₂, plan r.program o = .ok (scheme, slots) ∧
          Writes (run nanPropagation nanFormat o) sim
            (header o r.program ++ row nanPropagation nanFormat o slots (blank nanPropagation sim) ::
              rows nanPropagation nanFormat o scheme slots sim) sim₁ ∧
          Writes (run nanPropagation nanFormat { o with initialRow := false }) sim
            (header o r.program ++ rows nanPropagation nanFormat o scheme slots sim) sim₂ := by
  obtain ⟨r, hcompile, hcyclic, hsupported, sim, hsim, hprogram, hplan⟩ : ∃ r,
      (⟨decay, ∅⟩ : Circuit).compile {} = .ok r ∧ r.classification.auxCyclic = [] ∧
      (∀ st ∈ r.program.statements, st.expr.IsSupported) ∧
      let o : RunOptions := { maxIterations := 1, initialRow := true, binary := true, query := ["x"] }
      ∃ sim, withOverrides nanPropagation r.program o = .ok sim ∧ sim.program = r.program ∧
        plan sim.program o = .ok (.euler, [⟨.state, 0⟩]) :=
    ⟨_, rfl, rfl, (runStatements_eq_ok_iff nanPropagation [] [] ⟨[], []⟩).mp rfl, _, rfl, rfl, rfl⟩
  rw [← hprogram] at hsupported
  have hwrites := writes_run nanPropagation nanFormat hplan fun _ => hsupported
  obtain ⟨sink, hsink⟩ := Sink.exists_writeAll_ok (s := .unlimited) rfl _
  have hok := congrArg Prod.fst (hwrites.ok .unlimited sink hsink)
  exact ⟨r, sim, hcompile, hcyclic, hsim, hok, initialRow_adds_row hcompile hcyclic hsim rfl hok⟩

/-- The circuit `a = mult(a, 2)`, `y = int(a, 0.1, 1)`. -/
def doubling : EquationSet :=
  let a : Atom := ⟨['a'], .refl true⟩
  let y : Atom := ⟨['y'], .refl true⟩
  .ofList [(a, ⟨Element.mult.name, [.node a [], .number ⟨0x4000000000000000⟩]⟩),
    (y, ⟨Element.int.name,
      [.node a [], .number ⟨0x3fb999999999999a⟩, .number ⟨0x3ff0000000000000⟩]⟩)]

/-- The bytes that a run from a fresh simulator writes, if it succeeds. -/
def written? (I : Interpretation V) (format : RowFormat V) (c : Circuit) (o : RunOptions) :
    Option (List UInt8) :=
  match c.simulator {} I o with
  | .error _ => none
  | .ok sim =>
    match (run I format o).run (sim, .unlimited) with
    | (.ok (), (_, sink)) => some sink.bytes
    | (.error _, _) => none

/-- The auxiliary of a loop keeps the missing value that an initial row starts from.  There
is no header in binary, so what is written without that row should end what is written
with it. -/
theorem initialRow_disturbs :
    let o : RunOptions := { maxIterations := 1, binary := true, query := ["a", "y"] }
    ∃ out out', written? nanPropagation nanFormat ⟨doubling, ∅⟩ o = some out ∧
      written? nanPropagation nanFormat ⟨doubling, ∅⟩ { o with initialRow := true } = some out' ∧
      ¬out <:+ out' :=
  ⟨[0, 0], [1, 0, 1, 1], by decide +kernel, by decide +kernel, by decide⟩

end Simulator

end DiffAnalyzer
