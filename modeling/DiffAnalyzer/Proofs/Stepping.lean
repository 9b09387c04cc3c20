import DiffAnalyzer.Proofs.Evaluation
import Mathlib

/-!
# Steps of loop-free programs

A step computes each component from the same component of the state, the step sizes and
the slopes, and sees other components through the slopes only.  For a loop-free program
the slopes are a function of the state, so that a run of `n` steps iterates a function
(`Program.IsAssembled.settleAfter_run`).
-/

namespace DiffAnalyzer

variable {V : Type}

/-- The lists have equal entries at related places. -/
def AgreeAt (R : Nat → Nat → Prop) (xs ys : List V) : Prop := ∀ i j, R i j → xs[i]? = ys[j]?

namespace Tableau

variable (A : Arithmetic V)

theorem getElem?_addScaled (weight : V) (values steps slopes : List V) (i : Nat) :
    (addScaled A weight values steps slopes)[i]? =
      values[i]?.map fun value =>
        match steps[i]?, slopes[i]? with
        | some h, some slope => A.add value (A.mul (A.mul h weight) slope)
        | _, _ => value := by
  induction values generalizing steps slopes i with
  | nil => rfl
  | cons value values ih =>
    cases steps with
    | nil => cases i <;> simp [addScaled]
    | cons h steps =>
      cases slopes with
      | nil =>
        simp only [addScaled, List.getElem?_nil]
        cases (value :: values)[i]? <;> cases (h :: steps)[i]? <;> rfl
      | cons slope slopes =>
        cases i with
        | zero => rfl
        | succ i => exact ih steps slopes i

theorem length_addScaled (weight : V) (values steps slopes : List V) :
    (addScaled A weight values steps slopes).length = values.length := by
  induction values generalizing steps slopes with
  | nil => rfl
  | cons value values ih =>
    cases steps with
    | nil => rfl
    | cons h steps =>
      cases slopes with
      | nil => rfl
      | cons slope slopes => simp only [addScaled, List.length_cons, ih]

theorem length_combine (y steps : List V) (weights : List Coefficient) (slopes : List (List V)) :
    (combine A y steps weights slopes).length = y.length := by
  unfold combine
  induction weights.zip slopes generalizing y with
  | nil => rfl
  | cons e rest ih =>
    rw [List.foldl_cons, ih]
    split
    · rfl
    · exact length_addScaled A _ y steps e.2

variable {R : Nat → Nat → Prop} {y y' steps steps' : List V}

theorem agreeAt_addScaled {slopes slopes' : List V} (weight : V) (hy : AgreeAt R y y')
    (hsteps : AgreeAt R steps steps') (hslopes : AgreeAt R slopes slopes') :
    AgreeAt R (addScaled A weight y steps slopes) (addScaled A weight y' steps' slopes') := by
  intro i j hij
  rw [getElem?_addScaled, getElem?_addScaled, hy i j hij, hsteps i j hij, hslopes i j hij]

theorem agreeAt_combine {slopes slopes' : List (List V)} (weights : List Coefficient)
    (hy : AgreeAt R y y') (hsteps : AgreeAt R steps steps')
    (hslopes : List.Forall₂ (AgreeAt R) slopes slopes') :
    AgreeAt R (combine A y steps weights slopes) (combine A y' steps' weights slopes') := by
  unfold combine
  induction hslopes generalizing weights y y' with
  | nil => simpa using hy
  | @cons slope slope' slopes slopes' hslope _ ih =>
    cases weights with
    | nil => exact hy
    | cons weight weights =>
      rw [List.zip_cons_cons, List.zip_cons_cons, List.foldl_cons, List.foldl_cons]
      refine ih weights ?_
      dsimp only
      split
      · exact hy
      · exact agreeAt_addScaled A _ hy hsteps hslope

/-- The slopes of the stages for a function that yields slopes. -/
def slopes (y steps : List V) (f : List V → List V) (rows : List (List Coefficient))
    (slopes : List (List V)) : List (List V) :=
  Id.run (slopesM A y steps (fun y => pure (f y)) rows slopes)

/-- One step with a function that yields slopes. -/
def step (t : Tableau) (y steps : List V) (f : List V → List V) : List V :=
  combine A y steps t.update (slopes A y steps f t.stages [])

variable {f f' : List V → List V}

theorem forall₂_slopes {rows : List (List Coefficient)} {before before' : List (List V)}
    (hf : ∀ y y', AgreeAt R y y' → AgreeAt R (f y) (f' y'))
    (hy : AgreeAt R y y') (hsteps : AgreeAt R steps steps')
    (hbefore : List.Forall₂ (AgreeAt R) before before') :
    List.Forall₂ (AgreeAt R) (slopes A y steps f rows before)
      (slopes A y' steps' f' rows before') := by
  induction rows generalizing before before' with
  | nil => exact hbefore
  | cons row rows ih =>
    refine ih ?_
    refine List.rel_append hbefore (.cons (hf _ _ ?_) .nil)
    exact agreeAt_combine A row hy hsteps hbefore

/-- Steps keep agreement when the slopes do. -/
theorem agreeAt_step (t : Tableau) (hf : ∀ y y', AgreeAt R y y' → AgreeAt R (f y) (f' y'))
    (hy : AgreeAt R y y') (hsteps : AgreeAt R steps steps') :
    AgreeAt R (t.step A y steps f) (t.step A y' steps' f') :=
  agreeAt_combine A t.update hy hsteps (forall₂_slopes A hf hy hsteps .nil)

theorem length_iterate_step (t : Tableau) (y steps : List V) (f : List V → List V) (n : Nat) :
    ((fun y => t.step A y steps f)^[n] y).length = y.length := by
  induction n generalizing y with
  | zero => rfl
  | succ n ih =>
    rw [Function.iterate_succ_apply, ih]
    exact length_combine A y steps t.update _

end Tableau

namespace Simulator

variable {I : Interpretation V} {α β : Type} {sim sim' : Simulator V}

theorem run_bind {x : SimulationM V α} {f : α → SimulationM V β} {a : α}
    (h : x.run sim = (.ok a, sim')) : (x >>= f).run sim = (f a).run sim' := by
  rw [run_bind_eq, h]

variable (I) in
/-- Take some steps. -/
def advance (scheme : Scheme) : Nat → SimulationM V Unit
  | 0 => pure ()
  | n + 1 => do
    step I scheme
    advance scheme n

variable (I) in
/-- Evaluate at the current state. -/
def refresh : SimulationM V Unit := do
  let sim ← get
  let _ ← evaluate I sim.state

variable (I) in
/-- Take some steps and evaluate at the state reached. -/
def settleAfter (scheme : Scheme) (n : Nat) : SimulationM V Unit := do
  advance I scheme n
  refresh I

end Simulator

/-- The derivatives by constants and state. -/
def EquationSet.derivatives (s : EquationSet) (v : Vocabulary) (I : Interpretation V)
    (constants state : List V) : List V :=
  s.slopes (I.meaning v) (s.groups v).evolved (s.settled I v constants state)

namespace Program.IsAssembled

open Simulator

variable {I : Interpretation V} {s : EquationSet} {v : Vocabulary} {p : Program}
  {evolutions : List Assembly.Evolution} {sorted cyclic unneeded : List Statement}
  (h : p.IsAssembled v s (s.groups v) evolutions sorted cyclic unneeded)
  (hflat : ∀ name rhs, s.get? name = some rhs → rhs.isFlat = true)
  (hcyclic : (s.groups v).auxCyclic = [])
  (hsupported : ∀ st ∈ p.statements, st.expr.IsSupported)
include h hflat hcyclic hsupported

theorem exists_slopesM_run (sim : Simulator V) (hprogram : sim.program = p)
    (haux : sim.aux.length = p.layout.aux.size) (y steps : List V)
    (rows : List (List Coefficient)) (slopes : List (List V)) :
    ∃ aux, aux.length = p.layout.aux.size ∧
      (Tableau.slopesM I.toArithmetic y steps (evaluate I) rows slopes).run sim =
        (.ok (Tableau.slopes I.toArithmetic y steps (s.derivatives v I sim.constants) rows slopes),
          { sim with aux }) := by
  induction rows generalizing sim slopes with
  | nil => exact ⟨sim.aux, haux, rfl⟩
  | cons row rows ih =>
    set state := Tableau.combine I.toArithmetic y steps row slopes with hstate
    have hrun := h.evaluate_eq (I := I) hflat hcyclic hsupported hprogram haux state
    set aux₁ := p.layout.aux.fields.map (s.settled I v sim.constants state)
    obtain ⟨aux, haux', hrun'⟩ := ih { sim with aux := aux₁ } hprogram (List.length_map _)
      (slopes ++ [s.derivatives v I sim.constants state])
    refine ⟨aux, haux', ?_⟩
    rw [Tableau.slopesM, ← hstate, run_bind hrun]
    exact hrun'

/-- Steps differ from a function of the state in what they do to the auxiliaries. -/
theorem exists_step_run {sim : Simulator V} (hprogram : sim.program = p)
    (haux : sim.aux.length = p.layout.aux.size) (scheme : Scheme) :
    ∃ aux, aux.length = p.layout.aux.size ∧ (step I scheme).run sim = (.ok (), { sim with
      aux
      state := scheme.tableau.step I.toArithmetic sim.state sim.steps
        (s.derivatives v I sim.constants)
      iterations := sim.iterations + 1 }) := by
  obtain ⟨aux, haux', hrun⟩ := h.exists_slopesM_run (I := I) hflat hcyclic hsupported sim hprogram
    haux sim.state sim.steps scheme.tableau.stages []
  have hstep : (scheme.tableau.stepM I.toArithmetic sim.state sim.steps (evaluate I)).run sim =
      (.ok (scheme.tableau.step I.toArithmetic sim.state sim.steps
        (s.derivatives v I sim.constants)), { sim with aux }) := by
    rw [Tableau.stepM, run_bind hrun]
    rfl
  have hget : (get : SimulationM V (Simulator V)).run sim = (.ok sim, sim) := rfl
  refine ⟨aux, haux', ?_⟩
  rw [step, run_bind hget, run_bind hstep]
  rfl

/-- A run iterates one step. -/
theorem exists_advance_run (sim : Simulator V) (hprogram : sim.program = p)
    (haux : sim.aux.length = p.layout.aux.size) (scheme : Scheme) (n : Nat) :
    ∃ aux, aux.length = p.layout.aux.size ∧ (advance I scheme n).run sim = (.ok (), { sim with
      aux
      state := (fun y => scheme.tableau.step I.toArithmetic y sim.steps
        (s.derivatives v I sim.constants))^[n] sim.state
      iterations := sim.iterations + n }) := by
  induction n generalizing sim with
  | zero => exact ⟨sim.aux, haux, rfl⟩
  | succ n ih =>
    obtain ⟨aux₁, haux₁, hrun⟩ := h.exists_step_run (I := I) hflat hcyclic hsupported hprogram haux
      scheme
    obtain ⟨aux, haux', hrun'⟩ := ih { sim with
      aux := aux₁
      state := scheme.tableau.step I.toArithmetic sim.state sim.steps
        (s.derivatives v I sim.constants)
      iterations := sim.iterations + 1 } hprogram haux₁
    refine ⟨aux, haux', ?_⟩
    rw [advance, run_bind hrun, hrun', Nat.add_right_comm, Nat.add_assoc]
    rfl

/-- Some steps and an evaluation lead to a state and settle the auxiliaries there. -/
theorem settleAfter_run {sim : Simulator V} (hprogram : sim.program = p)
    (haux : sim.aux.length = p.layout.aux.size) (scheme : Scheme) (n : Nat) {state : List V}
    (hstate : state = (fun y => scheme.tableau.step I.toArithmetic y sim.steps
      (s.derivatives v I sim.constants))^[n] sim.state) :
    (settleAfter I scheme n).run sim = (.ok (), { sim with
      aux := p.layout.aux.fields.map (s.settled I v sim.constants state)
      state
      iterations := sim.iterations + n }) := by
  obtain ⟨aux, haux', hrun⟩ := h.exists_advance_run (I := I) hflat hcyclic hsupported sim hprogram
    haux scheme n
  rw [← hstate] at hrun
  let sim₁ : Simulator V := { sim with aux, state, iterations := sim.iterations + n }
  have hprogram₁ : sim₁.program = p := hprogram
  have heval := h.evaluate_eq (I := I) hflat hcyclic hsupported hprogram₁ haux' state
  have hget : (get : SimulationM V (Simulator V)).run sim₁ = (.ok sim₁, sim₁) := rfl
  rw [settleAfter, run_bind hrun, refresh, run_bind hget, run_bind heval]
  rfl

end Program.IsAssembled

end DiffAnalyzer
