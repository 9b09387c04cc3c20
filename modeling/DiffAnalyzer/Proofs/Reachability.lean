import DiffAnalyzer.Proofs.Frames
import DiffAnalyzer.Proofs.NamedValues
import Mathlib

/-!
# Reachable simulators

An operand that is not there reads as `Interpretation.missing`, and an assignment to a
field that is not there is lost.  The checked step (`Simulator.step?`) has no outcome in
these cases and otherwise that of a step.  A simulator that is reached from an assembled
program has a value for each field, so that its steps pass every check
(`Program.isConsistent_and_reachable`).
-/

namespace DiffAnalyzer

namespace Simulator

variable {V : Type} (I : Interpretation V)

/-- The simulators that a program leads to: fresh ones, and what overrides, evaluations,
steps and runs leave behind, failed ones included. -/
inductive Reachable (p : Program) : Simulator V → Prop where
  | ofProgram : Reachable p (ofProgram I p)
  | withOverrides {sim : Simulator V} (o : RunOptions) (h : withOverrides I p o = .ok sim) :
      Reachable p sim
  | setConstant {sim sim' : Simulator V} (name : String) (x : V) (h : Reachable p sim)
      (hset : sim.setConstant name x = .ok sim') : Reachable p sim'
  | setInitial {sim sim' : Simulator V} (name : String) (x : V) (h : Reachable p sim)
      (hset : sim.setInitial name x = .ok sim') : Reachable p sim'
  | setStep {sim sim' : Simulator V} (name : String) (x : V) (h : Reachable p sim)
      (hset : sim.setStep name x = .ok sim') : Reachable p sim'
  | evaluate {sim : Simulator V} (state : List V) (h : Reachable p sim) :
      Reachable p ((evaluate I state).run sim).2
  | step {sim : Simulator V} (scheme : Scheme) (h : Reachable p sim) :
      Reachable p ((step I scheme).run sim).2
  | run {sim : Simulator V} (format : RowFormat V) (o : RunOptions) (sink : Sink)
      (h : Reachable p sim) : Reachable p ((run I format o).run (sim, sink)).2.1

section Checked

/-- The value of a parameter, if the constant it refers to has one. -/
def resolve? (constants : List V) : Parameter → Option V
  | .number x => some (I.literal x)
  | .constant index => constants[index]?

/-- What a statement reads from an operand, if there is such a value. -/
def readOperand? (constants state : List V) (r : Registers V) : Operand → Option V
  | .number x => some (I.literal x)
  | .slot ⟨group, index⟩ =>
    match group with
    | .state => state[index]?
    | .derivative => none
    | .aux => r.aux[index]?
    | .constant => constants[index]?

def evalExpr? (constants state : List V) (r : Registers V) :
    Expr → Option (Except CompileError V)
  | .copy operand => do pure (.ok (← readOperand? I constants state r operand))
  | .apply element args => do
    pure (I.applyElement element (← args.mapM (readOperand? I constants state r)))

/-- Assign to a field, if it is there. -/
def assign? (r : Registers V) (slot : Slot) (value : V) : Option (Registers V) :=
  match slot.group with
  | .aux =>
    if slot.index < r.aux.length then some { r with aux := r.aux.set slot.index value }
    else none
  | .derivative =>
    if slot.index < r.derivative.length then
      some { r with derivative := r.derivative.set slot.index value }
    else none
  | .state | .constant => none

def runStatements? (constants state : List V) :
    List Statement → Registers V → Option (Except CompileError Unit × Registers V)
  | [], r => some (.ok (), r)
  | s :: rest, r => do
    match ← evalExpr? I constants state r s.expr with
    | .error e => pure (.error e, r)
    | .ok value => runStatements? constants state rest (← assign? r s.target value)

/-- A computation on a simulator that has no outcome where a check fails. -/
abbrev CheckedM (V : Type) := ExceptT RunError (StateT (Simulator V) Option)

/-- Evaluate all statements, each read and each assignment checked. -/
def evaluate? (state : List V) : CheckedM V (List V) := ExceptT.mk fun s => do
  let start : Registers V := ⟨s.aux, List.replicate s.program.layout.state.size I.zero⟩
  let (outcome, r) ← runStatements? I s.constants state s.program.statements start
  let s := { s with aux := r.aux }
  match outcome with
  | .ok () => pure (.ok r.derivative, s)
  | .error e => pure (.error (.compile e), s)

/-- Advance the state by one step with checked evaluations. -/
def step? (scheme : Scheme) : CheckedM V Unit := do
  let s ← get
  let state ← scheme.tableau.stepM I.toArithmetic s.state s.steps (evaluate? I)
  modify fun s => { s with state, iterations := s.iterations + 1 }

end Checked

/-- A simulator of the program with a value for each field. -/
structure Fits (p : Program) (sim : Simulator V) : Prop where
  program : sim.program = p
  constants : sim.constants.length = p.layout.constants.size
  steps : sim.steps.length = p.layout.state.size
  state : sim.state.length = p.layout.state.size
  aux : sim.aux.length = p.layout.aux.size

section Fitting

variable {I} {p : Program} {sim sim' : Simulator V}

theorem program_of_withOverrides {o : RunOptions} (h : withOverrides I p o = .ok sim) :
    sim.program = p := by
  rw [withOverrides_eq] at h
  obtain ⟨_, -, h⟩ := bind_eq_ok_iff.mp h
  obtain ⟨_, -, h⟩ := bind_eq_ok_iff.mp h
  obtain ⟨_, -, h⟩ := bind_eq_ok_iff.mp h
  cases h
  rfl

/-- A simulator keeps its program. -/
theorem Reachable.program (h : Reachable I p sim) : sim.program = p := by
  have hsame : ∀ {sim sim' : Simulator V}, SameButAux sim sim' → sim.program = p →
      sim'.program = p := fun hsame => hsame.program.trans
  induction h with
  | ofProgram => rfl
  | withOverrides o h => exact program_of_withOverrides h
  | setConstant name x _ hset ih =>
    rw [setConstant_eq] at hset
    obtain ⟨_, -, rfl⟩ := map_eq_ok_iff.mp hset
    exact ih
  | setInitial name x _ hset ih =>
    rw [setInitial_eq] at hset
    obtain ⟨_, -, rfl⟩ := map_eq_ok_iff.mp hset
    exact ih
  | setStep name x _ hset ih =>
    rw [setStep_eq] at hset
    obtain ⟨_, -, rfl⟩ := map_eq_ok_iff.mp hset
    exact ih
  | evaluate state _ ih => exact hsame (sameButAux_evaluate _ state) ih
  | step scheme _ ih => exact keeps_step hsame (fun _ _ _ => id) scheme _ ih
  | run format o sink _ ih => exact keeps_run format o hsame (fun _ _ _ => id) (_, sink) ih

theorem SameButAux.fits (h : SameButAux sim sim') (hfits : Fits p sim) : Fits p sim' where
  program := h.program.trans hfits.program
  constants := h.constants ▸ hfits.constants
  steps := h.steps ▸ hfits.steps
  state := h.state ▸ hfits.state
  aux := h.length.trans hfits.aux

theorem keeps_fits_evaluate (state : List V) : Keeps (Fits p) (evaluate I state) :=
  fun sim hfits => (sameButAux_evaluate sim state).fits hfits

theorem Fits.move (state : List V) (iterations : Nat) (hstate : state.length = sim.state.length)
    (hfits : Fits p sim) : Fits p { sim with state, iterations } :=
  { hfits with state := hstate.trans hfits.state }

theorem keeps_fits_step (scheme : Scheme) : Keeps (Fits p) (step I scheme) :=
  keeps_step SameButAux.fits Fits.move scheme

theorem keeps_fits_advance (scheme : Scheme) (m : Nat) : Keeps (Fits p) (advance I scheme m) := by
  induction m with
  | zero => exact .pure ()
  | succ m ih => exact (keeps_fits_step scheme).bind fun _ => ih

theorem keeps_fits_run (format : RowFormat V) (o : RunOptions) :
    Keeps (fun s => Fits p s.1) (run I format o) :=
  keeps_run format o SameButAux.fits Fits.move

theorem fits_setConstant {name : String} {x : V} (hfits : Fits p sim)
    (h : sim.setConstant name x = .ok sim') : Fits p sim' := by
  rw [setConstant_eq] at h
  obtain ⟨constants, hset, rfl⟩ := map_eq_ok_iff.mp h
  exact { hfits with constants := (length_setNamed hset).trans hfits.constants }

theorem fits_setInitial {name : String} {x : V} (hfits : Fits p sim)
    (h : sim.setInitial name x = .ok sim') : Fits p sim' := by
  rw [setInitial_eq] at h
  obtain ⟨state, hset, rfl⟩ := map_eq_ok_iff.mp h
  exact { hfits with state := (length_setNamed hset).trans hfits.state }

theorem fits_setStep {name : String} {x : V} (hfits : Fits p sim)
    (h : sim.setStep name x = .ok sim') : Fits p sim' := by
  rw [setStep_eq] at h
  obtain ⟨steps, hset, rfl⟩ := map_eq_ok_iff.mp h
  exact { hfits with steps := (length_setNamed hset).trans hfits.steps }

variable (hp : p.IsConsistent)
include hp

theorem fits_ofProgram : Fits p (ofProgram I p) where
  program := rfl
  constants := (List.length_map _).trans hp.length_constantValues
  steps := (List.length_map _).trans hp.length_steps
  state := (List.length_map _).trans hp.length_initial
  aux := List.length_replicate

theorem fits_withOverrides {o : RunOptions} (h : withOverrides I p o = .ok sim) : Fits p sim := by
  rw [withOverrides_eq] at h
  obtain ⟨constants, hconstants, h⟩ := bind_eq_ok_iff.mp h
  obtain ⟨state, hstate, h⟩ := bind_eq_ok_iff.mp h
  obtain ⟨steps, hsteps, h⟩ := bind_eq_ok_iff.mp h
  have hfits := fits_ofProgram (I := I) hp
  cases h
  exact { hfits with
    constants := (length_setEntries hconstants).trans hfits.constants
    state := by rw [length_setEntries hstate, List.length_map, hp.length_initial]
    steps := by rw [length_setEntries hsteps, List.length_map, hp.length_steps] }

/-- Reachable simulators have a value for each field. -/
theorem Reachable.fits (h : Reachable I p sim) : Fits p sim := by
  induction h with
  | ofProgram => exact fits_ofProgram hp
  | withOverrides o h => exact fits_withOverrides hp h
  | setConstant name x _ hset ih => exact fits_setConstant ih hset
  | setInitial name x _ hset ih => exact fits_setInitial ih hset
  | setStep name x _ hset ih => exact fits_setStep ih hset
  | evaluate state _ ih => exact keeps_fits_evaluate state _ ih
  | step scheme _ ih => exact keeps_fits_step scheme _ ih
  | run format o sink _ ih => exact keeps_fits_run format o (_, sink) ih

end Fitting

section Agreement

variable {α β : Type} {P : Simulator V → Prop}

/-- The checked computation has the outcome of the plain one. -/
def Agrees (P : Simulator V → Prop) (x? : CheckedM V α) (x : SimulationM V α) : Prop :=
  ∀ sim, P sim → x?.run sim = some (x.run sim)

namespace Agrees

theorem pure (a : α) : Agrees P (Pure.pure a) (Pure.pure a) := fun _ _ => rfl

theorem modify (f : Simulator V → Simulator V) :
    Agrees P (modify f : CheckedM V Unit) (modify f : SimulationM V Unit) := fun _ _ => rfl

theorem bind {x? : CheckedM V α} {x : SimulationM V α} {f? : α → CheckedM V β}
    {f : α → SimulationM V β} (hx : Agrees P x? x) (hkeeps : Keeps P x)
    (hf : ∀ a, Agrees P (f? a) (f a)) : Agrees P (x? >>= f?) (x >>= f) := by
  intro sim hsim
  have hsim' := hkeeps sim hsim
  have hrun : (x? >>= f?).run sim = (x?.run sim).bind fun
      | (.ok a, sim) => (f? a).run sim
      | (.error e, sim) => some (.error e, sim) := by
    change Option.bind _ _ = Option.bind _ _
    refine congrArg _ (funext fun ⟨outcome, sim⟩ => ?_)
    cases outcome <;> rfl
  rw [hrun, hx sim hsim, Option.bind_some, run_bind_eq]
  generalize x.run sim = outcome at hsim' ⊢
  obtain ⟨e | a, sim'⟩ := outcome
  · rfl
  · exact hf a sim' hsim'

end Agrees

variable {I} {p : Program} {l : Layout} {constants state : List V} {r : Registers V}

theorem getElem?_eq_some_getD {xs : List V} {i : Nat} (x : V) (h : i < xs.length) :
    xs[i]? = some (xs.getD i x) := by
  rw [List.getD_eq_getElem?_getD, List.getElem?_eq_getElem h, Option.getD_some]

theorem resolve?_eq {x : Parameter} (hconstants : constants.length = l.constants.size)
    (hx : x.IsDefined l) : resolve? I constants x = some (resolve I constants x) := by
  cases x with
  | number x => rfl
  | constant i => exact getElem?_eq_some_getD _ (hconstants ▸ hx)

section Lengths

variable (hconstants : constants.length = l.constants.size)
  (hstate : state.length = l.state.size) (haux : r.aux.length = l.aux.size)
include hconstants hstate haux

theorem readOperand?_eq {o : Operand} (ho : o.IsReadable l) :
    readOperand? I constants state r o = some (readOperand I constants state r o) := by
  cases o with
  | number x => rfl
  | slot slot =>
    obtain ⟨group, i⟩ := slot
    obtain ⟨hgroup, hi⟩ := ho
    cases group with
    | state => exact getElem?_eq_some_getD _ (hstate ▸ hi)
    | derivative => exact absurd rfl hgroup
    | aux => exact getElem?_eq_some_getD _ (haux ▸ hi)
    | constant => exact getElem?_eq_some_getD _ (hconstants ▸ hi)

theorem evalExpr?_eq {e : Expr} (he : ∀ o ∈ e.operands, o.IsReadable l) :
    evalExpr? I constants state r e = some (evalExpr I constants state r e) := by
  cases e with
  | copy o =>
    rw [evalExpr?, readOperand?_eq hconstants hstate haux (he o List.mem_cons_self)]
    rfl
  | apply element args =>
    have hargs : args.mapM (readOperand? I constants state r) =
        some (args.map (readOperand I constants state r)) := by
      induction args with
      | nil => rfl
      | cons o rest ih =>
        obtain ⟨ho, hrest⟩ := List.forall_mem_cons.mp he
        rw [List.mapM_cons, readOperand?_eq hconstants hstate haux ho, ih hrest]
        rfl
    rw [evalExpr?, hargs]
    rfl

end Lengths

theorem assign?_eq {slot : Slot} (x : V) (haux : r.aux.length = l.aux.size)
    (hderivative : r.derivative.length = l.state.size) (hslot : slot ∈ l.computed) :
    assign? r slot x = some (assign r slot x) := by
  rw [Layout.computed, List.mem_append, List.mem_map, List.mem_map] at hslot
  rcases hslot with ⟨i, hi, rfl⟩ | ⟨i, hi, rfl⟩
  · exact if_pos (haux ▸ List.mem_range.mp hi)
  · exact if_pos (hderivative ▸ List.mem_range.mp hi)

/-- Statements whose operands and targets are fields pass every check. -/
theorem runStatements?_eq {statements : List Statement}
    (hconstants : constants.length = l.constants.size) (hstate : state.length = l.state.size)
    (haux : r.aux.length = l.aux.size) (hderivative : r.derivative.length = l.state.size)
    (hoperands : ∀ st ∈ statements, ∀ o ∈ st.expr.operands, o.IsReadable l)
    (htargets : ∀ st ∈ statements, st.target ∈ l.computed) :
    runStatements? I constants state statements r =
      some (runStatements I constants state statements r) := by
  induction statements generalizing r with
  | nil => rfl
  | cons st rest ih =>
    obtain ⟨hoperand, hoperands⟩ := List.forall_mem_cons.mp hoperands
    obtain ⟨htarget, htargets⟩ := List.forall_mem_cons.mp htargets
    rw [runStatements?, runStatements, evalExpr?_eq hconstants hstate haux hoperand]
    cases evalExpr I constants state r st.expr with
    | error e => rfl
    | ok x =>
      have hlength := length_assign r st.target x
      have hrest := ih (hlength.1.trans haux) (hlength.2.trans hderivative) hoperands htargets
      change (assign? r st.target x >>= runStatements? I constants state rest) = _
      rw [assign?_eq x haux hderivative htarget]
      exact hrest

variable (hp : p.IsConsistent)
include hp

theorem agrees_evaluate? (hstate : state.length = p.layout.state.size) :
    Agrees (Fits p) (evaluate? I state) (evaluate I state) := by
  intro sim hfits
  have hprogram := hfits.program
  subst hprogram
  have hrun := runStatements?_eq (I := I)
    (r := ⟨sim.aux, List.replicate sim.program.layout.state.size I.zero⟩) hfits.constants hstate
    hfits.aux List.length_replicate hp.operands fun st hst =>
      hp.targets.mem_iff.mp (List.mem_map_of_mem hst)
  rw [evaluate_run]
  change (runStatements? I sim.constants state sim.program.statements _ >>= _) = _
  rw [hrun]
  generalize runStatements I sim.constants state sim.program.statements _ = outcome
  obtain ⟨e | _, r⟩ := outcome
  · rfl
  · rfl

theorem agrees_slopesM {y : List V} (hy : y.length = p.layout.state.size) (steps : List V)
    (rows : List (List Coefficient)) (slopes : List (List V)) :
    Agrees (Fits p) (Tableau.slopesM I.toArithmetic y steps (evaluate? I) rows slopes)
      (Tableau.slopesM I.toArithmetic y steps (evaluate I) rows slopes) := by
  induction rows generalizing slopes with
  | nil => exact .pure slopes
  | cons row rows ih =>
    have hstate := (Tableau.length_combine I.toArithmetic y steps row slopes).trans hy
    exact (agrees_evaluate? hp hstate).bind (keeps_fits_evaluate _) fun _ => ih _

/-- Steps from a state with a value for each field pass every check. -/
theorem agrees_step? (scheme : Scheme) :
    Agrees (Fits p) (step? I scheme) (step I scheme) := by
  intro sim hfits
  have hslopes := agrees_slopesM (I := I) hp hfits.state sim.steps scheme.tableau.stages []
  have hkeeps : Keeps (Fits p) (Tableau.slopesM I.toArithmetic sim.state sim.steps (evaluate I)
      scheme.tableau.stages []) := fun sim' hfits' =>
    (keeps_slopesM _ _ _ _ sim' (.refl sim')).fits hfits'
  have hstep : Agrees (Fits p)
      (scheme.tableau.stepM I.toArithmetic sim.state sim.steps (evaluate? I) >>= fun state =>
        modify fun s => { s with state, iterations := s.iterations + 1 })
      (scheme.tableau.stepM I.toArithmetic sim.state sim.steps (evaluate I) >>= fun state =>
        modify fun s => { s with state, iterations := s.iterations + 1 }) := by
    unfold Tableau.stepM
    rw [bind_assoc, bind_assoc]
    exact hslopes.bind hkeeps fun slopes => .modify _
  exact hstep sim hfits

end Agreement

end Simulator

open Simulator

/-- The program of classified equations has their variables and is consistent.  In the
simulators it leads to no parameter, no operand and no assignment refers to a field that
is not there. -/
theorem Program.isConsistent_and_reachable {s : EquationSet} {v : Vocabulary}
    {c : Classification} {p : Program} (hclassify : s.classify v = .ok c)
    (hassemble : Program.assemble v s c = .ok p) :
    p.HasVariables c ∧ p.IsConsistent ∧
      ∀ {V : Type} (I : Interpretation V) (sim : Simulator V), Reachable I p sim →
      sim.program = p ∧
      (∀ x ∈ p.initial ++ p.steps,
        resolve? I sim.constants x = some (resolve I sim.constants x)) ∧
      (∀ a ∈ p.vars, (sim.value? (toString a)).isSome) ∧
      ∀ scheme, (step? I scheme).run sim = some ((step I scheme).run sim) := by
  have hp := Program.isConsistent_of_assemble hclassify hassemble
  refine ⟨Program.hasVariables_of_assemble hclassify hassemble, hp, fun I sim hsim => ?_⟩
  have hfits := hsim.fits hp
  refine ⟨hfits.program, ?parameters, ?values, fun scheme => agrees_step? hp scheme sim hfits⟩
  case parameters => exact fun x hx => resolve?_eq hfits.constants (hp.parameters x hx)
  case values =>
    intro a ha
    obtain ⟨slot, hslot⟩ := Option.isSome_iff_exists.mp
      ((hp.lookup (toString a)).mpr (List.mem_map_of_mem ha))
    have hname := hp.name_lookup _ slot hslot
    rw [Option.map_eq_some_iff] at hname
    obtain ⟨_, hname, -⟩ := hname
    have hindex := Layout.index_lt_of_name? hname
    rw [value?, hfits.program, hslot, Option.bind_some, read?]
    cases hgroup : slot.group with
    | state => simpa [hgroup, Layout.record, hfits.state] using hindex
    | derivative => simpa [hgroup, Layout.record, hfits.state] using hindex
    | aux => simpa [hgroup, Layout.record, hfits.aux] using hindex
    | constant => simpa [hgroup, Layout.record, hfits.constants] using hindex

/-- The circuit `k = const(1)`, `a = mult(a, k)`, `y = int(a, k, k)`. -/
def scaledLoop : EquationSet :=
  let k : Atom := ⟨['k'], .refl true⟩
  let a : Atom := ⟨['a'], .refl true⟩
  let y : Atom := ⟨['y'], .refl true⟩
  .ofList [(k, ⟨Element.const.name, [.number ⟨0x3ff0000000000000⟩]⟩),
    (a, ⟨Element.mult.name, [.node a [], .node k []]⟩),
    (y, ⟨Element.int.name, [.node a [], .node k [], .node k []]⟩)]

theorem isConsistent_and_reachable_scaledLoop :
    ∃ c p, scaledLoop.classify .standard = .ok c ∧
      Program.assemble .standard scaledLoop c = .ok p ∧ p.HasVariables c ∧ p.IsConsistent ∧
      p.layout.state.fields.map toString = ["y"] ∧ p.layout.aux.fields.map toString = ["a"] ∧
      p.layout.constants.fields.map toString = ["k"] ∧ p.vars.map toString = ["a", "k", "y"] ∧
      p.statements.map Statement.target = [⟨.aux, 0⟩, ⟨.derivative, 0⟩] ∧
      p.statements.map (fun st => st.expr.operands) =
        [[.slot ⟨.aux, 0⟩, .slot ⟨.constant, 0⟩], [.slot ⟨.aux, 0⟩]] ∧
      p.initial ++ p.steps = [.constant 0, .constant 0] ∧
      let sim := ((step additiveIntegers .classic4).run (ofProgram additiveIntegers p)).2
      Reachable additiveIntegers p sim ∧
        (step? additiveIntegers .midpoint).run sim =
          some ((step additiveIntegers .midpoint).run sim) := by
  obtain ⟨c, hclassify⟩ : ∃ c, scaledLoop.classify .standard = .ok c := ⟨_, rfl⟩
  obtain ⟨p, hassemble, htargets, hoperands, hparameters⟩ : ∃ p,
      Program.assemble .standard scaledLoop c = .ok p ∧
      p.statements.map Statement.target = [⟨.aux, 0⟩, ⟨.derivative, 0⟩] ∧
      p.statements.map (fun st => st.expr.operands) =
        [[.slot ⟨.aux, 0⟩, .slot ⟨.constant, 0⟩], [.slot ⟨.aux, 0⟩]] ∧
      p.initial ++ p.steps = [.constant 0, .constant 0] := by
    cases hclassify
    exact ⟨_, rfl, rfl, rfl, rfl⟩
  obtain ⟨hvariables, hconsistent, hreachable⟩ :=
    Program.isConsistent_and_reachable hclassify hassemble
  have hstepped := Reachable.step .classic4 (Reachable.ofProgram (I := additiveIntegers) (p := p))
  refine ⟨c, p, hclassify, hassemble, hvariables, hconsistent, ?_, ?_, ?_, ?_, htargets, hoperands,
    hparameters, hstepped, (hreachable additiveIntegers _ hstepped).2.2.2 .midpoint⟩
  · cases hclassify
    rw [hvariables.state]
    rfl
  · cases hclassify
    rw [hvariables.aux]
    rfl
  · cases hclassify
    rw [hvariables.constants]
    rfl
  · cases hclassify
    rw [hvariables.vars]
    rfl

end DiffAnalyzer
