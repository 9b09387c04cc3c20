import DiffAnalyzer.Proofs.LoopFree
import DiffAnalyzer.Proofs.Reachability
import Mathlib

/-!
# Matching programs

Names of two loop-free programs match when they are constants in use with one value,
apply one element to related arguments, or lead to related names (`Matches`).  When all
related names match (`Matching`), states that agree at related fields give related names
one value (`Matching.settled_eq`), and steps keep the states in agreement, so that
related names have one value after any number of steps (`Matching.exists_runs`).
-/

namespace DiffAnalyzer

open Simulator

variable {V : Type}

/-- Equal literals or related variables. -/
inductive Arg.Related (R : Atom → Atom → Prop) : Arg → Arg → Prop where
  | number (x : Number) : Related R (.number x) (.number x)
  | name {w w' : Atom} (h : R w w') : Related R (.node w []) (.node w' [])

/-- The name is the other one, or bound to it. -/
def EquationSet.Follows (l : EquationSet) (x y : Atom) : Prop :=
  x = y ∨ l.get? x = some (.var y)

theorem EquationSet.Follows.measure_le {l : EquationSet} {μ : Atom → Nat} {x y : Atom}
    (h : l.Follows x y) (hμ : ∀ u w, l.get? u = some (.var w) → μ w ≤ μ u) : μ y ≤ μ x := by
  rcases h with rfl | halias
  · exact Nat.le_refl _
  · exact hμ x y halias

theorem Program.IsLoopFree.settled_of_follows {l : EquationSet} {v : Vocabulary} {p : Program}
    {I : Interpretation V} {constants state : List V} {x y : Atom} (h : p.IsLoopFree v l)
    (hx : l.Follows x y) :
    l.settled I v constants state x = l.settled I v constants state y := by
  rcases hx with rfl | halias
  · rfl
  · exact h.settled_alias halias

/-- What names of two programs have in common, given which names are related. -/
inductive Matches (v : Vocabulary) (I : Interpretation V) (l l' : EquationSet)
    (constants constants' : List V) (R : Atom → Atom → Prop) (x x' : Atom) : Prop where
  | constant {i j : Nat} (hi : (l.groups v).layout.constants.indexOf? x = some i)
      (hj : (l'.groups v).layout.constants.indexOf? x' = some j)
      (h : constants.getD i I.missing = constants'.getD j I.missing) :
      Matches v I l l' constants constants' R x x'
  | application {head : Atom} {tail tail' : List Arg} (hx : l.get? x = some ⟨head, tail⟩)
      (hx' : l'.get? x' = some ⟨head, tail'⟩) (hne : tail ≠ [])
      (hhead : (v.resolve head).isConstant ≠ true)
      (hargs : List.Forall₂ (Arg.Related R) tail tail') :
      Matches v I l l' constants constants' R x x'
  | follow {y y' : Atom} (hx : l.Follows x y) (hx' : l'.Follows x' y')
      (hstrict : l.get? x = some (.var y) ∨ l'.get? x' = some (.var y')) (h : R y y') :
      Matches v I l l' constants constants' R x x'

/-- Two loop-free programs with constants in use, whose related names match. -/
structure Matching (v : Vocabulary) (I : Interpretation V) (l l' : EquationSet) (p p' : Program)
    (constants constants' : List V) (R : Atom → Atom → Prop) : Prop where
  left : p.IsLoopFree v l
  right : p'.IsLoopFree v l'
  matching : ∀ x x', R x x' → Matches v I l l' constants constants' R x x'

/-- Fields of the states whose names are related. -/
def RelatedFields (v : Vocabulary) (l l' : EquationSet) (R : Atom → Atom → Prop) (i j : Nat) :
    Prop :=
  ∃ x x', R x x' ∧ (l.groups v).layout.state.indexOf? x = some i ∧
    (l'.groups v).layout.state.indexOf? x' = some j

theorem map_eval_eq_of_related {R : Atom → Atom → Prop} {M : Meaning V} {σ σ' : Atom → V}
    {args args' : List Arg} (hargs : List.Forall₂ (Arg.Related R) args args')
    (h : ∀ w w', .node w [] ∈ args → .node w' [] ∈ args' → R w w' → σ w = σ' w') :
    args.map (Arg.eval M σ) = args'.map (Arg.eval M σ') := by
  induction hargs with
  | nil => rfl
  | @cons a a' args args' ha _ ih =>
    rw [List.map_cons, List.map_cons, ih fun w w' hw hw' =>
      h w w' (List.mem_cons_of_mem _ hw) (List.mem_cons_of_mem _ hw')]
    congr 1
    cases ha with
    | number x => rw [Arg.eval_number, Arg.eval_number]
    | name hR =>
      rw [Arg.eval_variable, Arg.eval_variable]
      exact h _ _ List.mem_cons_self List.mem_cons_self hR

namespace Matching

variable {v : Vocabulary} {I : Interpretation V} {l l' : EquationSet} {p p' : Program}
  {constants constants' state state' : List V} {R : Atom → Atom → Prop} {x x' : Atom} {i j : Nat}
  (h : Matching v I l l' p p' constants constants' R)
include h

/-- Related names that apply one element have one value, if their arguments do. -/
theorem settled_eq_of_application {head : Atom} {tail tail' : List Arg}
    (hstate : AgreeAt (RelatedFields v l l' R) state state') (hx : R x x')
    (hget : l.get? x = some ⟨head, tail⟩) (hget' : l'.get? x' = some ⟨head, tail'⟩)
    (hne : tail ≠ []) (hhead : (v.resolve head).isConstant ≠ true)
    (hargs : List.Forall₂ (Arg.Related R) tail tail')
    (hvalues : x ∈ l.auxNames v → x' ∈ l'.auxNames v → ∀ w w', .node w [] ∈ tail →
      .node w' [] ∈ tail' → R w w' →
      l.settled I v constants state w = l'.settled I v constants' state' w') :
    l.settled I v constants state x = l'.settled I v constants' state' x' := by
  have hne' : tail' ≠ [] := by
    rintro rfl
    exact hne (List.forall₂_nil_right_iff.mp hargs)
  by_cases hevolving : (v.resolve head).isEvolving = true
  · obtain ⟨i, hi⟩ := Record.exists_indexOf?_iff.mpr
      ((l.mem_state v).mpr (EquationSet.binds_of_application hget hne hevolving))
    obtain ⟨j, hj⟩ := Record.exists_indexOf?_iff.mpr
      ((l'.mem_state v).mpr (EquationSet.binds_of_application hget' hne' hevolving))
    rw [EquationSet.settled_evolved hi, EquationSet.settled_evolved hj,
      List.getD_eq_getElem?_getD, List.getD_eq_getElem?_getD, hstate i j ⟨x, x', hx, hi, hj⟩]
  · have haux := l.mem_auxNames_of_get? v hget hevolving hhead
    have haux' := l'.mem_auxNames_of_get? v hget' hevolving hhead
    rw [h.left.settled_auxiliary haux hget, h.right.settled_auxiliary haux' hget']
    refine (Arg.eval_application _ _ _ hne).trans ?_
    refine Eq.trans ?_ (Arg.eval_application _ _ _ hne').symm
    exact congrArg _ (map_eval_eq_of_related hargs (hvalues haux haux'))

/-- Related names have one value in states that agree. -/
theorem settled_eq (hstate : AgreeAt (RelatedFields v l l' R) state state') (hx : R x x') :
    l.settled I v constants state x = l'.settled I v constants' state' x' := by
  obtain ⟨μ, halias, hargument⟩ := h.left.exists_measure
  obtain ⟨μ', halias', hargument'⟩ := h.right.exists_measure
  -- an element is applied on both sides, and a name followed on one at least
  induction hm : μ x + μ' x' using Nat.strong_induction_on generalizing x x' with
  | _ m ih =>
    subst hm
    cases h.matching x x' hx with
    | constant hi hj hvalue =>
      rw [EquationSet.settled_constant hi, EquationSet.settled_constant hj, hvalue]
    | @application head tail tail' hget hget' hne hhead hargs =>
      refine h.settled_eq_of_application hstate hx hget hget' hne hhead hargs
        fun haux haux' w w' hw hw' hR => ih (μ w + μ' w') ?_ hR rfl
      have := hargument x head tail w haux hget hw
      have := hargument' x' head tail' w' haux' hget' hw'
      omega
    | @follow y y' hx hx' hstrict hR =>
      rw [h.left.settled_of_follows hx, h.right.settled_of_follows hx']
      refine ih (μ y + μ' y') ?_ hR rfl
      have := hx.measure_le fun u w hu => (halias u w hu).le
      have := hx'.measure_le fun u w hu => (halias' u w hu).le
      rcases hstrict with hstrict | hstrict
      · have := halias x y hstrict
        omega
      · have := halias' x' y' hstrict
        omega

/-- Related arguments have one value. -/
theorem eval_eq {a a' : Arg} (hstate : AgreeAt (RelatedFields v l l' R) state state')
    (ha : Arg.Related R a a') :
    a.eval (I.meaning v) (l.settled I v constants state) =
      a'.eval (I.meaning v) (l'.settled I v constants' state') := by
  cases ha with
  | number x => rw [Arg.eval_number, Arg.eval_number]
  | name hR =>
    rw [Arg.eval_variable, Arg.eval_variable]
    exact h.settled_eq hstate hR

/-- Related evolved variables are integrators of related arguments. -/
theorem exists_integrators (hij : RelatedFields v l l' R i j) : ∃ x x' head tail tail',
    (l.groups v).layout.state.indexOf? x = some i ∧
      (l'.groups v).layout.state.indexOf? x' = some j ∧
      l.get? x = some ⟨head, tail⟩ ∧ l'.get? x' = some ⟨head, tail'⟩ ∧
      List.Forall₂ (Arg.Related R) tail tail' := by
  obtain ⟨x, x', hx, hi, hj⟩ := hij
  have hbinds := (l.mem_state v).mp (Record.exists_indexOf?_iff.mp ⟨i, hi⟩)
  have hbinds' := (l'.mem_state v).mp (Record.exists_indexOf?_iff.mp ⟨j, hj⟩)
  cases h.matching x x' hx with
  | constant hk =>
    have hconstant := (l.mem_constantFields v).mp (Record.exists_indexOf?_iff.mp ⟨_, hk⟩)
    exact (l.not_binds_both v hconstant hbinds).elim
  | @application head tail tail' hget hget' hne hhead hargs =>
    exact ⟨x, x', head, tail, tail', hi, hj, hget, hget', hargs⟩
  | follow _ _ hstrict =>
    rcases hstrict with halias | halias
    · exact absurd hbinds ((l.mem_auxNames v).mp (l.mem_auxNames_of_get?_var v halias)).2.1
    · exact absurd hbinds' ((l'.mem_auxNames v).mp (l'.mem_auxNames_of_get?_var v halias)).2.1

/-- The derivatives agree where the states do. -/
theorem agreeAt_derivatives (hstate : AgreeAt (RelatedFields v l l' R) state state') :
    AgreeAt (RelatedFields v l l' R) (l.derivatives v I constants state)
      (l'.derivatives v I constants' state') := by
  intro i j hij
  obtain ⟨x, x', head, tail, tail', hi, hj, hget, hget', hargs⟩ := h.exists_integrators hij
  rw [EquationSet.getElem?_derivatives hi hget, EquationSet.getElem?_derivatives hj hget',
    Term.slope, Term.slope, Term.inputs, Term.inputs, hargs.length_eq]
  refine congrArg some (congrArg _ (map_eval_eq_of_related (List.forall₂_take _ hargs) ?_))
  exact fun w w' _ _ hR => h.settled_eq hstate hR

/-- Initial values and step sizes agree. -/
theorem agreeAt_parameters :
    AgreeAt (RelatedFields v l l' R) (p.initial.map (resolve I constants))
        (p'.initial.map (resolve I constants')) ∧
      AgreeAt (RelatedFields v l l' R) (p.steps.map (resolve I constants))
        (p'.steps.map (resolve I constants')) := by
  -- parameters do not depend on the state, so that any will do
  have hempty : AgreeAt (RelatedFields v l l' R) ([] : List V) [] := fun i j _ => rfl
  have hparameters : ∀ i j, RelatedFields v l l' R i j →
      (p.initial.map (resolve I constants))[i]? = (p'.initial.map (resolve I constants'))[j]? ∧
        (p.steps.map (resolve I constants))[i]? = (p'.steps.map (resolve I constants'))[j]? := by
    intro i j hij
    obtain ⟨x, x', head, tail, tail', hi, hj, hget, hget', hargs⟩ := h.exists_integrators hij
    obtain ⟨_, initial, step, inputs, hrhs, htail, hinitial, hstep⟩ :=
      h.left.exists_parameters I constants [] hi
    obtain ⟨_, initial', step', inputs', hrhs', htail', hinitial', hstep'⟩ :=
      h.right.exists_parameters I constants' [] hj
    cases hget.symm.trans hrhs
    cases hget'.symm.trans hrhs'
    rw [← List.forall₂_reverse_iff, htail, htail', List.forall₂_cons, List.forall₂_cons] at hargs
    rw [hinitial, hinitial', hstep, hstep', h.eval_eq hempty hargs.1, h.eval_eq hempty hargs.2.1]
    exact ⟨rfl, rfl⟩
  exact ⟨fun i j hij => (hparameters i j hij).1, fun i j hij => (hparameters i j hij).2⟩

/-- Steps keep the states in agreement. -/
theorem agreeAt_iterate (scheme : Scheme) {steps steps' : List V}
    (hsteps : AgreeAt (RelatedFields v l l' R) steps steps')
    (hstate : AgreeAt (RelatedFields v l l' R) state state') (m : Nat) :
    AgreeAt (RelatedFields v l l' R)
      ((fun y => scheme.tableau.step I.toArithmetic y steps (l.derivatives v I constants))^[m] state)
      ((fun y => scheme.tableau.step I.toArithmetic y steps'
        (l'.derivatives v I constants'))^[m] state') := by
  induction m generalizing state state' with
  | zero => exact hstate
  | succ m ih =>
    refine ih ?_
    exact Tableau.agreeAt_step I.toArithmetic scheme.tableau
      (fun _ _ hy => h.agreeAt_derivatives hy) hstate hsteps

end Matching

section Runs

variable {v : Vocabulary} {I : Interpretation V} {l l' : EquationSet} {p p' : Program}
  {R : Atom → Atom → Prop} {sim sim' : Simulator V}

/-- A simulator after some steps and an evaluation. -/
theorem Program.IsLoopFree.exists_settled (h : p.IsLoopFree v l) (hfits : Fits p sim)
    (hsupported : ∀ st ∈ p.statements, st.expr.IsSupported) (scheme : Scheme) (m : Nat)
    {state : List V}
    (hstate : state = (fun y => scheme.tableau.step I.toArithmetic y sim.steps
      (l.derivatives v I sim.constants))^[m] sim.state) :
    ∃ sim', (settleAfter I scheme m).run sim = (.ok (), sim') ∧
      ∀ x ∈ l.vars, sim'.value? (toString x) = some (l.settled I v sim.constants state x) := by
  obtain ⟨_, _, _, _, hp⟩ := h.assembled
  have hrun := hp.settleAfter_run h.flat h.acyclic hsupported hfits.program hfits.aux scheme m hstate
  refine ⟨_, hrun, fun x hx => h.value?_eq hfits.program hfits.constants ?_ rfl hx⟩
  change state.length = _
  rw [hstate, Tableau.length_iterate_step, hfits.state]

theorem parameters_of_resetParameters (hprogram : sim.program = p)
    (hreset : sim.resetParameters I = sim) :
    sim.state = p.initial.map (resolve I sim.constants) ∧
      sim.steps = p.steps.map (resolve I sim.constants) := by
  subst hprogram
  exact ⟨congrArg Simulator.state hreset.symm, congrArg Simulator.steps hreset.symm⟩

/-- Matching programs with their parameters in place: related names have one value after
any number of steps and an evaluation. -/
theorem Matching.exists_runs (h : Matching v I l l' p p' sim.constants sim'.constants R)
    (hfits : Fits p sim) (hfits' : Fits p' sim') (hreset : sim.resetParameters I = sim)
    (hreset' : sim'.resetParameters I = sim')
    (hsupported : ∀ st ∈ p.statements, st.expr.IsSupported)
    (hsupported' : ∀ st ∈ p'.statements, st.expr.IsSupported) (scheme : Scheme) (m : Nat) :
    ∃ sim₁ sim₁', (settleAfter I scheme m).run sim = (.ok (), sim₁) ∧
      (settleAfter I scheme m).run sim' = (.ok (), sim₁') ∧
      ∀ x x', R x x' → x ∈ l.vars → x' ∈ l'.vars → ∃ y,
        sim₁.value? (toString x) = some y ∧ sim₁'.value? (toString x') = some y := by
  obtain ⟨hstate, hsteps⟩ := parameters_of_resetParameters hfits.program hreset
  obtain ⟨hstate', hsteps'⟩ := parameters_of_resetParameters hfits'.program hreset'
  obtain ⟨hinitial, hstep⟩ := h.agreeAt_parameters
  rw [← hstate, ← hstate'] at hinitial
  rw [← hsteps, ← hsteps'] at hstep
  obtain ⟨sim₁, hrun, hvalue⟩ := h.left.exists_settled hfits hsupported scheme m rfl
  obtain ⟨sim₁', hrun', hvalue'⟩ := h.right.exists_settled hfits' hsupported' scheme m rfl
  refine ⟨sim₁, sim₁', hrun, hrun', fun x x' hR hx hx' => ⟨_, hvalue x hx, ?_⟩⟩
  rw [hvalue' x' hx', h.settled_eq (h.agreeAt_iterate scheme hstep hinitial m) hR]

end Runs

end DiffAnalyzer
