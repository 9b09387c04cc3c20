import DiffAnalyzer.Proofs.Reachability
import DiffAnalyzer.Proofs.Runs
import Mathlib

/-!
# Refused statements

Noise, function generators and unknown elements are refused by a simulation
(`Element.Refused`).  Statements run up to the first one that applies such an element.
Which one that is does not depend on any value, so that all evaluations and all steps of a
program fail with the same error, or none does (`Simulator.fails_iff_stops`).

An evaluation that fails is not taken back: the statements before the refused one have run,
and what they assigned to auxiliaries stays (`Simulator.leaves_of_error`).
-/

namespace DiffAnalyzer

/-- A simulation cannot apply the element, for the reason given. -/
inductive Element.Refused : Element → CompileError → Prop
  | noise : Refused .noise (.unsupported .noise .simulator)
  | funcgen : Refused .funcgen (.unsupported .funcgen .simulator)
  | unknown (head : Atom) : Refused (.unknown head) (.unknownElement head (.var head))

theorem Element.refusal?_eq_some_iff {element : Element} {e : CompileError} :
    element.refusal? = some e ↔ element.Refused e := by
  constructor
  · intro h
    cases element <;> cases h <;> constructor
  · rintro (_ | _ | _) <;> rfl

/-- The expression applies a refused element. -/
inductive Expr.Refused : Expr → CompileError → Prop
  | apply {element : Element} {e : CompileError} (args : List Operand) (h : element.Refused e) :
    Refused (.apply element args) e

namespace Expr

variable {expr : Expr} {element : Element} {args : List Operand} {e : CompileError}

theorem refused_apply_iff : (apply element args).Refused e ↔ element.refusal? = some e := by
  rw [Element.refusal?_eq_some_iff]
  exact ⟨fun ⟨_, h⟩ => h, .apply args⟩

theorem not_isSupported_iff : ¬ expr.IsSupported ↔ ∃ e, expr.Refused e := by
  cases expr with
  | copy o => exact iff_of_false (not_not.mpr trivial) nofun
  | apply element args =>
    simp only [refused_apply_iff]
    exact Option.ne_none_iff_exists'

end Expr

/-- After the statements in `before`, none of which is refused, one follows that is. -/
def StopsAfter (before : List Statement) (e : CompileError) (statements : List Statement) : Prop :=
  ∃ st after, statements = before ++ st :: after ∧ (∀ st' ∈ before, st'.expr.IsSupported) ∧
    st.expr.Refused e

section Stopping

variable {before statements : List Statement} {st : Statement} {e : CompileError}

theorem StopsAfter.cons (hst : st.expr.IsSupported) (h : StopsAfter before e statements) :
    StopsAfter (st :: before) e (st :: statements) := by
  obtain ⟨st', after, rfl, hbefore, hrefused⟩ := h
  exact ⟨st', after, rfl, List.forall_mem_cons.mpr ⟨hst, hbefore⟩, hrefused⟩

/-- There is a first refused statement if there is one at all. -/
theorem exists_stopsAfter_iff :
    (∃ before e, StopsAfter before e statements) ↔ ∃ st ∈ statements, ∃ e, st.expr.Refused e := by
  constructor
  · rintro ⟨before, e, st, after, rfl, -, hrefused⟩
    exact ⟨st, by simp, e, hrefused⟩
  · rintro ⟨st, hst, hrefused⟩
    induction statements with
    | nil => cases hst
    | cons first rest ih =>
      by_cases hfirst : first.expr.IsSupported
      · rcases List.mem_cons.mp hst with rfl | hrest
        · exact absurd hfirst (Expr.not_isSupported_iff.mpr hrefused)
        · obtain ⟨before, e, hstops⟩ := ih hrest
          exact ⟨first :: before, e, hstops.cons hfirst⟩
      · obtain ⟨e, he⟩ := Expr.not_isSupported_iff.mp hfirst
        exact ⟨[], e, first, rest, rfl, List.forall_mem_nil _, he⟩

end Stopping

namespace Simulator

variable {V : Type} {I : Interpretation V} {constants state : List V} {r r' : Registers V}
  {sim sim' : Simulator V} {error : RunError} {e : CompileError}

theorem evalExpr_eq_error_iff {expr : Expr} :
    evalExpr I constants state r expr = .error e ↔ expr.Refused e := by
  cases expr with
  | copy o =>
    constructor
    · intro h
      cases h
    · intro h
      cases h
  | apply element args =>
    rw [Expr.refused_apply_iff, evalExpr, Interpretation.applyElement]
    cases element.refusal? with
    | none =>
      constructor
      · intro h
        cases h
      · intro h
        cases h
    | some e' => rw [Except.error.injEq, Option.some.injEq]

/-- The statements before the refused one have run. -/
theorem runStatements_eq_error_iff {statements : List Statement} :
    runStatements I constants state statements r = (.error e, r') ↔
      ∃ before, StopsAfter before e statements ∧
        runStatements I constants state before r = (.ok (), r') := by
  constructor
  · intro h
    induction statements generalizing r with
    | nil => cases h
    | cons st rest ih =>
      rw [runStatements] at h
      split at h
      · rename_i e' he
        cases h
        have hrefused := evalExpr_eq_error_iff.mp he
        exact ⟨[], ⟨st, rest, rfl, List.forall_mem_nil _, hrefused⟩, rfl⟩
      · rename_i x hx
        obtain ⟨before, hstops, hrun⟩ := ih h
        have hsupported := (exists_evalExpr_iff I constants state r).mp ⟨x, hx⟩
        refine ⟨st :: before, hstops.cons hsupported, ?_⟩
        rw [runStatements, hx]
        exact hrun
  · rintro ⟨before, ⟨st, after, rfl, -, hrefused⟩, hrun⟩
    rw [runStatements_append, hrun]
    dsimp only
    rw [runStatements, evalExpr_eq_error_iff.mpr hrefused]

variable (I) in
/-- The fields that an evaluation starts from. -/
def registers (sim : Simulator V) : Registers V :=
  ⟨sim.aux, List.replicate sim.program.layout.state.size I.zero⟩

/-- An evaluation fails with a refusal, and leaves the auxiliaries as they are where it stops. -/
theorem evaluate_eq_error_iff :
    (evaluate I state).run sim = (.error error, sim') ↔ ∃ before e r,
      StopsAfter before e sim.program.statements ∧ error = .compile e ∧
        runStatements I sim.constants state before (registers I sim) = (.ok (), r) ∧
          sim' = { sim with aux := r.aux } := by
  rw [evaluate_run]
  constructor
  · intro h
    split at h
    · cases h
    · rename_i e r hr
      cases h
      obtain ⟨before, hstops, hrun⟩ := runStatements_eq_error_iff.mp hr
      exact ⟨before, e, r, hstops, rfl, hrun, rfl⟩
  · rintro ⟨before, e, r, hstops, rfl, hrun, rfl⟩
    rw [registers] at hrun
    rw [runStatements_eq_error_iff.mpr ⟨before, hstops, hrun⟩]

/-- A step fails in its first stage, which is an evaluation of the current state. -/
theorem step_eq_error_iff {scheme : Scheme} :
    (step I scheme).run sim = (.error error, sim') ↔
      (evaluate I sim.state).run sim = (.error error, sim') := by
  refine ⟨fun h => ?_, step_run_of_error⟩
  cases hrun : (evaluate I sim.state).run sim with
  | mk outcome sim₁ =>
    cases outcome with
    | ok slope =>
      have hsupported : sim.IsSupported := isSupported_of_evaluate (congrArg Prod.fst hrun)
      obtain ⟨sim₂, hstep, -⟩ := exists_step_ok (I := I) hsupported scheme
      cases hstep.symm.trans h
    | error error' =>
      cases (step_run_of_error hrun).symm.trans h
      rfl

variable (I sim)

/-- Whether an evaluation fails, and how, is up to the program. -/
theorem evaluate_error_iff (state : List V) :
    ((evaluate I state).run sim).1 = .error error ↔
      ∃ before e, StopsAfter before e sim.program.statements ∧ error = .compile e := by
  constructor
  · intro h
    obtain ⟨before, e, r, hstops, herror, -, -⟩ := evaluate_eq_error_iff.mp (Prod.fst_eq_iff.mp h)
    exact ⟨before, e, hstops, herror⟩
  · rintro ⟨before, e, hstops, rfl⟩
    have ⟨_, _, _, hsupported, _⟩ := hstops
    have hrun := Prod.fst_eq_iff.mp ((runStatements_eq_ok_iff I sim.constants state
      (registers I sim)).mpr hsupported)
    exact congrArg Prod.fst (evaluate_eq_error_iff.mpr ⟨before, e, _, hstops, rfl, hrun, rfl⟩)

/-- A step fails like an evaluation, whatever the scheme. -/
theorem step_error_iff (scheme : Scheme) :
    ((step I scheme).run sim).1 = .error error ↔
      ∃ before e, StopsAfter before e sim.program.statements ∧ error = .compile e := by
  rw [← evaluate_error_iff I sim sim.state]
  constructor
  · exact fun h => congrArg Prod.fst (step_eq_error_iff.mp (Prod.fst_eq_iff.mp h))
  · exact fun h => congrArg Prod.fst (step_eq_error_iff.mpr (Prod.fst_eq_iff.mp h))

variable {I sim}

/-- Evaluations and steps fail if a statement is refused, with the error about the first that
is.  That does not depend on how the simulator was reached, so that either all steps fail with
one error or none does, and a step that fails changes nothing but auxiliaries. -/
theorem fails_iff_stops (I : Interpretation V) (p : Program) :
    (∀ sim, Reachable I p sim → sim.program = p) ∧
      (∀ sim : Simulator V, sim.program = p →
        (∀ state error, ((evaluate I state).run sim).1 = .error error ↔
          ∃ before e, StopsAfter before e p.statements ∧ error = .compile e) ∧
        (∀ scheme error, ((step I scheme).run sim).1 = .error error ↔
          ∃ before e, StopsAfter before e p.statements ∧ error = .compile e) ∧
        ∀ scheme error, ((step I scheme).run sim).1 = .error error →
          SameButAux sim ((step I scheme).run sim).2) ∧
      ((∃ before e, StopsAfter before e p.statements) ↔
        ∃ st ∈ p.statements, ∃ e, st.expr.Refused e) ∧
      ((∃ error, ∀ sim, Reachable I p sim → ∀ scheme,
          ((step I scheme).run sim).1 = .error error) ∨
        ∀ sim, Reachable I p sim → ∀ scheme, ((step I scheme).run sim).1 = .ok ()) := by
  refine ⟨fun sim h => h.program, fun sim hprogram => ⟨?evaluate, ?step, ?frame⟩,
    exists_stopsAfter_iff, ?uniform⟩
  case evaluate =>
    intro state error
    rw [evaluate_error_iff, hprogram]
  case step =>
    intro scheme error
    rw [step_error_iff, hprogram]
  case frame =>
    intro scheme error h
    have hevaluate := step_eq_error_iff.mp (Prod.fst_eq_iff.mp h)
    have hsame := sameButAux_evaluate (I := I) sim sim.state
    rwa [hevaluate] at hsame
  case uniform =>
    by_cases hstops : ∃ before e, StopsAfter before e p.statements
    · obtain ⟨before, e, hstops⟩ := hstops
      refine .inl ⟨.compile e, fun sim hsim scheme => (step_error_iff I sim scheme).mpr ?_⟩
      rw [hsim.program]
      exact ⟨before, e, hstops, rfl⟩
    · refine .inr fun sim hsim scheme => ?_
      have hsupported : sim.IsSupported := fun st hst => by
        by_contra hrefused
        rw [hsim.program] at hst
        exact hstops (exists_stopsAfter_iff.mpr ⟨st, hst, Expr.not_isSupported_iff.mp hrefused⟩)
      obtain ⟨sim', hstep, -⟩ := exists_step_ok (I := I) hsupported scheme
      rw [hstep]

/-- The circuit `a = neg(y)`, `b = noise(a)`, `y = int(b, 1, 1)`. -/
def noisy : EquationSet :=
  let a : Atom := ⟨['a'], .refl true⟩
  let b : Atom := ⟨['b'], .refl true⟩
  let y : Atom := ⟨['y'], .refl true⟩
  let one : Number := ⟨0x3ff0000000000000⟩
  .ofList [(a, ⟨Element.neg.name, [.node y []]⟩), (b, ⟨Element.noise.name, [.node a []]⟩),
    (y, ⟨Element.int.name, [.node b [], .number one, .number one]⟩)]

theorem exists_assemble_noisy : ∃ c p st, noisy.classify .standard = .ok c ∧
    Program.assemble .standard noisy c = .ok p ∧
      StopsAfter [st] (.unsupported .noise .simulator) p.statements := by
  have hsupported : (Expr.apply .neg [.slot ⟨.state, 0⟩]).IsSupported := rfl
  exact ⟨_, _, _, rfl, rfl, _, _, rfl, List.forall_mem_singleton.mpr hsupported, .apply _ .noise⟩

theorem fails_iff_stops_noisy : ∃ c p, noisy.classify .standard = .ok c ∧
    Program.assemble .standard noisy c = .ok p ∧
      let sim := ((evaluate additiveIntegers [7]).run (ofProgram additiveIntegers p)).2
      Reachable additiveIntegers p sim ∧ ∀ scheme,
        ((step additiveIntegers scheme).run sim).1 =
          .error (.compile (.unsupported .noise .simulator)) ∧
        SameButAux sim ((step additiveIntegers scheme).run sim).2 := by
  obtain ⟨c, p, st, hclassify, hassemble, hstops⟩ := exists_assemble_noisy
  obtain ⟨hprogram, hfails, -⟩ := fails_iff_stops additiveIntegers p
  have hreachable : Reachable additiveIntegers p _ := .evaluate [7] .ofProgram
  obtain ⟨-, hstep, hsame⟩ := hfails _ (hprogram _ hreachable)
  refine ⟨c, p, hclassify, hassemble, hreachable, fun scheme => ?_⟩
  have herror := (hstep scheme _).mpr ⟨_, _, hstops, rfl⟩
  exact ⟨herror, hsame scheme _ herror⟩

section Leaving

variable {i : Nat} {statements : List Statement}

theorem map_const_getElem? {xs ys : List V} (h : xs.length = ys.length) (i : Nat) (x : V) :
    (xs[i]?.map fun _ => x) = ys[i]?.map fun _ => x := by
  by_cases hi : i < xs.length
  · rw [List.getElem?_eq_getElem hi, List.getElem?_eq_getElem (h ▸ hi), Option.map_some,
      Option.map_some]
  · rw [List.getElem?_eq_none (not_lt.mp hi), List.getElem?_eq_none (h ▸ not_lt.mp hi)]

theorem getElem?_aux_assign_of_ne {slot : Slot} (x : V) (h : slot ≠ ⟨.aux, i⟩) :
    (assign r slot x).aux[i]? = r.aux[i]? := by
  obtain ⟨group, j⟩ := slot
  cases group with
  | aux => exact List.getElem?_set_ne fun hij => h (congrArg (Slot.mk .aux) hij)
  | state => rfl
  | derivative => rfl
  | constant => rfl

variable (I constants state r) in
/-- An auxiliary that no statement assigns keeps its value. -/
theorem getElem?_aux_runStatements_of_ne (h : ∀ st ∈ statements, st.target ≠ ⟨.aux, i⟩) :
    (runStatements I constants state statements r).2.aux[i]? = r.aux[i]? := by
  induction statements generalizing r with
  | nil => rfl
  | cons st rest ih =>
    obtain ⟨hst, hrest⟩ := List.forall_mem_cons.mp h
    rw [runStatements]
    split
    · rfl
    · rename_i x hx
      rw [ih _ hrest, getElem?_aux_assign_of_ne x hst]

/-- An auxiliary has the value that the statement last to assign it computed. -/
theorem exists_aux_runStatements {early late : List Statement} {st : Statement}
    (hst : st.target = ⟨.aux, i⟩) (hlate : ∀ st' ∈ late, st'.target ≠ ⟨.aux, i⟩)
    (hrun : runStatements I constants state (early ++ st :: late) r = (.ok (), r')) :
    ∃ x, evalExpr I constants state (runStatements I constants state early r).2 st.expr = .ok x ∧
      r'.aux[i]? = r.aux[i]?.map fun _ => x := by
  have hlength := (length_runStatements (I := I) constants state early r).1
  rw [runStatements_append] at hrun
  generalize runStatements I constants state early r = outcome at hrun hlength ⊢
  obtain ⟨e | _, r₁⟩ := outcome
  · cases hrun
  · dsimp only at hrun
    rw [runStatements] at hrun
    split at hrun
    · cases hrun
    · rename_i x hx
      refine ⟨x, hx, ?_⟩
      have hkept := getElem?_aux_runStatements_of_ne I constants state (assign r₁ st.target x) hlate
      rw [hrun, hst] at hkept
      rw [hkept, assign, List.getElem?_set_self']
      exact map_const_getElem? hlength i x

end Leaving

variable (I) in
/-- What an evaluation leaves that gets through the statements in `before` and no further. -/
structure Leaves (state : List V) (before : List Statement) (sim sim' : Simulator V) : Prop where
  sameButAux : SameButAux sim sim'
  /-- What is not an auxiliary that these statements assign keeps its value. -/
  kept : ∀ name, (∀ i, sim.program.lookup? name = some ⟨.aux, i⟩ →
    ∀ st ∈ before, st.target ≠ ⟨.aux, i⟩) → sim'.value? name = sim.value? name
  /-- An auxiliary that they assign has the value computed last. -/
  assigned : ∀ name i early st late, sim.program.lookup? name = some ⟨.aux, i⟩ →
    before = early ++ st :: late → st.target = ⟨.aux, i⟩ →
    (∀ st' ∈ late, st'.target ≠ ⟨.aux, i⟩) →
    ∃ x, evalExpr I sim.constants state
        (runStatements I sim.constants state early (registers I sim)).2 st.expr = .ok x ∧
      sim'.value? name = (sim.value? name).map fun _ => x

theorem leaves_of_runStatements {before : List Statement}
    (hrun : runStatements I sim.constants state before (registers I sim) = (.ok (), r)) :
    Leaves I state before sim { sim with aux := r.aux } where
  sameButAux := by
    have hlength := (length_runStatements (I := I) sim.constants state before (registers I sim)).1
    rw [hrun] at hlength
    exact ⟨hlength, rfl⟩
  kept name h := by
    cases hslot : sim.program.lookup? name with
    | none => rw [value?, value?, hslot]; rfl
    | some slot =>
      rw [value?, value?, hslot]
      obtain ⟨group, i⟩ := slot
      cases group with
      | aux =>
        have hkept := getElem?_aux_runStatements_of_ne I sim.constants state (registers I sim)
          (h i hslot)
        rwa [hrun] at hkept
      | state => rfl
      | derivative => rfl
      | constant => rfl
  assigned name i early st late hslot hbefore hst hlate := by
    subst hbefore
    obtain ⟨x, hx, haux⟩ := exists_aux_runStatements hst hlate hrun
    refine ⟨x, hx, ?_⟩
    rw [value?, value?, hslot]
    exact haux

/-- A failing evaluation stops at the first refused statement and is not taken back: of the
statements before it each has assigned its target.  A failing step leaves the same. -/
theorem leaves_of_error (I : Interpretation V) (sim : Simulator V) :
    (∀ state error sim', (evaluate I state).run sim = (.error error, sim') →
      ∃ before e, StopsAfter before e sim.program.statements ∧ error = .compile e ∧
        Leaves I state before sim sim') ∧
      ∀ scheme error sim', (step I scheme).run sim = (.error error, sim') →
        ∃ before e, StopsAfter before e sim.program.statements ∧ error = .compile e ∧
          Leaves I sim.state before sim sim' := by
  have hevaluate : ∀ state error sim', (evaluate I state).run sim = (.error error, sim') →
      ∃ before e, StopsAfter before e sim.program.statements ∧ error = .compile e ∧
        Leaves I state before sim sim' := by
    intro state error sim' h
    obtain ⟨before, e, r, hstops, herror, hrun, rfl⟩ := evaluate_eq_error_iff.mp h
    exact ⟨before, e, hstops, herror, leaves_of_runStatements hrun⟩
  exact ⟨hevaluate, fun scheme error sim' h => hevaluate _ _ _ (step_eq_error_iff.mp h)⟩

theorem leaves_of_error_noisy : ∃ c p, noisy.classify .standard = .ok c ∧
    Program.assemble .standard noisy c = .ok p ∧
      let sim := ofProgram additiveIntegers p
      ∃ sim' before, (step additiveIntegers .classic4).run sim =
          (.error (.compile (.unsupported .noise .simulator)), sim') ∧
        StopsAfter before (.unsupported .noise .simulator) p.statements ∧
        Leaves additiveIntegers sim.state before sim sim' := by
  obtain ⟨c, p, st, hclassify, hassemble, hstops⟩ := exists_assemble_noisy
  have hrun := Prod.fst_eq_iff.mp
    ((step_error_iff additiveIntegers (ofProgram additiveIntegers p) .classic4).mpr
      ⟨_, _, hstops, rfl⟩)
  obtain ⟨before, e, hstops', herror, hleaves⟩ :=
    (leaves_of_error additiveIntegers (ofProgram additiveIntegers p)).2 _ _ _ hrun
  cases herror
  exact ⟨c, p, hclassify, hassemble, _, before, hrun, hstops', hleaves⟩

/-- The auxiliary before the refused statement changes. -/
theorem value?_ne_of_error : ∃ c p, noisy.classify .standard = .ok c ∧
    Program.assemble .standard noisy c = .ok p ∧
      let sim := ofProgram additiveIntegers p
      (∃ error, ((evaluate additiveIntegers sim.state).run sim).1 = .error error ∧
        ((evaluate additiveIntegers sim.state).run sim).2.value? "a" ≠ sim.value? "a") ∧
      ∃ error, ((step additiveIntegers .euler).run sim).1 = .error error ∧
        ((step additiveIntegers .euler).run sim).2.value? "a" ≠ sim.value? "a" := by
  refine ⟨_, _, rfl, rfl, ⟨_, rfl, ?_⟩, ⟨_, rfl, ?_⟩⟩
  · decide
  · decide

end Simulator

end DiffAnalyzer
