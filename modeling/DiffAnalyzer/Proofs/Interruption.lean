import DiffAnalyzer.Proofs.Consistency
import DiffAnalyzer.Proofs.Runs
import Mathlib

/-!
# Interrupted runs

A sink with room for some bytes keeps the first of what is written to it
(`Sink.writeAll_of_room`).  A row is written with the auxiliaries put back already, so that a run
whose sink is full ends with the simulator as it was after the last step
(`Simulator.exists_after_runSteps`).  Options that cannot be run with are found before anything is
written (`Simulator.plan_eq_error_or`).
-/

namespace DiffAnalyzer

namespace Sink

theorem write_of_room {s : Sink} {room : Nat} (h : s.room = some room) (piece : List UInt8) :
    ∃ s', s.write piece = (if piece.length ≤ room then .ok () else .error (.output "full"), s') ∧
      s'.room = some (room - piece.length) ∧ s'.bytes = s.bytes ++ piece.take room := by
  rw [write, h]
  dsimp only
  split
  · rename_i hle
    exact ⟨_, rfl, rfl, by simp [bytes, List.take_of_length_le hle]⟩
  · rename_i hlt
    refine ⟨_, rfl, ?_, by simp [bytes]⟩
    rw [Nat.sub_eq_zero_of_le (Nat.le_of_not_le hlt)]

/-- A sink with limited room keeps the first bytes, and fails if there are more. -/
theorem writeAll_of_room {s : Sink} {room : Nat} (h : s.room = some room)
    (pieces : List (List UInt8)) :
    (s.writeAll pieces).2.bytes = s.bytes ++ pieces.flatten.take room ∧
      (s.writeAll pieces).1 =
        if pieces.flatten.length ≤ room then .ok () else .error (.output "full") := by
  induction pieces generalizing s room with
  | nil => simp [writeAll]
  | cons piece rest ih =>
    obtain ⟨s', hs', hroom, hbytes⟩ := write_of_room h piece
    rw [writeAll, hs', List.flatten_cons, List.take_append, List.length_append]
    by_cases hle : piece.length ≤ room
    · obtain ⟨hrest, houtcome⟩ := ih hroom
      rw [if_pos hle]
      dsimp only
      rw [hrest, houtcome, hbytes, List.append_assoc]
      refine ⟨rfl, if_congr ?_ rfl rfl⟩
      omega
    · have hfull : ¬ piece.length + rest.flatten.length ≤ room := by omega
      rw [if_neg hle, if_neg hfull, Nat.sub_eq_zero_of_le (Nat.le_of_not_le hle), List.take_zero,
        List.append_nil]
      exact ⟨hbytes, rfl⟩

end Sink

/-- What makes the options unfit for a run of the program. -/
inductive RunOptions.IsFault (p : Program) (o : RunOptions) : RunError → Prop where
  | order (h : o.order < 1 ∨ 4 < o.order) : IsFault p o (.invalidOrder o.order)
  | stride (h : o.stride = 0) : IsFault p o .invalidStride
  | query {name : String} (hname : name ∈ o.query) (hunknown : name ∉ p.vars.map toString) :
    IsFault p o (.unknownVariable name)

theorem Scheme.ofOrder?_eq_none_iff {order : Nat} :
    ofOrder? order = none ↔ order < 1 ∨ 4 < order := by
  simp only [ofOrder?, all, List.find?_eq_none, List.forall_mem_cons, Scheme.order, beq_iff_eq]
  simp
  omega

namespace Simulator

variable {V : Type} {I : Interpretation V} {format : RowFormat V} {o : RunOptions} {p : Program}
  {sim : Simulator V} {scheme : Scheme} {slots : List Slot}

section Plans

theorem mem_of_querySlots_eq_error {names : List String} {e : RunError}
    (h : querySlots p names = .error e) :
    ∃ name ∈ names, p.lookup? name = none ∧ e = .unknownVariable name := by
  rw [querySlots, ← discard_eq_error_iff, discard_mapM, forM_eq_error_iff] at h
  obtain ⟨name, hfind, hname⟩ := h
  rw [discard_eq_error_iff] at hname
  refine ⟨name, List.mem_of_find?_eq_some hfind, ?_⟩
  split at hname
  · cases hname
  · rename_i hlookup
    cases hname
    exact ⟨hlookup, rfl⟩

/-- The names that are written without a query are variables of the program. -/
theorem isFault_of_mem_queryNames (hp : p.IsConsistent) {name : String}
    (hname : name ∈ queryNames p o) (hlookup : p.lookup? name = none) :
    o.IsFault p (.unknownVariable name) := by
  have hunknown : name ∉ p.vars.map toString := by
    rw [← hp.lookup, hlookup]
    exact Bool.false_ne_true
  unfold queryNames at hname
  split at hname
  · exact absurd hname hunknown
  · exact .query hname hunknown

/-- A run has a plan, or it has none because of a fault of the options. -/
theorem plan_eq_error_or (hp : p.IsConsistent) (o : RunOptions) :
    (∃ e, plan p o = .error e ∧ o.IsFault p e) ∨
      (∃ scheme slots, plan p o = .ok (scheme, slots)) ∧ ∀ e, ¬ o.IsFault p e := by
  cases hplan : plan p o with
  | error e =>
    refine .inl ⟨e, rfl, ?_⟩
    unfold plan RunOptions.scheme? at hplan
    cases hscheme : Scheme.ofOrder? o.order with
    | none =>
      rw [hscheme] at hplan
      cases hplan
      exact .order (Scheme.ofOrder?_eq_none_iff.mp hscheme)
    | some scheme =>
      rw [hscheme] at hplan
      dsimp only at hplan
      split at hplan
      · rename_i hstride
        cases hplan
        exact .stride (beq_iff_eq.mp hstride)
      · obtain h | ⟨_, -, h⟩ := bind_eq_error_iff.mp hplan
        · obtain ⟨name, hname, hlookup, rfl⟩ := mem_of_querySlots_eq_error h
          exact isFault_of_mem_queryNames hp hname hlookup
        · cases h
  | ok found =>
    obtain ⟨scheme, slots⟩ := found
    obtain ⟨hscheme, hstride, hslots⟩ := plan_eq_ok_iff.mp hplan
    refine .inr ⟨⟨scheme, slots, rfl⟩, fun e he => ?_⟩
    cases he with
    | order h =>
      rw [← Scheme.ofOrder?_eq_none_iff] at h
      rw [RunOptions.scheme?, h] at hscheme
      cases hscheme
    | stride h => exact hstride h
    | @query name hname hunknown =>
      have hmem : name ∈ queryNames p o := by
        rw [queryNames, if_neg (by simpa using List.ne_nil_of_mem hname)]
        exact hname
      obtain ⟨slot, hslot⟩ := exists_mapM_eq_ok_iff.mp ⟨slots, hslots⟩ name hmem
      refine hunknown ((hp.lookup name).mp ?_)
      split at hslot
      · rename_i hlookup
        rw [hlookup]
        rfl
      · cases hslot

end Plans

section Boundaries

theorem iterations_step {sim' : Simulator V} (h : (step I scheme).run sim = (.ok (), sim')) :
    sim'.iterations = sim.iterations + 1 := by
  have hsame := keeps_slopesM (I := I) sim.state sim.steps scheme.tableau.stages [] sim (.refl sim)
  rw [step_run, stageSlopes] at h
  split at h
  · rename_i hslopes
    rw [hslopes] at hsame
    cases h
    exact congrArg (· + 1) hsame.iterations
  · cases h

theorem iterations_after (hsupported : sim.IsSupported) (n : Nat) :
    (after I scheme n sim).iterations = sim.iterations + n := by
  induction n generalizing sim with
  | zero => rfl
  | succ n ih =>
    obtain ⟨sim', hstep, hprogram⟩ := exists_step_ok (I := I) hsupported scheme
    rw [after_succ hstep, ih (isSupported_of_program hprogram hsupported), iterations_step hstep,
      Nat.add_assoc, Nat.add_comm 1]

theorem writeHeader_sim (o : RunOptions) (p : Program) (sim : Simulator V) (sink : Sink) :
    ((writeHeader o p).run (sim, sink)).2.1 = sim := by
  unfold writeHeader
  split <;> rfl

/-- Steps and rows end after some of the steps, wherever the sink is full. -/
theorem exists_after_runSteps (hsupported : sim.IsSupported) (remaining done : Nat) (sink : Sink) :
    ∃ k ≤ remaining, ((runSteps I format o scheme slots remaining done).run (sim, sink)).2.1 =
      after I scheme k sim := by
  induction remaining generalizing sim done sink with
  | zero => exact ⟨0, le_rfl, rfl⟩
  | succ remaining ih =>
    obtain ⟨sim', hstep, hprogram⟩ := exists_step_ok (I := I) hsupported scheme
    have hsupported' := isSupported_of_program hprogram hsupported
    have hsimulate : (RunM.simulate (step I scheme)).run (sim, sink) = (.ok (), sim', sink) := by
      change (((step I scheme).run sim).1, ((step I scheme).run sim).2, sink) = _
      rw [hstep]
    -- What is left to do ends after `k` more steps.
    have hrest : ∀ sink', ∃ k ≤ remaining + 1,
        ((runSteps I format o scheme slots remaining (done + 1)).run (sim', sink')).2.1 =
          after I scheme k sim := by
      intro sink'
      obtain ⟨k, hk, hrun⟩ := ih hsupported' (done + 1) sink'
      exact ⟨k + 1, Nat.succ_le_succ hk, hrun.trans (after_succ hstep k).symm⟩
    rw [runSteps, run_bind_eq, hsimulate]
    dsimp only
    split
    · have hwrite : (RunM.write (row I format o slots sim')).run (sim', sink) =
          ((sink.write (row I format o slots sim')).1,
            (sim', (sink.write (row I format o slots sim')).2)) := rfl
      rw [run_bind_eq, writeRow_run fun _ => hsupported', hwrite]
      generalize sink.write (row I format o slots sim') = written
      obtain ⟨e | _, sink'⟩ := written
      · exact ⟨1, Nat.succ_le_succ remaining.zero_le, (after_succ hstep 0).symm⟩
      · exact hrest sink'
    · exact hrest sink

variable (I format) in
/-- A run without initial row ends after some of its steps. -/
theorem exists_after_run (hsupported : sim.IsSupported)
    (hplan : plan sim.program o = .ok (scheme, slots)) (hinitial : o.initialRow = false)
    (sink : Sink) :
    ∃ k ≤ o.maxIterations, ((run I format o).run (sim, sink)).2.1 = after I scheme k sim := by
  have hheader := writeHeader_sim o sim.program sim sink
  have hrow : writeInitialRow I format o slots = pure () := by
    rw [writeInitialRow, hinitial]
    rfl
  rw [run_run, hplan]
  dsimp only
  rw [run_bind_eq]
  generalize (writeHeader o sim.program).run (sim, sink) = outcome at hheader
  obtain ⟨e | _, sim', sink'⟩ := outcome
  · exact ⟨0, Nat.zero_le _, hheader⟩
  · cases hheader
    rw [hrow]
    exact exists_after_runSteps hsupported o.maxIterations 0 sink'

end Boundaries

variable (I format) in
/-- Options that cannot be run with are refused before anything is written.  With others, a sink
that takes `n` bytes has the first `n` bytes of the whole output, and a run that it stops has taken
so many whole steps as it has counted. -/
theorem run_interrupted {s : EquationSet} {v : Vocabulary} {c : Classification}
    (hclassify : s.classify v = .ok c) (hassemble : Program.assemble v s c = .ok p)
    (hsupported : ∀ st ∈ p.statements, st.expr.IsSupported) (hsim : sim.program = p)
    (hinitial : o.initialRow = false) (n : Nat) :
    ((∃ e, o.IsFault p e) → ∃ e, o.IsFault p e ∧
        ∀ sink, (run I format o).run (sim, sink) = (.error e, (sim, sink))) ∧
      ((∀ e, ¬ o.IsFault p e) → ∃ scheme simFull sinkFull sim' sink',
        o.scheme? = some scheme ∧
        (run I format o).run (sim, .unlimited) = (.ok (), (simFull, sinkFull)) ∧
        (run I format o).run (sim, .limited n) =
          (if sinkFull.bytes.length ≤ n then .ok () else .error (.output "full"),
            (sim', sink')) ∧
        sink'.bytes = sinkFull.bytes.take n ∧
        ∃ k ≤ o.maxIterations, sim'.iterations = sim.iterations + k ∧
          (advance I scheme k).run sim = (.ok (), sim')) := by
  subst hsim
  have hp := Program.isConsistent_of_assemble hclassify hassemble
  obtain ⟨e, hplan, hfault⟩ | ⟨⟨scheme, slots, hplan⟩, hfault⟩ := plan_eq_error_or hp o
  · refine ⟨fun _ => ⟨e, hfault, fun sink => ?_⟩, fun h => absurd hfault (h e)⟩
    rw [run_run, hplan]
  · refine ⟨fun ⟨e, he⟩ => absurd he (hfault e), fun _ => ?_⟩
    have hwrites := writes_run_of_initialRow_eq_false I format hplan (fun _ => hsupported) hinitial
    generalize header o sim.program ++ rows I format o scheme slots sim = pieces at hwrites
    obtain ⟨sinkFull, hfull⟩ := Sink.exists_writeAll_ok (s := .unlimited) rfl pieces
    have hbytes : sinkFull.bytes = pieces.flatten := by
      have hok : (Sink.writeAll .unlimited pieces).1 = .ok () := by rw [hfull]
      have hkept := Sink.bytes_writeAll hok
      rw [hfull] at hkept
      exact hkept
    obtain ⟨hkept, houtcome⟩ := Sink.writeAll_of_room (s := .limited n) rfl pieces
    obtain ⟨k, hk, hafter⟩ := exists_after_run I format hsupported hplan hinitial (.limited n)
    have hrun : ∃ sim', (run I format o).run (sim, .limited n) =
        ((Sink.writeAll (.limited n) pieces).1, (sim', (Sink.writeAll (.limited n) pieces).2)) := by
      cases h : Sink.writeAll (.limited n) pieces with
      | mk outcome sink' =>
        cases outcome with
        | ok => exact ⟨_, hwrites.ok _ _ h⟩
        | error e => exact hwrites.error _ _ e h
    obtain ⟨sim', hrun⟩ := hrun
    rw [hrun] at hafter
    obtain rfl : sim' = after I scheme k sim := hafter
    refine ⟨scheme, _, sinkFull, _, (Sink.writeAll (.limited n) pieces).2,
      (plan_eq_ok_iff.mp hplan).1, hwrites.ok _ _ hfull, ?_, ?_, k, hk,
      iterations_after hsupported k, (advance_run hsupported k).1⟩
    · rw [hrun, houtcome, hbytes]
    · rw [hkept, hbytes]
      rfl

/-- The header and three rows are eight bytes. -/
theorem exists_assemble_decay : ∃ linear c p, decay.linearize false = .ok linear ∧
    linear.classify .standard = .ok c ∧ Program.assemble .standard linear c = .ok p ∧
      (∀ st ∈ p.statements, st.expr.IsSupported) ∧ "x" ∈ p.vars.map toString ∧
      ((run additiveIntegers signFormat { maxIterations := 5, stride := 2, query := ["x"] }).run
        (ofProgram additiveIntegers p, .unlimited)).2.2.bytes.length = 8 := by
  refine ⟨_, _, _, rfl, rfl, rfl, ?_, ?_, ?_⟩
  · exact (runStatements_eq_ok_iff additiveIntegers [] [] ⟨[], []⟩).mp rfl
  · decide +kernel
  · decide +kernel

theorem run_interrupted_decay : ∃ linear c p, decay.linearize false = .ok linear ∧
    linear.classify .standard = .ok c ∧ Program.assemble .standard linear c = .ok p ∧
      let o : RunOptions := { maxIterations := 5, stride := 2, query := ["x"] }
      let sim := ofProgram additiveIntegers p
      (∃ e, ∀ sink, (run additiveIntegers signFormat { o with stride := 0 }).run (sim, sink) =
        (.error e, (sim, sink))) ∧
      ∃ k ≤ 5, ∃ sim' sink',
        (run additiveIntegers signFormat o).run (sim, .limited 3) =
          (.error (.output "full"), (sim', sink')) ∧
        sim'.iterations = sim.iterations + k ∧
        (advance additiveIntegers .euler k).run sim = (.ok (), sim') := by
  obtain ⟨linear, c, p, hlinear, hclassify, hassemble, hsupported, hvars, hlength⟩ :=
    exists_assemble_decay
  refine ⟨linear, c, p, hlinear, hclassify, hassemble, ?refused, ?stopped⟩
  case refused =>
    let o : RunOptions := { maxIterations := 5, stride := 0, query := ["x"] }
    have hfault : ∃ e, o.IsFault p e := ⟨_, .stride rfl⟩
    have hsim : (ofProgram additiveIntegers p).program = p := rfl
    obtain ⟨e, -, hrun⟩ := (run_interrupted additiveIntegers signFormat hclassify hassemble
      hsupported hsim rfl 3).1 hfault
    exact ⟨e, hrun⟩
  case stopped =>
    let o : RunOptions := { maxIterations := 5, stride := 2, query := ["x"] }
    have hfit : ∀ e, ¬ o.IsFault p e := by
      rintro _ (h | h | ⟨hname, hunknown⟩)
      · exact absurd h (by decide)
      · cases h
      · rw [List.mem_singleton.mp hname] at hunknown
        exact hunknown hvars
    have hsim : (ofProgram additiveIntegers p).program = p := rfl
    obtain ⟨scheme, simFull, sinkFull, sim', sink', hscheme, hfull, hrun, -, k, hk, hcount,
      hsteps⟩ := (run_interrupted additiveIntegers signFormat hclassify hassemble hsupported hsim
        rfl 3).2 hfit
    cases hscheme
    rw [hfull] at hlength
    rw [hlength] at hrun
    exact ⟨k, hk, sim', sink', hrun, hcount, hsteps⟩

end Simulator

end DiffAnalyzer
