import DiffAnalyzer.Proofs.Frames
import Mathlib

/-!
# Runs iterate steps

A run of supported elements does to the simulator what plain steps do, whatever it
writes in between, and writes the header and a row after each step whose number is a
multiple of the stride (`Simulator.run_iterates`).  Only writing can make it fail; what
is written without failure is appended to the output (`Sink.bytes_writeAll`).  What the
rows and the header are, byte by byte, is said by `Simulator.row` and `Simulator.header`,
which do not refer to the functions that write them.
-/

namespace DiffAnalyzer

section Bytes

theorem byteArray_toList_loop (bs : ByteArray) (i : Nat) (r : List UInt8) :
    ByteArray.toList.loop bs i r = r.reverse ++ bs.data.toList.drop i := by
  fun_induction ByteArray.toList.loop bs i r with
  | case1 i r h ih =>
    have hi : i < bs.data.toList.length := by simpa using h
    rw [ih, List.drop_eq_getElem_cons hi]
    simp [ByteArray.get!, h]
  | case2 i r h =>
    rw [List.drop_eq_nil_of_le (by simpa using Nat.le_of_not_lt h)]
    simp

theorem toList_toByteArray (l : List UInt8) : l.toByteArray.toList = l := by
  simp [ByteArray.toList, byteArray_toList_loop]

/-- A text is encoded character by character. -/
theorem utf8Bytes_eq (text : List Char) : utf8Bytes text = text.flatMap String.utf8EncodeChar := by
  rw [utf8Bytes, String.toUTF8_eq_toByteArray, String.toByteArray_ofList, List.utf8Encode,
    toList_toByteArray]

/-- The bytes of a line: the texts with a tab between any two, and a line feed behind. -/
def lineBytes (texts : List (List Char)) : List UInt8 :=
  List.intercalate [9] (texts.map fun text => text.flatMap String.utf8EncodeChar) ++ [10]

theorem flatMap_intercalate {α β : Type} (f : α → List β) (sep : List α) (ls : List (List α)) :
    (List.intercalate sep ls).flatMap f =
      List.intercalate (sep.flatMap f) (ls.map fun l => l.flatMap f) := by
  induction ls with
  | nil => rfl
  | cons l ls ih =>
    cases ls with
    | nil => simp [List.intercalate]
    | cons l' ls =>
      simp only [List.intercalate, List.intersperse_cons_cons, List.map_cons, List.flatten_cons,
        List.flatMap_append] at ih ⊢
      rw [ih]

theorem utf8Bytes_tabbedLine (texts : List (List Char)) :
    utf8Bytes (tabbedLine texts) = lineBytes texts := by
  rw [utf8Bytes_eq, tabbedLine, List.flatMap_append, flatMap_intercalate]
  rfl

end Bytes

namespace Sink

/-- Write pieces until one of them fails. -/
def writeAll (s : Sink) : List (List UInt8) → Except RunError Unit × Sink
  | [] => (.ok (), s)
  | piece :: rest =>
    match s.write piece with
    | (.ok (), s) => s.writeAll rest
    | (.error e, s) => (.error e, s)

theorem writeAll_append (s : Sink) (pieces more : List (List UInt8)) :
    s.writeAll (pieces ++ more) =
      match s.writeAll pieces with
      | (.ok (), s) => s.writeAll more
      | (.error e, s) => (.error e, s) := by
  induction pieces generalizing s with
  | nil => rfl
  | cons piece rest ih =>
    rw [List.cons_append, writeAll, writeAll]
    obtain ⟨e | _, s'⟩ := s.write piece
    · rfl
    · exact ih s'

/-- What is written without failure is appended. -/
theorem bytes_writeAll {s : Sink} {pieces : List (List UInt8)}
    (h : (s.writeAll pieces).1 = .ok ()) :
    (s.writeAll pieces).2.bytes = s.bytes ++ pieces.flatten := by
  induction pieces generalizing s with
  | nil => simp [writeAll]
  | cons piece rest ih =>
    have hwrite : ∀ s', s.write piece = (.ok (), s') → s'.bytes = s.bytes ++ piece := by
      intro s' hs'
      unfold write at hs'
      split at hs'
      · cases hs'
        simp [bytes]
      · split at hs'
        · cases hs'
          simp [bytes]
        · cases hs'
    rw [writeAll] at h ⊢
    split at h
    · rename_i s' hs'
      rw [ih h, hwrite s' hs', List.flatten_cons, List.append_assoc]
    · cases h

/-- Without a limit everything can be written. -/
theorem exists_writeAll_ok {s : Sink} (h : s.room = none) (pieces : List (List UInt8)) :
    ∃ s', s.writeAll pieces = (.ok (), s') := by
  induction pieces generalizing s with
  | nil => exact ⟨s, rfl⟩
  | cons piece rest ih =>
    rw [writeAll, write, h]
    exact ih rfl

end Sink

namespace Simulator

variable {V : Type}

/-- The computation writes the pieces: where they can be written it ends in `sim'`, and
otherwise it fails like writing them. -/
structure Writes (x : RunM V Unit) (sim : Simulator V) (pieces : List (List UInt8))
    (sim' : Simulator V) : Prop where
  ok : ∀ sink sink', sink.writeAll pieces = (.ok (), sink') →
    x.run (sim, sink) = (.ok (), (sim', sink'))
  error : ∀ sink sink' e, sink.writeAll pieces = (.error e, sink') →
    ∃ sim', x.run (sim, sink) = (.error e, (sim', sink'))

namespace Writes

variable {x y : RunM V Unit} {sim sim' sim'' : Simulator V} {pieces more : List (List UInt8)}

/-- A computation that leaves the sink alone writes nothing. -/
theorem of_run (h : ∀ sink, x.run (sim, sink) = (.ok (), (sim', sink))) :
    Writes x sim [] sim' where
  ok sink sink' hsink := by
    cases hsink
    exact h sink
  error sink sink' e hsink := nomatch hsink

theorem congr (hrun : ∀ sink, x.run (sim, sink) = y.run (sim, sink))
    (hy : Writes y sim pieces sim') : Writes x sim pieces sim' where
  ok sink sink' hsink := (hrun sink).trans (hy.ok sink sink' hsink)
  error sink sink' e hsink := by
    obtain ⟨sim'', herror⟩ := hy.error sink sink' e hsink
    exact ⟨sim'', (hrun sink).trans herror⟩

theorem write (sim : Simulator V) (piece : List UInt8) :
    Writes (RunM.write piece) sim [piece] sim := by
  have hwrite : ∀ sink : Sink, sink.writeAll [piece] = sink.write piece := fun sink => by
    rw [Sink.writeAll]
    obtain ⟨e | _, sink'⟩ := sink.write piece <;> rfl
  have hrun : ∀ sink, (RunM.write piece).run (sim, sink) =
      ((sink.writeAll [piece]).1, (sim, (sink.writeAll [piece]).2)) := fun sink => by
    rw [hwrite]
    rfl
  constructor
  case ok =>
    intro sink sink' hsink
    rw [hrun, hsink]
  case error =>
    intro sink sink' e hsink
    exact ⟨sim, by rw [hrun, hsink]⟩

/-- What follows writes behind what is written first. -/
theorem bind (hx : Writes x sim pieces sim') (hy : Writes y sim' more sim'') :
    Writes (x >>= fun _ => y) sim (pieces ++ more) sim'' := by
  constructor
  case ok =>
    intro sink sink' hsink
    rw [Sink.writeAll_append] at hsink
    split at hsink
    · rename_i sink₁ hsink₁
      rw [run_bind_eq, hx.ok sink sink₁ hsink₁]
      exact hy.ok sink₁ sink' hsink
    · cases hsink
  case error =>
    intro sink sink' e hsink
    rw [Sink.writeAll_append] at hsink
    split at hsink
    · rename_i sink₁ hsink₁
      rw [run_bind_eq, hx.ok sink sink₁ hsink₁]
      exact hy.error sink₁ sink' e hsink
    · rename_i hsink₁
      cases hsink
      obtain ⟨sim₁, hrun⟩ := hx.error sink sink' e hsink₁
      exact ⟨sim₁, by rw [run_bind_eq, hrun]⟩

end Writes

section Stepping

variable (I : Interpretation V)

/-- The simulator after some plain steps. -/
def after (scheme : Scheme) (n : Nat) (sim : Simulator V) : Simulator V :=
  ((advance I scheme n).run sim).2

variable (format : RowFormat V) (o : RunOptions)

/-- The simulator whose values a row shows. -/
def shown (sim : Simulator V) : Simulator V :=
  if o.freshAuxiliaries then ((evaluate I sim.state).run sim).2 else sim

/-- The values of a row. -/
def shownValues (slots : List Slot) (sim : Simulator V) : List V :=
  slots.map fun slot => ((shown I o sim).read? slot).getD I.missing

/-- The bytes of a row: a line with the texts of the values, or their binary forms one
after the other. -/
def row (slots : List Slot) (sim : Simulator V) : List UInt8 :=
  if o.binary then ((shownValues I o slots sim).map format.bytes).flatten
  else lineBytes ((shownValues I o slots sim).map format.text)

/-- The pieces of the header: a line with the names, unless the output is binary. -/
def header (p : Program) : List (List UInt8) :=
  if o.binary then [] else [lineBytes ((queryNames p o).map String.toList)]

theorem rowBytes_shownValues (slots : List Slot) (sim : Simulator V) :
    rowBytes format o (shownValues I o slots sim) = row I format o slots sim := by
  rw [rowBytes, row, utf8Bytes_tabbedLine]
  rfl

/-- The simulator without values of the auxiliaries. -/
def blank (sim : Simulator V) : Simulator V := { sim with aux := sim.aux.map fun _ => I.missing }

/-- The simulator that a run steps from. -/
def start (sim : Simulator V) : Simulator V := if o.initialRow then blank I sim else sim

/-- The initial row, if it is wanted. -/
def initialRows (slots : List Slot) (sim : Simulator V) : List (List UInt8) :=
  if o.initialRow then [row I format o slots (blank I sim)] else []

/-- The rows of some steps: the first one is number `done`. -/
def rowsFrom (scheme : Scheme) (slots : List Slot) (remaining done : Nat) (sim : Simulator V) :
    List (List UInt8) :=
  ((List.range remaining).filter fun j => (done + j) % o.stride == 0).map fun j =>
    row I format o slots (after I scheme (j + 1) sim)

/-- The rows of the steps of a run. -/
def rows (scheme : Scheme) (slots : List Slot) (sim : Simulator V) : List (List UInt8) :=
  ((List.range o.maxIterations).filter fun j => j % o.stride == 0).map fun j =>
    row I format o slots (after I scheme (j + 1) sim)

end Stepping

variable {I : Interpretation V} {format : RowFormat V} {o : RunOptions} {sim : Simulator V}
  {scheme : Scheme} {slots : List Slot}

section Supported

/-- The elements of the statements are supported. -/
def IsSupported (sim : Simulator V) : Prop := ∀ st ∈ sim.program.statements, st.expr.IsSupported

theorem isSupported_of_program {sim' : Simulator V} (h : sim'.program = sim.program)
    (hsupported : sim.IsSupported) : sim'.IsSupported := by
  rw [IsSupported, h]
  exact hsupported

/-- An evaluation that succeeds has applied supported elements only. -/
theorem isSupported_of_evaluate {state slopes : List V}
    (h : ((evaluate I state).run sim).1 = .ok slopes) : sim.IsSupported := by
  refine (runStatements_eq_ok_iff I sim.constants state
    ⟨sim.aux, List.replicate sim.program.layout.state.size I.zero⟩).mp ?_
  rw [evaluate_run] at h
  split at h
  · rename_i r hr
    rw [hr]
  · cases h

theorem exists_evaluate_ok (hsupported : sim.IsSupported) (state : List V) :
    ∃ slopes, (evaluate I state).run sim = (.ok slopes, ((evaluate I state).run sim).2) := by
  have hok := (runStatements_eq_ok_iff I sim.constants state
    ⟨sim.aux, List.replicate sim.program.layout.state.size I.zero⟩).mpr hsupported
  rw [evaluate_run]
  split
  · exact ⟨_, rfl⟩
  · rename_i e r hr
    rw [hr] at hok
    cases hok

theorem exists_slopesM_ok (hsupported : sim.IsSupported) (y steps : List V)
    (stages : List (List Coefficient)) (slopes : List (List V)) :
    ∃ slopes' sim', (Tableau.slopesM I.toArithmetic y steps (evaluate I) stages slopes).run sim =
      (.ok slopes', sim') ∧ SameButAux sim sim' := by
  induction stages generalizing sim slopes with
  | nil => exact ⟨slopes, sim, rfl, .refl sim⟩
  | cons stage stages ih =>
    obtain ⟨slope, hslope⟩ := exists_evaluate_ok (I := I) hsupported
      (Tableau.combine I.toArithmetic y steps stage slopes)
    have hsame := sameButAux_evaluate (I := I) sim
      (Tableau.combine I.toArithmetic y steps stage slopes)
    obtain ⟨slopes', sim', hrun, hsame'⟩ := ih (isSupported_of_program hsame.program hsupported)
      (slopes ++ [slope])
    refine ⟨slopes', sim', ?_, hsame.trans hsame'⟩
    rw [Tableau.slopesM, run_bind hslope, hrun]

theorem exists_step_ok (hsupported : sim.IsSupported) (scheme : Scheme) :
    ∃ sim', (step I scheme).run sim = (.ok (), sim') ∧ sim'.program = sim.program := by
  obtain ⟨slopes, sim', hrun, hsame⟩ := exists_slopesM_ok (I := I) hsupported sim.state sim.steps
    scheme.tableau.stages []
  rw [step_run, stageSlopes, hrun]
  exact ⟨_, rfl, hsame.program⟩

theorem after_succ {sim' : Simulator V} (h : (step I scheme).run sim = (.ok (), sim')) (n : Nat) :
    after I scheme (n + 1) sim = after I scheme n sim' := by
  rw [after, advance, run_bind h, after]

/-- Steps of supported elements succeed. -/
theorem advance_run (hsupported : sim.IsSupported) (n : Nat) :
    (advance I scheme n).run sim = (.ok (), after I scheme n sim) ∧
      (after I scheme n sim).program = sim.program := by
  induction n generalizing sim with
  | zero => exact ⟨rfl, rfl⟩
  | succ n ih =>
    obtain ⟨sim', hstep, hprogram⟩ := exists_step_ok (I := I) hsupported scheme
    obtain ⟨hrun, hprogram'⟩ := ih (isSupported_of_program hprogram hsupported)
    rw [after_succ hstep, advance, run_bind hstep]
    exact ⟨hrun, hprogram'.trans hprogram⟩

/-- A row leaves the simulator as it is, whether it could be written or not. -/
theorem writeRow_run (hsupported : o.freshAuxiliaries = true → sim.IsSupported) (sink : Sink) :
    (writeRow I format o slots).run (sim, sink) =
      (RunM.write (row I format o slots sim)).run (sim, sink) := by
  have hvalues : (rowValues I o slots).run sim = (.ok (shownValues I o slots sim), sim) := by
    rw [rowValues_run, shownValues, shown]
    split
    · rename_i hfresh
      obtain ⟨slopes, hslopes⟩ := exists_evaluate_ok (I := I) (hsupported hfresh) sim.state
      rw [hslopes]
    · rfl
  have hsimulate : (RunM.simulate (rowValues I o slots)).run (sim, sink) =
      (.ok (shownValues I o slots sim), sim, sink) := by
    change (((rowValues I o slots).run sim).1, ((rowValues I o slots).run sim).2, sink) = _
    rw [hvalues]
  rw [writeRow, run_bind_eq, hsimulate, ← rowBytes_shownValues]

theorem writes_writeRow (hsupported : o.freshAuxiliaries = true → sim.IsSupported) :
    Writes (writeRow I format o slots) sim [row I format o slots sim] sim :=
  .congr (writeRow_run hsupported) (.write sim _)

/-- The rows of the first step and of those that follow it. -/
theorem rowsFrom_succ {sim' : Simulator V} (h : (step I scheme).run sim = (.ok (), sim'))
    (remaining done : Nat) :
    rowsFrom I format o scheme slots (remaining + 1) done sim =
      (if done % o.stride == 0 then [row I format o slots sim'] else []) ++
        rowsFrom I format o scheme slots remaining (done + 1) sim' := by
  have hafter : ∀ j, after I scheme (j + 1 + 1) sim = after I scheme (j + 1) sim' :=
    fun j => after_succ h _
  have hfirst : after I scheme 1 sim = sim' := after_succ h 0
  rw [rowsFrom, rowsFrom, List.range_succ_eq_map, List.filter_cons, List.filter_map, Nat.add_zero]
  split
  · simp [hafter, hfirst, Function.comp_def, Nat.add_comm, Nat.add_left_comm]
  · simp [hafter, Function.comp_def, Nat.add_comm, Nat.add_left_comm]

theorem writes_runSteps {remaining : Nat} (hsupported : 0 < remaining → sim.IsSupported)
    (done : Nat) :
    Writes (runSteps I format o scheme slots remaining done) sim
      (rowsFrom I format o scheme slots remaining done sim) (after I scheme remaining sim) := by
  induction remaining generalizing sim done with
  | zero => exact .of_run fun _ => rfl
  | succ remaining ih =>
    have hsupported := hsupported remaining.succ_pos
    obtain ⟨sim', hstep, hprogram⟩ := exists_step_ok (I := I) hsupported scheme
    have hsupported' := isSupported_of_program hprogram hsupported
    rw [rowsFrom_succ hstep, after_succ hstep, runSteps]
    have hsimulate : Writes (RunM.simulate (step I scheme)) sim [] sim' := .of_run fun sink => by
      change (((step I scheme).run sim).1, ((step I scheme).run sim).2, sink) = _
      rw [hstep]
    refine hsimulate.bind ?_
    dsimp only
    split
    · exact (writes_writeRow fun _ => hsupported').bind (ih (fun _ => hsupported') (done + 1))
    · exact ih (fun _ => hsupported') (done + 1)

theorem plan_eq_ok_iff {p : Program} :
    plan p o = .ok (scheme, slots) ↔ o.scheme? = some scheme ∧ o.stride ≠ 0 ∧
      querySlots p (queryNames p o) = .ok slots := by
  rw [plan]
  cases o.scheme? with
  | none => exact ⟨nofun, nofun⟩
  | some found =>
    dsimp only
    split
    · rename_i hstride
      exact ⟨nofun, fun h => absurd (by simpa using hstride) h.2.1⟩
    · rename_i hstride
      cases querySlots p (queryNames p o) with
      | error e => exact ⟨nofun, nofun⟩
      | ok found' =>
        simp only [beq_iff_eq] at hstride
        simp [hstride, pure, Except.pure, bind, Except.bind]

theorem writes_writeHeader (o : RunOptions) (p : Program) (sim : Simulator V) :
    Writes (writeHeader o p) sim (header o p) sim := by
  unfold writeHeader header
  rw [utf8Bytes_tabbedLine]
  split
  · exact .of_run fun _ => rfl
  · exact .write sim _

theorem writes_writeInitialRow (hsupported : o.freshAuxiliaries = true → sim.IsSupported) :
    Writes (writeInitialRow I format o slots) sim (initialRows I format o slots sim)
      (start I o sim) := by
  unfold writeInitialRow initialRows start
  split
  · change Writes _ sim ([] ++ [row I format o slots (blank I sim)]) (blank I sim)
    exact .bind (.of_run fun _ => rfl) (writes_writeRow hsupported)
  · exact .of_run fun _ => rfl

variable (I format) in
theorem writes_run (hplan : plan sim.program o = .ok (scheme, slots))
    (hsupported : o.freshAuxiliaries = true ∨ 0 < o.maxIterations → sim.IsSupported) :
    Writes (run I format o) sim
      (header o sim.program ++ (initialRows I format o slots sim ++
        rows I format o scheme slots (start I o sim)))
      (after I scheme o.maxIterations (start I o sim)) := by
  have hstart : (start I o sim).program = sim.program := by
    unfold start
    split <;> rfl
  have hrow : Writes (writeInitialRow I format o slots) sim _ _ :=
    writes_writeInitialRow fun hfresh => hsupported (.inl hfresh)
  have hsteps : Writes (runSteps I format o scheme slots o.maxIterations 0) (start I o sim)
      (rowsFrom I format o scheme slots o.maxIterations 0 (start I o sim))
      (after I scheme o.maxIterations (start I o sim)) :=
    writes_runSteps (fun hpos => isSupported_of_program hstart (hsupported (.inr hpos))) 0
  have hrows : rowsFrom I format o scheme slots o.maxIterations 0 (start I o sim) =
      rows I format o scheme slots (start I o sim) := by
    simp only [rowsFrom, rows, Nat.zero_add]
  rw [hrows] at hsteps
  refine .congr (fun sink => ?_) ((writes_writeHeader o sim.program sim).bind (hrow.bind hsteps))
  rw [run_run, hplan]

variable (I format) in
/-- Without initial row there is the header, and then the rows of the steps. -/
theorem writes_run_of_initialRow_eq_false (hplan : plan sim.program o = .ok (scheme, slots))
    (hsupported : o.freshAuxiliaries = true ∨ 0 < o.maxIterations → sim.IsSupported)
    (hinitial : o.initialRow = false) :
    Writes (run I format o) sim (header o sim.program ++ rows I format o scheme slots sim)
      (after I scheme o.maxIterations sim) := by
  have hrun := writes_run I format hplan hsupported
  simpa only [initialRows, start, hinitial, Bool.false_eq_true, if_false, List.nil_append]
    using hrun

end Supported

/-- Whether an integer is negative, as a text or a byte. -/
def signFormat : RowFormat ℤ where
  text x := [if x < 0 then '-' else '+']
  bytes x := [if x < 0 then 1 else 0]

end Simulator

end DiffAnalyzer
