import DiffAnalyzer.Proofs.Assembly
import DiffAnalyzer.Proofs.Solutions
import DiffAnalyzer.Simulation.Simulator
import Mathlib

/-!
# Evaluating loop-free programs

Settling takes equations one after another and gives each name the value of its
right-hand side (`EquationSet.settle`).  In a schedule no equation reads a later name, so
that every equation holds in the end, whatever the names stood for before.  The
statements of a program settle its auxiliaries, and the derivatives are the values of
the evolved equations under the outcome (`Program.IsAssembled.evaluate_eq`).
-/

namespace DiffAnalyzer

namespace Term

/-- The arguments without step size and initial value. -/
def inputs (t : Term) : List Arg := t.tail.take (t.tail.length - 2)

theorem inputs_of_reverse {t : Term} {initial step : Arg} {args : List Arg}
    (h : t.tail.reverse = initial :: step :: args) : t.inputs = args.reverse := by
  have htail : t.tail = args.reverse ++ [step, initial] := by
    rw [← List.reverse_reverse t.tail, h]
    simp
  simp [inputs, htail]

/-- The element of a term on its inputs. -/
def slope {V : Type} (M : Meaning V) (σ : Atom → V) (t : Term) : V :=
  M.apply t.head (t.inputs.map (Arg.eval M σ))

theorem slope_congr {V : Type} {M : Meaning V} {σ τ : Atom → V} {t : Term}
    (h : ∀ w ∈ t.toArg.references, τ w = σ w) : t.slope M τ = t.slope M σ := by
  refine congrArg _ (List.map_congr_left fun a ha => Arg.eval_congr fun w hw => h w ?_)
  exact Arg.mem_references_node.mpr (.inr ⟨a, List.mem_of_mem_take ha, hw⟩)

end Term

namespace EquationSet

variable {V : Type} (M : Meaning V) (s : EquationSet)

/-- Take the equations of some names in turn. -/
def settle (names : List Atom) (σ : Atom → V) : Atom → V :=
  names.foldl (fun σ name => Function.update σ name (((s.get? name).map (Term.eval M σ)).getD
    (σ name))) σ

/-- The derivatives of some names, by the values of all variables. -/
def slopes (names : List Atom) (σ : Atom → V) : List V :=
  names.map fun name => ((s.get? name).map (Term.slope M σ)).getD (σ name)

/-- An order in which no equation reads its own name or a later one. -/
structure IsSchedule (names : List Atom) : Prop where
  nodup : names.Nodup
  pairwise : names.Pairwise fun u w => (u, w) ∉ s.dependencyGraph
  irrefl : ∀ u ∈ names, (u, u) ∉ s.dependencyGraph

variable {M s} {names : List Atom} {name u : Atom} {rhs : Term} {σ τ : Atom → V}

theorem settle_cons : s.settle M (u :: names) σ =
    s.settle M names (Function.update σ u (((s.get? u).map (Term.eval M σ)).getD (σ u))) := rfl

theorem settle_append {others : List Atom} :
    s.settle M (names ++ others) σ = s.settle M others (s.settle M names σ) :=
  List.foldl_append

/-- Other names keep their values. -/
theorem settle_of_not_mem (h : name ∉ names) : s.settle M names σ name = σ name := by
  induction names generalizing σ with
  | nil => rfl
  | cons u rest ih =>
    rw [List.mem_cons, not_or] at h
    rw [settle_cons, ih h.2, Function.update_of_ne h.1]

theorem IsSchedule.of_append_right (before : List Atom) (h : s.IsSchedule (before ++ names)) :
    s.IsSchedule names :=
  ⟨h.nodup.of_append_right, (List.pairwise_append.mp h.pairwise).2.1, fun w hw =>
    h.irrefl w (List.mem_append_right _ hw)⟩

theorem IsSchedule.tail (h : s.IsSchedule (u :: names)) : s.IsSchedule names :=
  of_append_right [u] h

/-- The first equation of a schedule reads none of its names. -/
theorem IsSchedule.not_mem_of_mem_references (h : s.IsSchedule (u :: names))
    (hrhs : s.get? u = some rhs) {w : Atom} (hw : w ∈ rhs.toArg.references) : w ∉ u :: names := by
  have hgraph := (mem_dependencyGraph_iff hrhs).mpr hw
  intro hmem
  rcases List.mem_cons.mp hmem with rfl | hmem
  · exact h.irrefl w List.mem_cons_self hgraph
  · exact (List.pairwise_cons.mp h.pairwise).1 w hmem hgraph

/-- An equation that reads neither its own name nor a later one holds in the end. -/
theorem settle_eq_of_split {before behind : List Atom} (hnames : names = before ++ u :: behind)
    (hu : u ∉ behind) (hrhs : s.get? u = some rhs)
    (hreads : ∀ w ∈ rhs.toArg.references, w ∉ u :: behind) :
    s.settle M names σ u = rhs.eval M (s.settle M names σ) := by
  rw [hnames, settle_append, settle_cons, hrhs, Option.map_some, Option.getD_some,
    settle_of_not_mem hu, Function.update_self]
  refine (Term.eval_congr fun w hw => ?_).symm
  have hw := hreads w hw
  rw [List.mem_cons, not_or] at hw
  rw [settle_of_not_mem hw.2, Function.update_of_ne hw.1]

/-- The equations of a schedule hold once it is settled. -/
theorem IsSchedule.settle_eq (h : s.IsSchedule names) (hname : name ∈ names)
    (hrhs : s.get? name = some rhs) :
    s.settle M names σ name = rhs.eval M (s.settle M names σ) := by
  obtain ⟨before, behind, rfl⟩ := List.append_of_mem hname
  have hrest := h.of_append_right before
  exact settle_eq_of_split rfl (List.nodup_cons.mp hrest.nodup).1 hrhs fun w hw =>
    hrest.not_mem_of_mem_references hrhs hw

/-- What the names of a schedule stood for before does not matter. -/
theorem IsSchedule.settle_congr (h : s.IsSchedule names)
    (hbound : ∀ u ∈ names, s.contains u = true) (hagree : ∀ w, w ∉ names → τ w = σ w) :
    s.settle M names τ = s.settle M names σ := by
  induction names generalizing σ τ with
  | nil => exact funext fun w => hagree w List.not_mem_nil
  | cons u rest ih =>
    obtain ⟨rhs, hrhs⟩ := Option.isSome_iff_exists.mp (hbound u List.mem_cons_self)
    rw [settle_cons, settle_cons]
    refine ih h.tail (fun w hw => hbound w (List.mem_cons_of_mem _ hw)) fun w hw => ?_
    by_cases hwu : w = u
    · rw [hwu, Function.update_self, Function.update_self, hrhs]
      exact Term.eval_congr fun x hx => hagree x (h.not_mem_of_mem_references hrhs hx)
    · rw [Function.update_of_ne hwu, Function.update_of_ne hwu]
      refine hagree w fun hmem => ?_
      exact (List.mem_cons.mp hmem).elim hwu hw

/-- The auxiliaries in the order of their statements, those on or below loops left out. -/
def schedule (s : EquationSet) (v : Vocabulary) : List Atom :=
  (s.groups v).auxSorted ++ (s.groups v).auxUnneeded

/-- All auxiliaries in the order of their statements. -/
def sweep (s : EquationSet) (v : Vocabulary) : List Atom :=
  (s.groups v).auxSorted ++ ((s.groups v).auxCyclic ++ (s.groups v).auxUnneeded)

theorem mem_sweep {v : Vocabulary} : name ∈ s.sweep v ↔ name ∈ s.auxNames v := by
  rw [sweep, List.mem_append, List.mem_append, mem_auxNames_iff]

theorem nodup_sweep (s : EquationSet) (v : Vocabulary) : (s.sweep v).Nodup := by
  have hnodup := s.nodup_ordering v
  simp only [Classification.ordering, List.flatMap_cons, List.nodup_append',
    List.flatMap_nil, List.append_nil, List.disjoint_append_right] at hnodup
  simp only [sweep, List.nodup_append', List.disjoint_append_right]
  tauto

theorem schedule_sublist_sweep (s : EquationSet) (v : Vocabulary) :
    (s.schedule v).Sublist (s.sweep v) :=
  (List.sublist_append_right _ _).append_left _

/-- Without loops nothing is left out. -/
theorem sweep_eq_schedule {v : Vocabulary} (h : (s.groups v).auxCyclic = []) :
    s.sweep v = s.schedule v := by
  rw [sweep, h, List.nil_append, schedule]

theorem isSchedule_schedule (s : EquationSet) (v : Vocabulary) : s.IsSchedule (s.schedule v) where
  nodup := (s.nodup_sweep v).sublist (s.schedule_sublist_sweep v)
  pairwise := by
    refine List.pairwise_append.mpr ⟨s.pairwise_auxSorted v, ?_, fun u _ w hw =>
      s.not_mem_dependencyGraph_of_unneeded v hw⟩
    exact List.pairwise_of_forall_mem_list fun u _ w hw =>
      s.not_mem_dependencyGraph_of_unneeded v hw
  irrefl u hu := by
    rcases List.mem_append.mp hu with hu | hu
    · exact s.not_mem_dependencyGraph_self v hu
    · exact s.not_mem_dependencyGraph_of_unneeded v hu

/-- Without loops every auxiliary has its place in the schedule. -/
theorem mem_schedule {v : Vocabulary} (h : (s.groups v).auxCyclic = []) :
    name ∈ s.schedule v ↔ name ∈ s.auxNames v := by
  rw [schedule, List.mem_append, mem_auxNames_iff, h]
  simp

end EquationSet

variable {V : Type} (I : Interpretation V)

/-- What a vocabulary makes of an interpretation of the elements. -/
def Interpretation.meaning (v : Vocabulary) : Meaning V :=
  ⟨I.literal, fun head args => I.apply (v.resolve head) args⟩

/-- The values of the variables, by constants, state and auxiliaries. -/
def Layout.valuation (l : Layout) (constants state aux : List V) (name : Atom) : V :=
  ((l.slot? name).map fun slot =>
    Simulator.readOperand I constants state ⟨aux, []⟩ (.slot slot)).getD I.missing

/-- The simulator supports the expression. -/
def Expr.IsSupported : Expr → Prop
  | .copy _ => True
  | .apply element _ => element.refusal? = none

namespace Simulator

variable {I} {constants state : List V} {r r' : Registers V}

theorem readOperand_congr (h : r.aux = r'.aux) (o : Operand) :
    readOperand I constants state r o = readOperand I constants state r' o := by
  cases o with
  | number x => rfl
  | slot slot =>
    obtain ⟨group, index⟩ := slot
    cases group <;> simp only [readOperand, h]

theorem runStatements_append (before after : List Statement) :
    runStatements I constants state (before ++ after) r =
      match runStatements I constants state before r with
      | (.ok (), r) => runStatements I constants state after r
      | (.error e, r) => (.error e, r) := by
  induction before generalizing r with
  | nil => rfl
  | cons st rest ih =>
    rw [List.cons_append, runStatements, runStatements]
    split
    · rfl
    · exact ih

variable (I constants state r) in
theorem exists_evalExpr_iff {e : Expr} :
    (∃ x, evalExpr I constants state r e = .ok x) ↔ e.IsSupported := by
  cases e with
  | copy o => exact iff_of_true ⟨_, rfl⟩ trivial
  | apply element args =>
    rw [evalExpr, Interpretation.applyElement, Expr.IsSupported]
    cases element.refusal? with
    | none => exact iff_of_true ⟨_, rfl⟩ rfl
    | some e =>
      constructor
      · rintro ⟨x, hx⟩
        cases hx
      · intro hnone
        cases hnone

variable (I constants state r) in
/-- Statements run through when their elements are supported. -/
theorem runStatements_eq_ok_iff {statements : List Statement} :
    (runStatements I constants state statements r).1 = .ok () ↔
      ∀ st ∈ statements, st.expr.IsSupported := by
  induction statements generalizing r with
  | nil => exact ⟨fun _ => nofun, fun _ => rfl⟩
  | cons st rest ih =>
    rw [runStatements, List.forall_mem_cons,
      ← exists_evalExpr_iff I constants state r]
    split
    · rename_i e he
      rw [he]
      exact iff_of_false nofun fun h => nomatch h.1
    · rename_i x hx
      rw [ih, hx]
      exact (and_iff_right ⟨x, rfl⟩).symm

/-- An evaluation runs all statements and changes nothing but the auxiliaries. -/
theorem evaluate_run (sim : Simulator V) :
    (evaluate I state).run sim =
      (match runStatements I sim.constants state sim.program.statements
          ⟨sim.aux, List.replicate sim.program.layout.state.size I.zero⟩ with
        | (.ok (), r) => (.ok r.derivative, { sim with aux := r.aux })
        | (.error e, r) => (.error (.compile e), { sim with aux := r.aux })) := by
  simp only [evaluate, ExceptT.run, ExceptT.mk]
  generalize runStatements I sim.constants state sim.program.statements
    ⟨sim.aux, List.replicate sim.program.layout.state.size I.zero⟩ = outcome
  obtain ⟨_ | _, r⟩ := outcome <;> rfl

end Simulator

open Simulator

/-- The values of the variables once the auxiliaries are settled. -/
def EquationSet.settled (s : EquationSet) (v : Vocabulary) (constants state : List V) : Atom → V :=
  s.settle (I.meaning v) (s.schedule v) ((s.groups v).layout.valuation I constants state [])

section Assembled

variable {I} {s : EquationSet} {v : Vocabulary} {constants state : List V} {r : Registers V}
  {name : Atom} {rhs : Term}

/-- Reading an operand is evaluating what it stands for. -/
theorem readOperand_eq {a : Assembly} {x : Arg} {o : Operand} (hx : x.isSimple = true)
    (ho : a.operand name x = .ok o) :
    readOperand I constants state r o =
      x.eval (I.meaning a.vocabulary) (a.layout.valuation I constants state r.aux) := by
  cases x with
  | number y =>
    cases ho
    rw [Arg.eval_number]
    rfl
  | node head tail =>
    rw [Arg.isSimple_node, List.isEmpty_iff] at hx
    subst hx
    obtain ⟨slot, hslot, rfl⟩ := Assembly.variableOperand_eq_ok_iff.mp ho
    rw [Arg.eval_variable, Layout.valuation, hslot]
    exact readOperand_congr rfl _

theorem map_readOperand_eq {a : Assembly} {args : List Arg} {os : List Operand}
    (hargs : ∀ x ∈ args, x.isSimple = true)
    (hos : List.Forall₂ (fun x o => a.operand name x = .ok o) args os) :
    os.map (readOperand I constants state r) = args.map
      (Arg.eval (I.meaning a.vocabulary) (a.layout.valuation I constants state r.aux)) := by
  induction hos with
  | nil => rfl
  | cons ho _ ih =>
    rw [List.forall_mem_cons] at hargs
    rw [List.map_cons, List.map_cons, readOperand_eq hargs.1 ho, ih hargs.2]

variable (I constants state r) in
/-- The expression of an auxiliary has the value of its right-hand side. -/
theorem evalExpr_eq {a : Assembly} {e : Expr} (hflat : rhs.isFlat = true)
    (he : a.expression name rhs = .ok e) (hsupported : e.IsSupported) :
    evalExpr I constants state r e =
      .ok (rhs.eval (I.meaning a.vocabulary) (a.layout.valuation I constants state r.aux)) := by
  rcases Assembly.expression_eq_ok_iff.mp he with ⟨hvar, slot, hslot, rfl⟩ | ⟨hvar, -, os, hos, rfl⟩
  · rw [evalExpr, Term.eq_var_of_isVariable hvar]
    have ho : a.operand name (Term.var rhs.head).toArg = .ok (.slot slot) :=
      Assembly.variableOperand_eq_ok_iff.mpr ⟨slot, hslot, rfl⟩
    exact congrArg Except.ok (readOperand_eq rfl ho)
  · have hne : rhs.tail ≠ [] := List.isEmpty_eq_false_iff.mp hvar
    rw [evalExpr, Interpretation.applyElement, show _ = none from hsupported,
      map_readOperand_eq (Term.isFlat_iff.mp hflat) hos]
    exact congrArg Except.ok (Arg.eval_application (I.meaning a.vocabulary) _ rhs.head hne).symm

variable (s v)

/-- Assigning an auxiliary changes its value and no other. -/
theorem valuation_set {aux : List V} {i : Nat} {x : V}
    (hi : (s.groups v).layout.aux.indexOf? name = some i) (hlength : i < aux.length) :
    (s.groups v).layout.valuation I constants state (aux.set i x) =
      Function.update ((s.groups v).layout.valuation I constants state aux) name x := by
  funext w
  by_cases hw : w = name
  · rw [hw, Function.update_self, Layout.valuation, s.slot?_auxiliary v hi]
    simp [readOperand, hlength]
  · rw [Function.update_of_ne hw, Layout.valuation, Layout.valuation]
    cases hslot : (s.groups v).layout.slot? w with
    | none => rfl
    | some slot =>
      obtain ⟨group, j⟩ := slot
      cases group with
      | state => rfl
      | derivative => rfl
      | constant => rfl
      | aux =>
        have hij : i ≠ j := by
          rintro rfl
          rw [Record.indexOf?_eq_some_iff] at hi
          have hj := Record.indexOf?_eq_some_iff.mp (Layout.indexOf?_of_slot?_aux hslot)
          exact hw (Option.some.inj (hj.symm.trans hi))
        simp [readOperand, hij]

variable (I constants state r) in
/-- Statements of auxiliaries settle their equations. -/
theorem runStatements_auxiliaries {names : List Atom} {statements : List Statement}
    (hflat : ∀ name rhs, s.get? name = some rhs → rhs.isFlat = true)
    (h : List.Forall₂ (fun n st => Assembly.auxiliary ⟨v, s, (s.groups v).layout⟩ n = .ok st)
      names statements)
    (hlength : r.aux.length = (s.groups v).layout.aux.size)
    (hsupported : ∀ st ∈ statements, st.expr.IsSupported) :
    ∃ aux, runStatements I constants state statements r = (.ok (), { r with aux }) ∧
      aux.length = (s.groups v).layout.aux.size ∧
      (s.groups v).layout.valuation I constants state aux =
        s.settle (I.meaning v) names ((s.groups v).layout.valuation I constants state r.aux) := by
  induction h generalizing r with
  | nil => exact ⟨r.aux, rfl, hlength, rfl⟩
  | @cons name st names statements hst _ ih =>
    rw [List.forall_mem_cons] at hsupported
    obtain ⟨rhs, expr, i, hrhs, hexpr, hi, rfl⟩ := Assembly.auxiliary_eq_ok_iff.mp hst
    have hbound : i < r.aux.length := by
      rw [hlength]
      exact (List.getElem?_eq_some_iff.mp (Record.indexOf?_eq_some_iff.mp hi)).1
    have hvalue := evalExpr_eq I constants state r (hflat name rhs hrhs) hexpr hsupported.1
    set x := rhs.eval (I.meaning v) ((s.groups v).layout.valuation I constants state r.aux)
      with hx
    obtain ⟨aux, hrun, hlength', hsettle⟩ := ih { r with aux := r.aux.set i x }
      ((List.length_set ..).trans hlength) hsupported.2
    refine ⟨aux, ?_, hlength', ?_⟩
    · rw [runStatements, hvalue]
      exact hrun
    · rw [hsettle, valuation_set s v hi hbound, EquationSet.settle_cons, hrhs]
      rfl

variable (I constants state r) in
/-- The statement of a derivative computes the slope of its equation. -/
theorem evalExpr_derivative {e : Assembly.Evolution}
    (hflat : ∀ name rhs, s.get? name = some rhs → rhs.isFlat = true)
    (he : Assembly.evolution ⟨v, s, (s.groups v).layout⟩ name = .ok e)
    (hsupported : e.derivative.expr.IsSupported) :
    ∃ rhs i, s.get? name = some rhs ∧ (s.groups v).layout.state.indexOf? name = some i ∧
      e.derivative.target = ⟨.derivative, i⟩ ∧
      evalExpr I constants state r e.derivative.expr = .ok (rhs.slope (I.meaning v)
        ((s.groups v).layout.valuation I constants state r.aux)) := by
  obtain ⟨rhs, initial, step, inputs, i, args, hrhs, -, htail, -, -, -, hi, hargs, hstatement⟩ :=
    Assembly.evolution_eq_ok_iff.mp he
  have hsimple : ∀ x ∈ inputs.reverse, x.isSimple = true := fun x hx => by
    refine Term.isFlat_iff.mp (hflat name rhs hrhs) x ?_
    rw [← List.mem_reverse, htail]
    exact List.mem_cons_of_mem _ (List.mem_cons_of_mem _ (List.mem_reverse.mp hx))
  rw [hstatement] at hsupported ⊢
  refine ⟨rhs, i, hrhs, hi, rfl, ?_⟩
  rw [evalExpr, Interpretation.applyElement, show _ = none from hsupported,
    map_readOperand_eq hsimple hargs, Term.slope, Term.inputs_of_reverse htail]
  rfl

/-- The next slope takes its place behind those that are done. -/
theorem set_slopes {M : Meaning V} {done : List Atom} {σ : Atom → V} (x : V) (rest : List V)
    (hrhs : s.get? name = some rhs) :
    (s.slopes M done σ ++ x :: rest).set done.length (rhs.slope M σ) =
      s.slopes M (done ++ [name]) σ ++ rest := by
  have hlength : (s.slopes M done σ).length = done.length := List.length_map _
  rw [← hlength, List.set_append_right _ _ (Nat.le_refl _), Nat.sub_self, List.set_cons_zero,
    EquationSet.slopes, EquationSet.slopes, List.map_append, List.append_assoc]
  simp [hrhs]

/-- Statements of derivatives, in the order of the state, leave the auxiliaries alone. -/
theorem runStatements_derivatives {done names : List Atom} {evolutions : List Assembly.Evolution}
    {rest : List V} {σ : Atom → V}
    (hflat : ∀ name rhs, s.get? name = some rhs → rhs.isFlat = true)
    (hσ : σ = (s.groups v).layout.valuation I constants state r.aux)
    (hfields : (s.groups v).layout.state.fields = done ++ names)
    (h : List.Forall₂ (fun n e => Assembly.evolution ⟨v, s, (s.groups v).layout⟩ n = .ok e)
      names evolutions)
    (hderivative : r.derivative = s.slopes (I.meaning v) done σ ++ rest)
    (hlength : rest.length = names.length)
    (hsupported : ∀ e ∈ evolutions, e.derivative.expr.IsSupported) :
    runStatements I constants state (evolutions.map Assembly.Evolution.derivative) r =
      (.ok (), { r with derivative := s.slopes (I.meaning v) (done ++ names) σ }) := by
  induction h generalizing done rest r with
  | nil =>
    rw [List.length_nil, List.length_eq_zero_iff] at hlength
    rw [hlength, List.append_nil] at hderivative
    rw [List.append_nil, ← hderivative]
    rfl
  | @cons name e names evolutions he _ ih =>
    rw [List.forall_mem_cons] at hsupported
    obtain ⟨rhs, i, hrhs, hi, htarget, hvalue⟩ :=
      evalExpr_derivative I s v constants state r hflat he hsupported.1
    obtain ⟨x, rest, rfl⟩ := List.exists_cons_of_length_eq_add_one hlength
    have hdone : i = done.length := by
      have hi' := Record.indexOf?_eq_some_iff.mp hi
      have hdone' : (s.groups v).layout.state.fields[done.length]? = some name := by
        simp [hfields]
      exact (List.getElem?_inj (List.getElem?_eq_some_iff.mp hi').1
        (s.groups v).layout.state.nodup).mp (hi'.trans hdone'.symm)
    have hset : r.derivative.set i (rhs.slope (I.meaning v) σ) =
        s.slopes (I.meaning v) (done ++ [name]) σ ++ rest := by
      rw [hderivative, hdone, set_slopes s x rest hrhs]
    rw [← hσ] at hvalue
    rw [List.map_cons, runStatements, hvalue, htarget]
    rw [List.append_cons] at hfields ⊢
    exact ih (r := { r with derivative := r.derivative.set i _ }) hσ hfields hset
      (Nat.succ.inj hlength) hsupported.2

/-- The values of a full record are those of its fields. -/
theorem map_valuation_eq {aux : List V} (h : aux.length = (s.groups v).layout.aux.size) :
    (s.groups v).layout.aux.fields.map
      ((s.groups v).layout.valuation I constants state aux) = aux := by
  refine List.ext_getElem? fun i => ?_
  rw [List.getElem?_map]
  cases hi : (s.groups v).layout.aux.fields[i]? with
  | none =>
    rw [List.getElem?_eq_none_iff] at hi
    exact (List.getElem?_eq_none (h ▸ hi)).symm
  | some name =>
    have hslot := s.slot?_auxiliary v (Record.indexOf?_eq_some_iff.mpr hi)
    have hbound : i < aux.length := by
      rw [h]
      exact (List.getElem?_eq_some_iff.mp hi).1
    simp [Layout.valuation, hslot, readOperand, hbound]

/-- Other variables do not depend on the auxiliaries. -/
theorem valuation_of_not_mem {aux aux' : List V} (h : name ∉ s.auxNames v) :
    (s.groups v).layout.valuation I constants state aux name =
      (s.groups v).layout.valuation I constants state aux' name := by
  rw [Layout.valuation, Layout.valuation]
  cases hslot : (s.groups v).layout.slot? name with
  | none => rfl
  | some slot =>
    obtain ⟨group, i⟩ := slot
    cases group with
    | state => rfl
    | derivative => rfl
    | constant => rfl
    | aux =>
      refine absurd ((s.mem_aux v).mp (Record.exists_indexOf?_iff.mp ⟨i, ?_⟩)) h
      exact Layout.indexOf?_of_slot?_aux hslot

/-- Once the auxiliaries have their settled values, so has every variable. -/
theorem EquationSet.valuation_settled :
    (s.groups v).layout.valuation I constants state
      ((s.groups v).layout.aux.fields.map (s.settled I v constants state)) =
        s.settled I v constants state := by
  funext w
  by_cases hw : w ∈ s.auxNames v
  · obtain ⟨i, hi⟩ := Record.exists_indexOf?_iff.mpr ((s.mem_aux v).mpr hw)
    rw [Layout.valuation, s.slot?_auxiliary v hi]
    simp [readOperand, Record.indexOf?_eq_some_iff.mp hi]
  · have hschedule : w ∉ s.schedule v := fun hmem => hw ((s.mem_auxNames_iff v).mpr ?_)
    · rw [settled, settle_of_not_mem hschedule]
      exact valuation_of_not_mem s v hw
    · exact (List.mem_append.mp hmem).imp_right .inr

variable {s v} in
/-- Without loops it does not matter what the auxiliaries were before. -/
theorem EquationSet.settle_sweep
    (hbound : ∀ name ∈ (s.groups v).auxiliaries, s.contains name = true)
    (hcyclic : (s.groups v).auxCyclic = []) (aux : List V) :
    s.settle (I.meaning v) (s.sweep v) ((s.groups v).layout.valuation I constants state aux) =
      s.settled I v constants state := by
  rw [sweep_eq_schedule hcyclic]
  refine (s.isSchedule_schedule v).settle_congr (fun u hu => hbound u ?_) fun w hw => ?_
  · exact (s.mem_auxiliaries v).mpr ((mem_schedule hcyclic).mp hu)
  · exact valuation_of_not_mem s v (mt (mem_schedule hcyclic).mpr hw)

/-- No slope depends on what is unneeded. -/
theorem EquationSet.slopes_settle_unneeded (M : Meaning V) (σ : Atom → V) :
    s.slopes M (s.groups v).evolved (s.settle M (s.groups v).auxUnneeded σ) =
      s.slopes M (s.groups v).evolved σ := by
  refine List.map_congr_left fun name hname => ?_
  obtain ⟨rhs, hrhs, -⟩ := (s.mem_evolved v).mp hname
  rw [hrhs]
  refine Term.slope_congr fun w hw => settle_of_not_mem fun hmem => ?_
  exact s.not_mem_dependencyGraph_of_unneeded v hmem ((mem_dependencyGraph_iff hrhs).mpr hw)

variable {p : Program} {evolutions : List Assembly.Evolution}
  {sorted cyclic unneeded : List Statement}

theorem Program.IsAssembled.statements_eq {c : Classification}
    (h : p.IsAssembled v s c evolutions sorted cyclic unneeded) :
    p.statements = sorted ++ (cyclic ++
      (evolutions.map Assembly.Evolution.derivative ++ unneeded)) := by
  simp [Program.statements, h.blocks]

variable {s v} in
/-- An evaluation takes the equations of all auxiliaries in turn, and the derivatives are the
slopes under the outcome. -/
theorem Program.IsAssembled.evaluate_sweep
    (h : p.IsAssembled v s (s.groups v) evolutions sorted cyclic unneeded)
    (hflat : ∀ name rhs, s.get? name = some rhs → rhs.isFlat = true)
    (hsupported : ∀ st ∈ p.statements, st.expr.IsSupported)
    {sim : Simulator V} (hprogram : sim.program = p) (haux : sim.aux.length = p.layout.aux.size)
    (state : List V) :
    ∃ aux, (evaluate I state).run sim =
        (.ok (s.slopes (I.meaning v) (s.groups v).evolved
          ((s.groups v).layout.valuation I sim.constants state aux)), { sim with aux }) ∧
      aux.length = (s.groups v).layout.aux.size ∧
      (s.groups v).layout.valuation I sim.constants state aux =
        s.settle (I.meaning v) (s.sweep v)
          ((s.groups v).layout.valuation I sim.constants state sim.aux) := by
  subst hprogram
  have hstatements : sim.program.statements =
      (sorted ++ cyclic) ++ (evolutions.map Assembly.Evolution.derivative ++ unneeded) := by
    rw [h.statements_eq, List.append_assoc]
  rw [hstatements, List.forall_mem_append] at hsupported
  obtain ⟨hbefore, hsupported⟩ := hsupported
  rw [List.forall_mem_append, List.forall_mem_map] at hsupported
  obtain ⟨hderivatives, hunneeded⟩ := hsupported
  rw [h.layout] at haux
  set zeros := List.replicate sim.program.layout.state.size I.zero with hzeros
  have hauxiliaries : List.Forall₂
      (fun n st => Assembly.auxiliary ⟨v, s, (s.groups v).layout⟩ n = .ok st)
      ((s.groups v).auxSorted ++ (s.groups v).auxCyclic) (sorted ++ cyclic) :=
    List.rel_append h.auxSorted h.auxCyclic
  obtain ⟨aux₁, hrun₁, hlength₁, hsettle₁⟩ := runStatements_auxiliaries I s v
    sim.constants state ⟨sim.aux, zeros⟩ hflat hauxiliaries haux hbefore
  set σ₁ := (s.groups v).layout.valuation I sim.constants state aux₁ with hσ₁
  have hfields : (s.groups v).layout.state.fields = [] ++ (s.groups v).evolved := s.fields_state v
  have hsize : zeros.length = (s.groups v).evolved.length := by
    rw [hzeros, List.length_replicate, h.layout, Record.size, hfields, List.nil_append]
  have hrun₂ : runStatements I sim.constants state
      (evolutions.map Assembly.Evolution.derivative) ⟨aux₁, zeros⟩ =
        (.ok (), ⟨aux₁, s.slopes (I.meaning v) (s.groups v).evolved σ₁⟩) :=
    runStatements_derivatives s v hflat hσ₁ hfields h.evolution rfl hsize hderivatives
  obtain ⟨aux, hrun₃, hlength, hsettle⟩ := runStatements_auxiliaries I s v
    sim.constants state ⟨aux₁, s.slopes (I.meaning v) (s.groups v).evolved σ₁⟩ hflat h.auxUnneeded
    hlength₁ hunneeded
  have hrun : runStatements I sim.constants state sim.program.statements ⟨sim.aux, zeros⟩ =
      (.ok (), ⟨aux, s.slopes (I.meaning v) (s.groups v).evolved σ₁⟩) := by
    rw [hstatements, runStatements_append, hrun₁]
    dsimp only
    rw [runStatements_append, hrun₂]
    exact hrun₃
  refine ⟨aux, ?_, hlength, ?_⟩
  · rw [evaluate_run, ← hzeros, hrun, hsettle, s.slopes_settle_unneeded v]
  · rw [hsettle, EquationSet.sweep, ← List.append_assoc, EquationSet.settle_append]
    exact congrArg _ hsettle₁

variable {s v} in
/-- Evaluating a loop-free program settles its auxiliaries.  What they were before is
not read. -/
theorem Program.IsAssembled.evaluate_eq
    (h : p.IsAssembled v s (s.groups v) evolutions sorted cyclic unneeded)
    (hflat : ∀ name rhs, s.get? name = some rhs → rhs.isFlat = true)
    (hcyclic : (s.groups v).auxCyclic = [])
    (hsupported : ∀ st ∈ p.statements, st.expr.IsSupported)
    {sim : Simulator V} (hprogram : sim.program = p) (haux : sim.aux.length = p.layout.aux.size)
    (state : List V) :
    (evaluate I state).run sim =
      (.ok (s.slopes (I.meaning v) (s.groups v).evolved (s.settled I v sim.constants state)),
        { sim with aux := p.layout.aux.fields.map (s.settled I v sim.constants state) }) := by
  obtain ⟨aux, hrun, hlength, hsettle⟩ :=
    h.evaluate_sweep (I := I) hflat hsupported hprogram haux state
  rw [EquationSet.settle_sweep h.bound hcyclic] at hsettle
  rw [hrun, hsettle, h.layout, ← hsettle, map_valuation_eq s v hlength]

end Assembled

namespace Simulator

variable {I} {strict : Bool} {source linear : EquationSet} {v : Vocabulary} {c : Classification}
  {p : Program} {sim sim' : Simulator V} {state slopes : List V}

/-- What evaluating the program of `linear` yields: a solution of the auxiliary equations,
the derivatives under that solution, and both whatever the simulator held before beside
its constants. -/
structure Evaluates (I : Interpretation V) (v : Vocabulary) (linear : EquationSet)
    (c : Classification) (p : Program) (state slopes : List V) (sim sim' : Simulator V) :
    Prop where
  auxiliary : ∀ name ∈ c.auxiliaries, ∃ rhs, linear.get? name = some rhs ∧
    p.layout.valuation I sim.constants state sim'.aux name =
      rhs.eval (I.meaning v) (p.layout.valuation I sim.constants state sim'.aux)
  length_slopes : slopes.length = p.layout.state.size
  derivative : ∀ name i, p.layout.state.indexOf? name = some i →
    ∃ rhs, linear.get? name = some rhs ∧ (v.resolve rhs.head).isEvolving = true ∧
      slopes[i]? =
        some (rhs.slope (I.meaning v) (p.layout.valuation I sim.constants state sim'.aux))
  independent : ∀ other : Simulator V, other.program = p → other.constants = sim.constants →
    other.aux.length = p.layout.aux.size →
      (evaluate I state).run other = (.ok slopes, { other with aux := sim'.aux })

/-- Evaluating a loop-free program solves its equations. -/
theorem evaluates_of_evaluate (hlinear : source.linearize strict = .ok linear)
    (hclassify : linear.classify v = .ok c) (hcyclic : c.auxCyclic = [])
    (hassemble : Program.assemble v linear c = .ok p) (hprogram : sim.program = p)
    (haux : sim.aux.length = p.layout.aux.size)
    (hrun : (evaluate I state).run sim = (.ok slopes, sim')) :
    Evaluates I v linear c p state slopes sim sim' := by
  obtain ⟨n, hn⟩ := EquationSet.exists_isLinearization hlinear
  obtain rfl := linear.groups_of_classify v hclassify
  obtain ⟨evolutions, sorted, cyclic, unneeded, h⟩ := Program.assemble_eq_ok_iff.mp hassemble
  have hsupported : ∀ st ∈ p.statements, st.expr.IsSupported := by
    rw [← hprogram, ← runStatements_eq_ok_iff I sim.constants state
      ⟨sim.aux, List.replicate sim.program.layout.state.size I.zero⟩]
    rw [evaluate_run] at hrun
    split at hrun
    · rename_i hok
      rw [hok]
    · cases hrun
  have heval := h.evaluate_eq (I := I) (fun _ _ => hn.isFlat) hcyclic hsupported hprogram haux state
  rw [hrun] at heval
  obtain ⟨hslopes, hsim⟩ := Prod.mk.inj heval
  cases hslopes
  have haux' : sim'.aux = p.layout.aux.fields.map (linear.settled I v sim.constants state) := by
    rw [hsim]
  have hvaluation : p.layout.valuation I sim.constants state sim'.aux =
      linear.settled I v sim.constants state := by
    rw [haux', h.layout, linear.valuation_settled]
  constructor
  case auxiliary =>
    intro name hname
    rw [hvaluation]
    obtain ⟨rhs, hrhs⟩ := Option.isSome_iff_exists.mp (h.bound name hname)
    refine ⟨rhs, hrhs, (linear.isSchedule_schedule v).settle_eq ?_ hrhs⟩
    exact (EquationSet.mem_schedule hcyclic).mpr ((linear.mem_auxiliaries v).mp hname)
  case length_slopes =>
    rw [EquationSet.slopes, List.length_map, h.layout, Record.size, linear.fields_state]
  case derivative =>
    intro name i hi
    rw [h.layout, Record.indexOf?_eq_some_iff, linear.fields_state] at hi
    obtain ⟨rhs, hrhs, -, hevolving⟩ := (linear.mem_evolved v).mp (List.mem_of_getElem? hi)
    refine ⟨rhs, hrhs, hevolving, ?_⟩
    rw [hvaluation, EquationSet.slopes, List.getElem?_map, hi, Option.map_some, hrhs]
    rfl
  case independent =>
    intro other hother hconstants hlength
    rw [h.evaluate_eq (fun _ _ => hn.isFlat) hcyclic hsupported hother hlength, haux', hconstants]

/-- The circuit `x = int(neg(x), 1, 1)`. -/
def decay : EquationSet :=
  let x : Atom := ⟨['x'], .refl true⟩
  let one : Number := ⟨0x3ff0000000000000⟩
  .ofList [(x, ⟨Element.int.name, [.node Element.neg.name [.node x []], .number one, .number one]⟩)]

/-- Integers under addition; `neg` and `int` change the sign. -/
def additiveIntegers : Interpretation ℤ where
  add := (· + ·)
  mul := (· * ·)
  weight c := c.num
  literal x := x.bits.toNat
  apply _ args := -args.foldr (· + ·) 0

theorem evaluates_decay : ∃ linear c p, decay.linearize false = .ok linear ∧
    linear.classify .standard = .ok c ∧ c.auxCyclic = [] ∧
    Program.assemble .standard linear c = .ok p ∧
      let sim : Simulator ℤ := ⟨p, [], [1], [3], [7], 0⟩
      (evaluate additiveIntegers [3]).run sim = (.ok [3], { sim with aux := [-3] }) ∧
        Evaluates additiveIntegers .standard linear c p [3] [3] sim { sim with aux := [-3] } := by
  refine ⟨_, _, _, rfl, rfl, rfl, rfl, rfl, ?_⟩
  have hlinear : decay.linearize false = .ok _ := rfl
  exact evaluates_of_evaluate hlinear rfl rfl rfl rfl rfl rfl
end Simulator

end DiffAnalyzer
