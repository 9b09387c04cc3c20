import DiffAnalyzer.Proofs.Consistency
import DiffAnalyzer.Proofs.Stepping
import Mathlib

/-!
# Values of loop-free programs

In a loop-free program the constants in use and the state fix the values of all
variables (`EquationSet.settled`): constants and evolved variables have those of their
fields, auxiliaries those of their right-hand sides, and a step size or initial value is
that of its argument.  A simulator that has just evaluated shows these values
(`Program.IsLoopFree.value?_eq`).
-/

namespace DiffAnalyzer

open Simulator

variable {V : Type} {I : Interpretation V}

/-- The program of a set in linear form without loops between auxiliaries. -/
structure Program.IsLoopFree (v : Vocabulary) (l : EquationSet) (p : Program) : Prop where
  flat : ∀ name rhs, l.get? name = some rhs → rhs.isFlat = true
  assembled : ∃ evolutions sorted cyclic unneeded,
    p.IsAssembled v l (l.groups v) evolutions sorted cyclic unneeded
  acyclic : (l.groups v).auxCyclic = []

namespace EquationSet

variable {l : EquationSet} {v : Vocabulary} {constants state : List V} {name : Atom} {i : Nat}

theorem binds_of_application {head : Atom} {tail : List Arg} {q : Element → Bool}
    (hname : l.get? name = some ⟨head, tail⟩) (hne : tail ≠ [])
    (hhead : q (v.resolve head) = true) : l.Binds v q name :=
  ⟨_, hname, Term.isCompound_iff_ne_nil.mpr hne, hhead⟩

theorem settled_of_not_mem (haux : name ∉ l.auxNames v) :
    l.settled I v constants state name =
      (l.groups v).layout.valuation I constants state [] name :=
  settle_of_not_mem fun hmem =>
    haux ((l.mem_auxNames_iff v).mpr ((List.mem_append.mp hmem).imp_right .inr))

theorem settled_evolved (hi : (l.groups v).layout.state.indexOf? name = some i) :
    l.settled I v constants state name = state.getD i I.missing := by
  have hevolving := (l.mem_state v).mp (Record.exists_indexOf?_iff.mp ⟨i, hi⟩)
  rw [settled_of_not_mem fun haux => ((l.mem_auxNames v).mp haux).2.1 hevolving, Layout.valuation,
    Layout.slot?_of_state hi]
  rfl

theorem settled_constant (hi : (l.groups v).layout.constants.indexOf? name = some i) :
    l.settled I v constants state name = constants.getD i I.missing := by
  have hconstant := (l.mem_constantFields v).mp (Record.exists_indexOf?_iff.mp ⟨i, hi⟩)
  rw [settled_of_not_mem fun haux => ((l.mem_auxNames v).mp haux).2.2 hconstant, Layout.valuation,
    l.slot?_constant v hi]
  rfl

/-- The derivative of an evolved variable is the slope of its equation. -/
theorem getElem?_derivatives {rhs : Term}
    (hi : (l.groups v).layout.state.indexOf? name = some i) (hrhs : l.get? name = some rhs) :
    (l.derivatives v I constants state)[i]? =
      some (rhs.slope (I.meaning v) (l.settled I v constants state)) := by
  rw [Record.indexOf?_eq_some_iff, fields_state] at hi
  rw [derivatives, slopes, List.getElem?_map, hi, Option.map_some, hrhs]
  rfl

end EquationSet

namespace Program.IsLoopFree

variable {l : EquationSet} {v : Vocabulary} {p : Program} {constants state : List V}
  {name w : Atom} {rhs : Term} {i : Nat} (h : p.IsLoopFree v l)
include h

theorem isConsistent : p.IsConsistent :=
  Program.isConsistent_of_assemble (l.classify_eq v) (Program.assemble_eq_ok_iff.mpr h.assembled)

theorem wellFormed : l.WellFormed v := by
  obtain ⟨_, _, _, _, hp⟩ := h.assembled
  exact hp.wellFormed h.flat

/-- Auxiliaries have the values of their right-hand sides. -/
theorem settled_auxiliary (haux : name ∈ l.auxNames v) (hrhs : l.get? name = some rhs) :
    l.settled I v constants state name =
      rhs.eval (I.meaning v) (l.settled I v constants state) :=
  (l.isSchedule_schedule v).settle_eq ((EquationSet.mem_schedule h.acyclic).mpr haux) hrhs

/-- A name that is bound to another has its value. -/
theorem settled_alias (halias : l.get? name = some (.var w)) :
    l.settled I v constants state name = l.settled I v constants state w := by
  rw [h.settled_auxiliary (l.mem_auxNames_of_get?_var v halias) halias]
  exact Arg.eval_variable ..

/-- A name bound to a constant has a field with its literal. -/
theorem exists_constant {head : Atom} {x : Number} (hname : l.get? name = some ⟨head, [.number x]⟩)
    (hhead : (v.resolve head).isConstant = true) : ∃ i,
    (l.groups v).layout.constants.indexOf? name = some i ∧ p.constantValues[i]? = some x := by
  obtain ⟨_, _, _, _, hp⟩ := h.assembled
  have hbinds := EquationSet.binds_of_application hname (List.cons_ne_nil _ _) hhead
  obtain ⟨i, hi⟩ := Record.exists_indexOf?_iff.mpr ((l.mem_constantFields v).mpr hbinds)
  obtain ⟨rhs, y, hrhs, -, htail, hy⟩ := hp.constantValue_of_indexOf? hi
  cases hname.symm.trans hrhs
  cases htail
  exact ⟨i, hi, hy⟩

/-- A measure falls from names to those they are bound to, and from auxiliaries to the
arguments of their applications. -/
theorem exists_measure : ∃ μ : Atom → Nat,
    (∀ u w, l.get? u = some (.var w) → μ w < μ u) ∧
      ∀ u head tail w, u ∈ l.auxNames v → l.get? u = some ⟨head, tail⟩ → .node w [] ∈ tail →
        μ w < μ u := by
  obtain ⟨μ, hμ⟩ := l.exists_measure v h.acyclic
  refine ⟨μ, fun u w hu => ?_, fun u head tail w haux hu hw => ?_⟩
  · exact hμ u w (l.mem_auxNames_of_get?_var v hu)
      ((EquationSet.mem_dependencyGraph_iff hu).mpr List.mem_cons_self)
  · refine hμ u w haux ((EquationSet.mem_dependencyGraph_iff hu).mpr ?_)
    exact Arg.mem_references_node.mpr (.inr ⟨_, hw, List.mem_cons_self⟩)

/-- The constant that a name stands for gives it its value. -/
theorem settled_constantBehind? {steps : Nat}
    (hi : Assembly.constantBehind? ⟨v, l, (l.groups v).layout⟩ steps name = some i) :
    l.settled I v constants state name = constants.getD i I.missing := by
  obtain ⟨k, hsteps, hk⟩ := Assembly.exists_alias_of_constantBehind? hi
  clear hi
  induction hsteps using Relation.ReflTransGen.head_induction_on with
  | refl => exact EquationSet.settled_constant hk
  | head halias _ ih => exact (h.settled_alias halias).trans ih

/-- A step size or an initial value is the value of its argument. -/
theorem resolve_eq_eval {role : ParameterRole} {a : Arg} {q : Parameter}
    (ha : a.isSimple = true)
    (hq : Assembly.parameter ⟨v, l, (l.groups v).layout⟩ name role a = .ok q) :
    resolve I constants q = a.eval (I.meaning v) (l.settled I v constants state) := by
  cases a with
  | number x =>
    cases hq
    rw [Arg.eval_number]
    rfl
  | node head tail =>
    rw [Arg.isSimple_node, List.isEmpty_iff] at ha
    subst ha
    obtain ⟨i, hi, rfl⟩ := Assembly.parameter_variable_eq_ok_iff.mp hq
    rw [Arg.eval_variable, h.settled_constantBehind? hi]
    rfl

variable (I constants state) in
/-- An evolved variable starts from its last argument and has the one before as its step
size. -/
theorem exists_parameters (hi : (l.groups v).layout.state.indexOf? name = some i) :
    ∃ rhs initial step inputs, l.get? name = some rhs ∧
      rhs.tail.reverse = initial :: step :: inputs ∧
      (p.initial.map (resolve I constants))[i]? =
        some (initial.eval (I.meaning v) (l.settled I v constants state)) ∧
      (p.steps.map (resolve I constants))[i]? =
        some (step.eval (I.meaning v) (l.settled I v constants state)) := by
  obtain ⟨evolutions, _, _, _, hp⟩ := h.assembled
  rw [Record.indexOf?_eq_some_iff, EquationSet.fields_state] at hi
  obtain ⟨e, he, hevolution⟩ := exists_getElem?_of_forall₂ hp.evolution hi
  obtain ⟨rhs, initial, step, inputs, _, _, hrhs, -, htail, -, hstep, hinitial, -⟩ :=
    Assembly.evolution_eq_ok_iff.mp hevolution
  have hsimple : ∀ a ∈ initial :: step :: inputs, a.isSimple = true := fun a ha => by
    refine Term.isFlat_iff.mp (h.flat name rhs hrhs) a ?_
    rwa [← List.mem_reverse, htail]
  rw [List.forall_mem_cons, List.forall_mem_cons] at hsimple
  refine ⟨rhs, initial, step, inputs, hrhs, htail, ?_, ?_⟩
  · simp only [hp.initial, List.getElem?_map, he, Option.map_some]
    exact congrArg some (h.resolve_eq_eval hsimple.1 hinitial)
  · simp only [hp.steps, List.getElem?_map, he, Option.map_some]
    exact congrArg some (h.resolve_eq_eval hsimple.2.1 hstep)

theorem lookup?_eq (name : Atom) : p.lookup? (toString name) = (l.groups v).layout.slot? name := by
  obtain ⟨_, _, _, _, hp⟩ := h.assembled
  rw [Program.lookup?, hp.layout, Atom.ofChars?_toString]
  rfl

/-- After an evaluation every variable has its value. -/
theorem value?_eq {sim : Simulator V} (hprogram : sim.program = p)
    (hconstants : sim.constants.length = p.layout.constants.size)
    (hstate : sim.state.length = p.layout.state.size)
    (haux : sim.aux = p.layout.aux.fields.map (l.settled I v sim.constants sim.state))
    (hname : name ∈ l.vars) :
    sim.value? (toString name) = some (l.settled I v sim.constants sim.state name) := by
  have hlookup := h.lookup?_eq name
  obtain ⟨_, _, _, _, hp⟩ := h.assembled
  rw [hp.layout] at hconstants hstate haux
  have hbound : ∀ {r : Record} {i : Nat}, r.indexOf? name = some i → i < r.size := fun hi =>
    (List.getElem?_eq_some_iff.mp (Record.indexOf?_eq_some_iff.mp hi)).1
  rw [value?, hprogram, hlookup]
  rcases l.slot?_cases v hname with ⟨-, i, hi⟩ | ⟨-, i, hi⟩ | ⟨-, i, hi⟩
  · rw [Layout.slot?_of_state hi, EquationSet.settled_evolved hi]
    simp [read?, hstate ▸ hbound hi]
  · rw [l.slot?_auxiliary v hi]
    simp [read?, haux, Record.indexOf?_eq_some_iff.mp hi]
  · rw [l.slot?_constant v hi, EquationSet.settled_constant hi]
    simp [read?, hconstants ▸ hbound hi]

end Program.IsLoopFree

end DiffAnalyzer
