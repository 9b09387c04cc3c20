import DiffAnalyzer.Proofs.Runs
import Mathlib

/-!
# Fixed points of evaluations

On a feedback loop an evaluation mixes new values with old ones.  It takes each equation
once, so that what it leaves as it was has not changed on the way either
(`EquationSet.settle_eq_self_iff`), and the auxiliaries that an evaluation leaves alone are
those that solve their equations (`Simulator.evaluate_fixes_aux_iff`).
-/

namespace DiffAnalyzer

open Simulator

variable {V : Type}

namespace EquationSet

variable {M : Meaning V} {s : EquationSet} {names : List Atom} {σ : Atom → V}

/-- Taking the equations of different names in turn changes nothing exactly when they hold
already. -/
theorem settle_eq_self_iff (hnodup : names.Nodup) (hbound : ∀ u ∈ names, s.contains u = true) :
    s.settle M names σ = σ ↔
      ∀ u ∈ names, ∃ rhs, s.get? u = some rhs ∧ σ u = rhs.eval M σ := by
  induction names with
  | nil => exact ⟨fun _ => nofun, fun _ => rfl⟩
  | cons u rest ih =>
    obtain ⟨hu, hrest⟩ := List.nodup_cons.mp hnodup
    rw [List.forall_mem_cons] at hbound
    obtain ⟨rhs, hrhs⟩ := Option.isSome_iff_exists.mp hbound.1
    have ih := ih hrest hbound.2
    rw [settle_cons, hrhs, Option.map_some, Option.getD_some, List.forall_mem_cons]
    constructor
    · intro hfixed
      -- No later equation is that of `u`, which has its final value at once.
      have hvalue : rhs.eval M σ = σ u := by
        have hlast := congrFun hfixed u
        rwa [settle_of_not_mem hu, Function.update_self] at hlast
      rw [hvalue, Function.update_eq_self] at hfixed
      exact ⟨⟨rhs, hrhs, hvalue.symm⟩, ih.mp hfixed⟩
    · rintro ⟨⟨rhs', hrhs', hvalue⟩, hothers⟩
      cases hrhs.symm.trans hrhs'
      rw [← hvalue, Function.update_eq_self]
      exact ih.mpr hothers

/-- Auxiliaries with the same values of all variables are the same. -/
theorem valuation_inj (s : EquationSet) (v : Vocabulary) (I : Interpretation V)
    (constants state : List V) {aux aux' : List V}
    (hlength : aux.length = (s.groups v).layout.aux.size)
    (hlength' : aux'.length = (s.groups v).layout.aux.size) :
    (s.groups v).layout.valuation I constants state aux =
        (s.groups v).layout.valuation I constants state aux' ↔ aux = aux' := by
  refine ⟨fun hvaluation => ?_, fun haux => by rw [haux]⟩
  have hfields := congrArg (s.groups v).layout.aux.fields.map hvaluation
  rwa [map_valuation_eq s v hlength, map_valuation_eq s v hlength'] at hfields

end EquationSet

/-- An evaluation that succeeds has taken the equations of all auxiliaries in turn and yields
the slopes for the outcome. -/
theorem Program.IsAssembled.settles_of_evaluate {I : Interpretation V} {v : Vocabulary}
    {l : EquationSet} {p : Program} {evolutions : List Assembly.Evolution}
    {sorted cyclic unneeded : List Statement} {sim sim' : Simulator V} {state slopes : List V}
    (h : p.IsAssembled v l (l.groups v) evolutions sorted cyclic unneeded)
    (hflat : ∀ name rhs, l.get? name = some rhs → rhs.isFlat = true)
    (hprogram : sim.program = p) (haux : sim.aux.length = p.layout.aux.size)
    (hrun : (evaluate I state).run sim = (.ok slopes, sim')) :
    let σ := p.layout.valuation I sim.constants state sim'.aux
    slopes = l.slopes (I.meaning v) (l.groups v).evolved σ ∧
      sim'.aux.length = p.layout.aux.size ∧
      σ = l.settle (I.meaning v) (l.sweep v)
        (p.layout.valuation I sim.constants state sim.aux) := by
  have hsupported : ∀ st ∈ p.statements, st.expr.IsSupported := by
    rw [← hprogram]
    exact isSupported_of_evaluate (congrArg Prod.fst hrun)
  obtain ⟨aux, heval, hlength, hsettle⟩ :=
    h.evaluate_sweep (I := I) hflat hsupported hprogram haux state
  rw [hrun] at heval
  obtain ⟨hslopes, rfl⟩ := Prod.mk.inj heval
  rw [h.layout]
  exact ⟨Except.ok.inj hslopes, hlength, hsettle⟩

namespace Simulator

variable (I : Interpretation V) (v : Vocabulary) (l : EquationSet)

/-- The auxiliaries of the simulator have the values of their right-hand sides. -/
def SolvesAuxiliaries (c : Classification) (state : List V) (sim : Simulator V) : Prop :=
  let σ := sim.program.layout.valuation I sim.constants state sim.aux
  ∀ name ∈ c.auxiliaries, ∃ rhs, l.get? name = some rhs ∧ σ name = rhs.eval (I.meaning v) σ

/-- The evolved variables change as their equations say for the values that the simulator
holds. -/
def HasSlopes (state : List V) (sim : Simulator V) (slopes : List V) : Prop :=
  let σ := sim.program.layout.valuation I sim.constants state sim.aux
  slopes.length = sim.program.layout.state.size ∧
    ∀ name i, sim.program.layout.state.indexOf? name = some i → ∃ rhs,
      l.get? name = some rhs ∧ (v.resolve rhs.head).isEvolving = true ∧
        slopes[i]? = some (rhs.slope (I.meaning v) σ)

variable {I v l} {strict : Bool} {source : EquationSet} {c : Classification} {p : Program}
  {sim sim' : Simulator V} {state slopes : List V}

/-- Whatever loops there are, an evaluation leaves the auxiliaries as they were exactly when
they solve their equations, and then yields the derivatives for these values. -/
theorem evaluate_fixes_aux_iff (hlinear : source.linearize strict = .ok l)
    (hclassify : l.classify v = .ok c) (hassemble : Program.assemble v l c = .ok p)
    (hprogram : sim.program = p) (haux : sim.aux.length = p.layout.aux.size)
    (hrun : (evaluate I state).run sim = (.ok slopes, sim')) :
    (sim'.aux = sim.aux ↔ sim.SolvesAuxiliaries I v l c state) ∧
      (sim'.aux = sim.aux → sim.HasSlopes I v l state slopes) := by
  obtain ⟨n, hn⟩ := EquationSet.exists_isLinearization hlinear
  obtain rfl := l.groups_of_classify v hclassify
  obtain ⟨evolutions, sorted, cyclic, unneeded, h⟩ := Program.assemble_eq_ok_iff.mp hassemble
  obtain ⟨rfl, hlength, hsettle⟩ := h.settles_of_evaluate (fun _ _ => hn.isFlat) hprogram haux hrun
  have hlayout : sim.program.layout = (l.groups v).layout := by rw [hprogram, h.layout]
  rw [h.layout] at haux hlength hsettle
  constructor
  · have hbound : ∀ u ∈ l.sweep v, l.contains u = true := fun u hu =>
      h.bound u ((l.mem_auxiliaries v).mpr (EquationSet.mem_sweep.mp hu))
    rw [← l.valuation_inj v I sim.constants state hlength haux, hsettle,
      EquationSet.settle_eq_self_iff (l.nodup_sweep v) hbound, SolvesAuxiliaries, hlayout]
    simp only [EquationSet.mem_sweep, l.mem_auxiliaries v]
  · intro hfixed
    rw [HasSlopes, hlayout, h.layout, hfixed]
    refine ⟨?_, fun name i hi => ?_⟩
    · rw [EquationSet.slopes, List.length_map, Record.size, l.fields_state]
    · rw [Record.indexOf?_eq_some_iff, l.fields_state] at hi
      obtain ⟨rhs, hrhs, -, hevolving⟩ := (l.mem_evolved v).mp (List.mem_of_getElem? hi)
      refine ⟨rhs, hrhs, hevolving, ?_⟩
      rw [EquationSet.slopes, List.getElem?_map, hi, Option.map_some, hrhs]
      rfl

/-- The circuit `a = neg(b)`, `b = neg(a)`, `y = int(a, 1, 1)`. -/
def mirror : EquationSet :=
  let a : Atom := ⟨['a'], .refl true⟩
  let b : Atom := ⟨['b'], .refl true⟩
  let one : Number := ⟨0x3ff0000000000000⟩
  .ofList [(a, ⟨Element.neg.name, [.node b []]⟩), (b, ⟨Element.neg.name, [.node a []]⟩),
    (⟨['y'], .refl true⟩, ⟨Element.int.name, [.node a [], .number one, .number one]⟩)]

theorem evaluate_fixes_aux_iff_mirror : ∃ linear c p, mirror.linearize false = .ok linear ∧
    linear.classify .standard = .ok c ∧ c.auxCyclic ≠ [] ∧
    Program.assemble .standard linear c = .ok p ∧
      let sim : Simulator ℤ := ⟨p, [], [1], [1], [5, -5], 0⟩
      (evaluate additiveIntegers [1]).run sim = (.ok [-5], sim) ∧
        sim.SolvesAuxiliaries additiveIntegers .standard linear c [1] ∧
        sim.HasSlopes additiveIntegers .standard linear [1] [-5] := by
  refine ⟨_, _, _, rfl, rfl, List.cons_ne_nil _ _, rfl, ?_⟩
  intro sim
  have hlinear : mirror.linearize false = .ok _ := rfl
  have hrun : (evaluate additiveIntegers [1]).run sim = (.ok [-5], sim) := rfl
  obtain ⟨hsolves, hslopes⟩ := evaluate_fixes_aux_iff (v := .standard) hlinear rfl rfl rfl rfl hrun
  exact ⟨hrun, hsolves.mp rfl, hslopes rfl⟩

end Simulator

end DiffAnalyzer
