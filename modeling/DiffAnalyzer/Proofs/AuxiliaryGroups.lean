import DiffAnalyzer.Proofs.Classification
import DiffAnalyzer.Proofs.Cycles
import Mathlib

/-!
# The groups of auxiliaries

What the equations bind and refer to decides which variables are in each group of a
classification, and in which order (`EquationSet.classify_arranges`).  What a loop of auxiliaries
leads to from auxiliary to auxiliary is cyclic like the loop.  An integrator breaks this off: what
the loop leads to only behind one is sorted (`EquationSet.classify_sorts_behind_integrator`).
-/

namespace DiffAnalyzer

namespace EquationSet

variable (s : EquationSet) (v : Vocabulary)

/-- The right-hand side of `u` refers to `w`. -/
def RefersTo (u w : Atom) : Prop := ∃ rhs, s.get? u = some rhs ∧ w ∈ rhs.toArg.references

/-- A variable that is neither evolved nor constant. -/
structure IsAuxiliary (name : Atom) : Prop where
  occurs : (∃ rhs, s.get? name = some rhs) ∨ ∃ u, s.RefersTo u name
  not_evolved : ¬ s.Binds v Element.isEvolving name
  not_constant : ¬ s.Binds v Element.isConstant name

/-- Auxiliaries, one of which refers to the other. -/
structure AuxRefersTo (u w : Atom) : Prop where
  fst : s.IsAuxiliary v u
  snd : s.IsAuxiliary v w
  refersTo : s.RefersTo u w

end EquationSet

/-- What the groups of a classification hold, and in which order. -/
structure Classification.Arranges (c : Classification) (s : EquationSet) (v : Vocabulary) :
    Prop where
  mem_constants : ∀ name, name ∈ c.constants ↔ s.Binds v Element.isConstant name
  mem_evolved : ∀ name, name ∈ c.evolved ↔ s.Binds v Element.isEvolving name
  /-- Cyclic are the auxiliaries of the cycles of auxiliaries and what these lead to from
  auxiliary to auxiliary. -/
  mem_auxCyclic : ∀ name, name ∈ c.auxCyclic ↔ ∃ cycle, IsCycle (s.AuxRefersTo v) cycle ∧
    (name ∈ cycle ∨ ∃ u ∈ cycle, Relation.TransGen (s.AuxRefersTo v) u name)
  /-- Unneeded are the auxiliaries to which no equation refers and that refer to no auxiliary. -/
  mem_auxUnneeded : ∀ name, name ∈ c.auxUnneeded ↔ s.IsAuxiliary v name ∧
    (∀ u, ¬ s.RefersTo u name) ∧ ∀ w, s.RefersTo name w → ¬ s.IsAuxiliary v w
  mem_auxSorted : ∀ name, name ∈ c.auxSorted ↔
    s.IsAuxiliary v name ∧ name ∉ c.auxCyclic ∧ name ∉ c.auxUnneeded
  nodup_auxSorted : c.auxSorted.Nodup
  /-- What refers to a sorted auxiliary is sorted and comes after it, if it is one itself. -/
  after : ∀ u w, s.RefersTo u w → w ∈ c.auxSorted →
    u ∈ c.evolved ∨ u ∈ c.constants ∨ [w, u].Sublist c.auxSorted
  constants_sorted : c.constants.Pairwise fun a b => compare a b = .lt
  evolved_sorted : c.evolved.Pairwise fun a b => compare a b = .lt
  auxUnneeded_sorted : c.auxUnneeded.Pairwise fun a b => compare a b = .lt

namespace EquationSet

variable {s : EquationSet} {v : Vocabulary} {u w name : Atom}

theorem refersTo_iff : s.RefersTo u w ↔ (u, w) ∈ s.dependencyGraph := by
  simp only [RefersTo, mem_dependencyGraph, SortedMap.get?_eq_some_iff, Term.mem_dependencies]

theorem isAuxiliary_iff : s.IsAuxiliary v name ↔ name ∈ s.auxNames v := by
  rw [mem_auxNames, mem_vars, SortedMap.mem_keys_iff]
  simp only [← refersTo_iff]
  constructor
  · rintro ⟨hoccurs, he, hc⟩
    exact ⟨hoccurs, he, hc⟩
  · rintro ⟨hoccurs, he, hc⟩
    exact ⟨hoccurs, he, hc⟩

/-- The edges to auxiliaries, from the auxiliaries among their sources. -/
theorem auxRefersTo_iff : s.AuxRefersTo v u w ↔ s.IsAuxiliary v u ∧ (u, w) ∈ s.auxEdges v := by
  rw [mem_auxEdges, ← refersTo_iff, ← isAuxiliary_iff]
  constructor
  · rintro ⟨hu, hw, h⟩
    exact ⟨hu, h, hw⟩
  · rintro ⟨hu, h, hw⟩
    exact ⟨hu, hw, h⟩

/-- Evolved variables and constants are sources of edges only, so no loop passes them. -/
theorem mem_auxCyclic_iff_isBelowLoop :
    name ∈ (s.groups v).auxCyclic ↔ IsBelowLoop (s.AuxRefersTo v) name := by
  have hedge : ∀ u w, (u, w) ∈ s.auxEdges v → s.IsAuxiliary v w := fun u w h =>
    isAuxiliary_iff.mpr ((s.mem_auxEdges v).mp h).2
  have hrefersTo : s.AuxRefersTo v = fun u w => s.IsAuxiliary v u ∧ (u, w) ∈ s.auxEdges v := by
    funext u w
    exact propext auxRefersTo_iff
  rw [mem_auxCyclic, Sorted.mem_cyclic_iff_isBelowLoop, hrefersTo, isBelowLoop_restrict_iff hedge]
  refine and_iff_right_of_imp fun hbelow => ?_
  obtain ⟨u, h⟩ := hbelow.exists_edge
  exact isAuxiliary_iff.mp (hedge u name h)

/-- Unneeded auxiliaries neither are referred to nor refer to auxiliaries. -/
theorem mem_auxUnneeded_iff : name ∈ (s.groups v).auxUnneeded ↔ s.IsAuxiliary v name ∧
    (∀ u, ¬ s.RefersTo u name) ∧ ∀ w, s.RefersTo name w → ¬ s.IsAuxiliary v w := by
  rw [mem_auxUnneeded, ← isAuxiliary_iff]
  refine and_congr_right fun haux => ?_
  constructor
  · intro hnode
    constructor
    · intro u h
      exact hnode (TopologicalOrder.isNode_snd
        ((s.mem_auxEdges v).mpr ⟨refersTo_iff.mp h, isAuxiliary_iff.mp haux⟩))
    · intro w h hw
      exact hnode (TopologicalOrder.isNode_fst
        ((s.mem_auxEdges v).mpr ⟨refersTo_iff.mp h, isAuxiliary_iff.mp hw⟩))
  · rintro ⟨hsnd, hfst⟩ (hnode | hnode)
    · obtain ⟨⟨_, w⟩, hedge, rfl⟩ := List.mem_map.mp hnode
      obtain ⟨hgraph, hw⟩ := (s.mem_auxEdges v).mp hedge
      exact hfst w (refersTo_iff.mpr hgraph) (isAuxiliary_iff.mpr hw)
    · obtain ⟨⟨u, _⟩, hedge, rfl⟩ := List.mem_map.mp hnode
      exact hsnd u (refersTo_iff.mpr ((s.mem_auxEdges v).mp hedge).1)

/-- What refers to a sorted auxiliary is no auxiliary or comes after it. -/
theorem after_of_mem_auxSorted (hrefersTo : s.RefersTo u w) (hw : w ∈ (s.groups v).auxSorted) :
    u ∈ (s.groups v).evolved ∨ u ∈ (s.groups v).constants ∨
      [w, u].Sublist (s.groups v).auxSorted := by
  rw [mem_evolved, mem_constants]
  by_cases he : s.Binds v Element.isEvolving u
  · exact .inl he
  by_cases hc : s.Binds v Element.isConstant u
  · exact .inr (.inl hc)
  obtain ⟨rhs, hrhs, -⟩ := id hrefersTo
  have hu : u ∈ s.auxNames v := isAuxiliary_iff.mp ⟨.inl ⟨rhs, hrhs⟩, he, hc⟩
  have hedge : (u, w) ∈ s.auxEdges v :=
    (s.mem_auxEdges v).mpr ⟨refersTo_iff.mp hrefersTo, ((s.mem_auxSorted v).mp hw).1⟩
  exact .inr (.inr (s.pair_sublist_auxSorted v hedge hu hw))

/-- Classifying succeeds, with the groups and the order that the equations ask for. -/
theorem classify_arranges (s : EquationSet) (v : Vocabulary) :
    ∃ c, s.classify v = .ok c ∧ c.Arranges s v := by
  have hkeys : ∀ p, (s.namesWhere v p).Pairwise fun a b => compare a b = .lt := fun p =>
    List.pairwise_map.mpr (s.filter _).sorted
  refine ⟨s.groups v, s.classify_eq v, ?_⟩
  constructor
  case mem_constants => exact fun name => s.mem_constants v
  case mem_evolved => exact fun name => s.mem_evolved v
  case mem_auxCyclic =>
    intro name
    rw [mem_auxCyclic_iff_isBelowLoop, isBelowLoop_iff_exists_isCycle]
  case mem_auxUnneeded => exact fun name => mem_auxUnneeded_iff
  case mem_auxSorted =>
    intro name
    rw [mem_auxSorted_iff, isAuxiliary_iff]
  case nodup_auxSorted => exact (Sorted.nodup_ordered _).filter _
  case after => exact fun u w => after_of_mem_auxSorted
  case constants_sorted => exact hkeys _
  case evolved_sorted => exact hkeys _
  case auxUnneeded_sorted => exact (s.vars_sorted.filter _).filter _

/-- The circuit `a = sum(a, y)`, `b = neg(y)`, `y = int(b, 0.1, 1)`. -/
def loopAboveIntegrator : EquationSet :=
  let a : Atom := ⟨['a'], .refl true⟩
  let b : Atom := ⟨['b'], .refl true⟩
  let y : Atom := ⟨['y'], .refl true⟩
  .ofList [(a, ⟨Element.sum.name, [.node a [], .node y []]⟩), (b, ⟨Element.neg.name, [.node y []]⟩),
    (y, ⟨Element.int.name,
      [.node b [], .number ⟨0x3fb999999999999a⟩, .number ⟨0x3ff0000000000000⟩]⟩)]

/-- Dependencies lead from a loop to an auxiliary behind an integrator, which is sorted. -/
theorem classify_sorts_behind_integrator :
    let a : Atom := ⟨['a'], .refl true⟩
    let b : Atom := ⟨['b'], .refl true⟩
    loopAboveIntegrator.linearize false = .ok loopAboveIntegrator ∧
    ∃ c, loopAboveIntegrator.classify .standard = .ok c ∧
      IsCycle (loopAboveIntegrator.AuxRefersTo .standard) [a] ∧
      loopAboveIntegrator.IsAuxiliary .standard b ∧
      Relation.TransGen loopAboveIntegrator.RefersTo a b ∧
      b ∈ c.auxSorted ∧ b ∉ c.auxCyclic := by
  intro a b
  have ha : loopAboveIntegrator.AuxRefersTo .standard a a :=
    auxRefersTo_iff.mpr ⟨isAuxiliary_iff.mpr (by decide), by decide⟩
  have hleads : Relation.TransGen loopAboveIntegrator.RefersTo a b :=
    .head (b := ⟨['y'], .refl true⟩) (refersTo_iff.mpr (by decide))
      (.single (refersTo_iff.mpr (by decide)))
  exact ⟨rfl, _, rfl, ⟨List.nodup_singleton a, .cons_cons ha (.singleton a)⟩,
    isAuxiliary_iff.mpr (by decide), hleads, by decide, by decide⟩

end EquationSet

end DiffAnalyzer
