import DiffAnalyzer.Proofs.Classification
import DiffAnalyzer.Proofs.Parts
import Mathlib

/-!
# The groups of a classification

Whatever the equations and the vocabulary, classifying succeeds, and the five groups split
the variables of the set (`EquationSet.classify_partitions`).
-/

namespace DiffAnalyzer

/-- The groups split the bound names and the variables that the set refers to, and the
auxiliaries are those of the three auxiliary groups. -/
structure Classification.Partitions (c : Classification) (s : EquationSet) : Prop where
  nodup : ∀ g ∈ c.ordering, g.2.Nodup
  disjoint : c.ordering.Pairwise fun g g' => g.2.Disjoint g'.2
  mem_iff : ∀ name, (∃ g ∈ c.ordering, name ∈ g.2) ↔
    (∃ rhs, s.get? name = some rhs) ∨ s.IsPart (.node name [])
  auxiliaries_iff : ∀ name, name ∈ c.auxiliaries ↔
    name ∈ c.auxSorted ∨ name ∈ c.auxCyclic ∨ name ∈ c.auxUnneeded

namespace EquationSet

/-- The groups split the variables, so the check that none is lost or comes twice never
fails. -/
theorem classify_partitions (s : EquationSet) (v : Vocabulary) :
    ∃ c, s.classify v = .ok c ∧ c.verify s = .ok () ∧ c.Partitions s := by
  obtain ⟨hnodup, hdisjoint⟩ := List.nodup_flatMap.mp (s.nodup_ordering v)
  refine ⟨s.groups v, s.classify_eq v, s.verify_groups v, ?_⟩
  constructor
  case nodup => exact hnodup
  case disjoint => exact hdisjoint
  case mem_iff =>
    intro name
    rw [← mem_vars_iff, ← s.mem_ordering v, List.mem_flatMap]
  case auxiliaries_iff =>
    intro name
    rw [mem_auxiliaries, mem_auxNames_iff]

end EquationSet

end DiffAnalyzer
