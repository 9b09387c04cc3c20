import DiffAnalyzer.Proofs.Classification
import Mathlib

/-!
# What the time evolution needs

An auxiliary is needed when some evolved variable depends on it, directly or through a chain of
auxiliaries (`EquationSet.IsNeeded`).  Unneeded auxiliaries are the ones that the sort never sees,
so none of them is needed.  Others that are not needed go unreported: those that read an
auxiliary, and those that a constant or an auxiliary reads (`EquationSet.classify_need`).
-/

namespace DiffAnalyzer

namespace Classification

/-- The warning about unneeded auxiliaries names all of them. -/
theorem mem_unneededAuxiliary_iff (c : Classification) {name : Atom} :
    (∃ names, .unneededAuxiliary names ∈ c.warnings ∧ name ∈ names) ↔ name ∈ c.auxUnneeded := by
  have hwarned : ∀ names, .unneededAuxiliary names ∈ c.warnings ↔
      names = c.auxUnneeded ∧ c.auxUnneeded ≠ [] := by
    intro names
    unfold warnings
    split <;> split <;> split <;> simp_all
  constructor
  · rintro ⟨names, hnames, hmem⟩
    rw [((hwarned names).mp hnames).1] at hmem
    exact hmem
  · intro hmem
    exact ⟨_, (hwarned _).mpr ⟨rfl, List.ne_nil_of_mem hmem⟩, hmem⟩

end Classification

namespace EquationSet

variable (s : EquationSet) (v : Vocabulary)

/-- Some evolved variable depends on the auxiliary, directly or through a chain of
auxiliaries. -/
def IsNeeded (name : Atom) : Prop :=
  ∃ u, s.Binds v Element.isEvolving u ∧
    Relation.TransGen (fun u w => (u, w) ∈ s.auxEdges v) u name

/-- The variable reads an auxiliary, or something that is not evolved reads it. -/
def IsLinked (name : Atom) : Prop :=
  (∃ w, (name, w) ∈ s.auxEdges v) ∨
    ∃ u, (u, name) ∈ s.dependencyGraph ∧ ¬ s.Binds v Element.isEvolving u

variable {s v} {u name : Atom}

theorem isNeeded_of_edge (hu : s.Binds v Element.isEvolving u) (h : (u, name) ∈ s.auxEdges v) :
    s.IsNeeded v name :=
  ⟨u, hu, .single h⟩

theorem IsNeeded.exists_edge (h : s.IsNeeded v name) : ∃ u, (u, name) ∈ s.auxEdges v := by
  obtain ⟨_, -, hchain⟩ := h
  obtain ⟨u, -, hedge⟩ := Relation.TransGen.tail'_iff.mp hchain
  exact ⟨u, hedge⟩

/-- Where no evolved variable reads an auxiliary, no auxiliary is needed. -/
theorem not_isNeeded (h : ∀ u, s.Binds v Element.isEvolving u → ∀ w, (u, w) ∉ s.auxEdges v) :
    ¬ s.IsNeeded v name := by
  rintro ⟨u, hu, hchain⟩
  obtain ⟨w, hedge, -⟩ := Relation.TransGen.head'_iff.mp hchain
  exact h u hu w hedge

theorem mem_auxUnneeded_iff_not_isNeeded (haux : name ∈ s.auxNames v) :
    name ∈ (s.groups v).auxUnneeded ↔ ¬ s.IsNeeded v name ∧ ¬ s.IsLinked v name := by
  rw [mem_auxUnneeded, ← not_or, and_iff_right haux, not_iff_not]
  constructor
  · rintro (hfst | hsnd)
    · obtain ⟨⟨_, w⟩, hedge, rfl⟩ := List.mem_map.mp hfst
      exact .inr (.inl ⟨w, hedge⟩)
    · obtain ⟨⟨u, _⟩, hedge, rfl⟩ := List.mem_map.mp hsnd
      by_cases hu : s.Binds v Element.isEvolving u
      · exact .inl (isNeeded_of_edge hu hedge)
      · exact .inr (.inr ⟨u, ((s.mem_auxEdges v).mp hedge).1, hu⟩)
  · rintro (hneeded | ⟨w, hedge⟩ | ⟨u, hgraph, -⟩)
    · obtain ⟨u, hedge⟩ := hneeded.exists_edge
      exact TopologicalOrder.isNode_snd hedge
    · exact TopologicalOrder.isNode_fst hedge
    · exact TopologicalOrder.isNode_snd ((s.mem_auxEdges v).mpr ⟨hgraph, haux⟩)

theorem mem_auxSorted_iff_not_mem_auxUnneeded (hcyclic : (s.groups v).auxCyclic = [])
    (haux : name ∈ s.auxNames v) :
    name ∈ (s.groups v).auxSorted ↔ name ∉ (s.groups v).auxUnneeded := by
  rw [mem_auxSorted_iff, hcyclic, and_iff_right haux, and_iff_right List.not_mem_nil]

/-- What is called unneeded, in the groups and in the warning, is not needed.  Without feedback
loops the sorted auxiliaries are those that are needed or linked, so the groups tell what is
needed exactly if everything linked is. -/
theorem classify_need (s : EquationSet) (v : Vocabulary) : ∃ c, s.classify v = .ok c ∧
    (∀ name, (∃ names, .unneededAuxiliary names ∈ c.warnings ∧ name ∈ names) ↔
      name ∈ c.auxUnneeded) ∧
    (∀ name ∈ c.auxiliaries,
      name ∈ c.auxUnneeded ↔ ¬ s.IsNeeded v name ∧ ¬ s.IsLinked v name) ∧
    (c.auxCyclic = [] →
      (∀ name ∈ c.auxiliaries, name ∈ c.auxSorted ↔ s.IsNeeded v name ∨ s.IsLinked v name) ∧
      ((∀ name ∈ c.auxiliaries, name ∈ c.auxUnneeded ↔ ¬ s.IsNeeded v name) ↔
        ∀ name ∈ c.auxiliaries, s.IsLinked v name → s.IsNeeded v name)) := by
  have hunneeded : ∀ name ∈ (s.groups v).auxiliaries,
      name ∈ (s.groups v).auxUnneeded ↔ ¬ s.IsNeeded v name ∧ ¬ s.IsLinked v name := by
    intro name hname
    exact mem_auxUnneeded_iff_not_isNeeded ((s.mem_auxiliaries v).mp hname)
  refine ⟨s.groups v, s.classify_eq v, ?_, hunneeded, ?_⟩
  · intro name
    exact (s.groups v).mem_unneededAuxiliary_iff
  · intro hcyclic
    constructor
    · intro name hname
      have haux := (s.mem_auxiliaries v).mp hname
      rw [mem_auxSorted_iff_not_mem_auxUnneeded hcyclic haux, hunneeded name hname, not_and_or,
        not_not, not_not]
    · apply forall₂_congr
      intro name hname
      rw [hunneeded name hname]
      tauto

/-- The circuit `a = neg(y)`, `b = neg(a)`, `y = int(b, 0.1, 1)`. -/
def drivenChain : EquationSet :=
  let a : Atom := ⟨['a'], .refl true⟩
  let b : Atom := ⟨['b'], .refl true⟩
  let y : Atom := ⟨['y'], .refl true⟩
  .ofList [(a, ⟨Element.neg.name, [.node y []]⟩), (b, ⟨Element.neg.name, [.node a []]⟩),
    (y, ⟨Element.int.name,
      [.node b [], .number ⟨0x3fb999999999999a⟩, .number ⟨0x3ff0000000000000⟩]⟩)]

theorem classify_need_drivenChain : ∃ c, drivenChain.classify .standard = .ok c ∧
    c.auxCyclic = [] ∧
    ∀ name ∈ c.auxiliaries, name ∈ c.auxSorted ↔
      drivenChain.IsNeeded .standard name ∨ drivenChain.IsLinked .standard name := by
  obtain ⟨c, hclassify, -, -, hsorted⟩ := drivenChain.classify_need .standard
  have hcyclic : c.auxCyclic = [] := by
    cases hclassify
    rfl
  exact ⟨c, hclassify, hcyclic, (hsorted hcyclic).1⟩

/-- The circuit `a = neg(y)`, `b = neg(a)`, `y = int(y, 0.1, 1)`. -/
def idleChain : EquationSet :=
  let a : Atom := ⟨['a'], .refl true⟩
  let b : Atom := ⟨['b'], .refl true⟩
  let y : Atom := ⟨['y'], .refl true⟩
  .ofList [(a, ⟨Element.neg.name, [.node y []]⟩), (b, ⟨Element.neg.name, [.node a []]⟩),
    (y, ⟨Element.int.name,
      [.node y [], .number ⟨0x3fb999999999999a⟩, .number ⟨0x3ff0000000000000⟩]⟩)]

/-- Nothing depends on the end of a chain that no evolved variable reads, but it is sorted with
the rest of the chain and not called unneeded. -/
theorem classify_misses_idleChain :
    idleChain.linearize false = .ok idleChain ∧
    ∃ c, idleChain.classify .standard = .ok c ∧ c.auxCyclic = [] ∧ ∃ name ∈ c.auxiliaries,
      (∀ u, (u, name) ∉ idleChain.dependencyGraph) ∧ ¬ idleChain.IsNeeded .standard name ∧
        name ∈ c.auxSorted ∧ name ∉ c.auxUnneeded := by
  have hreads : ∀ u ∈ idleChain.namesWhere .standard Element.isEvolving,
      ∀ e ∈ idleChain.auxEdges .standard, e.1 ≠ u := by
    decide
  have hneeded : ∀ name, ¬ idleChain.IsNeeded .standard name := by
    intro name
    apply not_isNeeded
    intro u hu w hedge
    exact hreads u ((mem_namesWhere _ _).mpr hu) _ hedge rfl
  refine ⟨rfl, _, rfl, rfl, ⟨['b'], .refl true⟩, by decide, ?_, hneeded _, by decide, by decide⟩
  intro u hgraph
  have hread : ∀ e ∈ idleChain.dependencyGraph, e.2 ≠ ⟨['b'], .refl true⟩ := by decide
  exact hread _ hgraph rfl

end EquationSet

end DiffAnalyzer
