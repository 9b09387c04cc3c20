import DiffAnalyzer.Classification
import DiffAnalyzer.Proofs.Linearization
import DiffAnalyzer.Proofs.TopologicalOrder
import Mathlib

/-!
# What classifying yields

`EquationSet.groups` is the classification before it is checked.  The check never fails,
and the auxiliaries come in an order in which no equation reads a later one
(`EquationSet.pairwise_auxSorted`).
-/

namespace DiffAnalyzer

namespace EquationSet

variable (s : EquationSet) (v : Vocabulary)

/-- The name is bound to an application of an element of some kind. -/
def Binds (p : Element → Bool) (name : Atom) : Prop :=
  ∃ rhs, s.get? name = some rhs ∧ rhs.isCompound = true ∧ p (v.resolve rhs.head) = true

theorem mem_namesWhere {p : Element → Bool} {name : Atom} :
    name ∈ s.namesWhere v p ↔ s.Binds v p name := by
  simp only [namesWhere, SortedMap.keys, SortedMap.filter, List.mem_map, List.mem_filter,
    Prod.exists, exists_and_right, exists_eq_right, Bool.and_eq_true, Binds,
    SortedMap.get?_eq_some_iff]

theorem nodup_namesWhere (p : Element → Bool) : (s.namesWhere v p).Nodup :=
  SortedMap.nodup_keys _

theorem nodup_vars : s.vars.Nodup :=
  s.vars_sorted.imp SortedMap.ne_of_compare_lt

/-- No element is both a constant and evolving. -/
theorem not_binds_both {name : Atom} (hc : s.Binds v Element.isConstant name)
    (he : s.Binds v Element.isEvolving name) : False := by
  obtain ⟨rhs, hrhs, -, hconstant⟩ := hc
  obtain ⟨rhs', hrhs', -, hevolving⟩ := he
  rw [hrhs] at hrhs'
  obtain rfl := Option.some.inj hrhs'
  cases helement : v.resolve rhs.head <;> simp_all [Element.isConstant, Element.isEvolving]

/-- The variables that are neither evolved nor constant. -/
def auxNames : List Atom :=
  s.vars.filter fun name =>
    !(s.namesWhere v Element.isEvolving).contains name &&
      !(s.namesWhere v Element.isConstant).contains name

theorem mem_auxNames {name : Atom} :
    name ∈ s.auxNames v ↔ name ∈ s.vars ∧ ¬ s.Binds v Element.isEvolving name ∧
      ¬ s.Binds v Element.isConstant name := by
  rw [auxNames, List.mem_filter, ← mem_namesWhere, ← mem_namesWhere]
  simp

theorem mem_auxNames_of_get? {name : Atom} {rhs : Term} (hrhs : s.get? name = some rhs)
    (he : ¬ (v.resolve rhs.head).isEvolving = true)
    (hc : ¬ (v.resolve rhs.head).isConstant = true) : name ∈ s.auxNames v := by
  refine (s.mem_auxNames v).mpr ⟨mem_vars_of_get? hrhs, ?_, ?_⟩
  · rintro ⟨rhs', hrhs', -, hevolving⟩
    cases Option.some.inj (hrhs.symm.trans hrhs')
    exact he hevolving
  · rintro ⟨rhs', hrhs', -, hconstant⟩
    cases Option.some.inj (hrhs.symm.trans hrhs')
    exact hc hconstant

/-- Names bound to applications are auxiliaries unless the element is of another kind. -/
theorem mem_auxNames_of_isCompound {name : Atom} {rhs : Term} (hrhs : s.get? name = some rhs)
    (hcompound : rhs.isCompound = true) :
    name ∈ s.auxNames v ↔
      ¬ (v.resolve rhs.head).isEvolving = true ∧ ¬ (v.resolve rhs.head).isConstant = true := by
  constructor
  · intro haux
    obtain ⟨-, he, hc⟩ := (s.mem_auxNames v).mp haux
    exact ⟨fun h => he ⟨rhs, hrhs, hcompound, h⟩, fun h => hc ⟨rhs, hrhs, hcompound, h⟩⟩
  · exact fun ⟨he, hc⟩ => s.mem_auxNames_of_get? v hrhs he hc

theorem mem_auxNames_of_get?_var {name k : Atom} (h : s.get? name = some (.var k)) :
    name ∈ s.auxNames v := by
  have hbinds : ∀ p, ¬ s.Binds v p name := by
    rintro p ⟨rhs, hrhs, hcompound, -⟩
    cases Option.some.inj (h.symm.trans hrhs)
    cases hcompound
  exact (s.mem_auxNames v).mpr ⟨mem_vars_of_get? h, hbinds _, hbinds _⟩

theorem nodup_auxNames : (s.auxNames v).Nodup := s.nodup_vars.filter _

/-- The dependencies on auxiliaries. -/
def auxEdges : List (Atom × Atom) :=
  s.dependencyGraph.filter fun e => (s.auxNames v).contains e.2

theorem mem_auxEdges {u w : Atom} :
    (u, w) ∈ s.auxEdges v ↔ (u, w) ∈ s.dependencyGraph ∧ w ∈ s.auxNames v := by
  rw [auxEdges, List.mem_filter, List.contains_iff_mem]

/-- The classification before it is checked. -/
def groups : Classification :=
  let sorted := topologicalSort (s.auxEdges v)
  let auxSorted := sorted.ordered.filter (s.auxNames v).contains
  let auxCyclic := sorted.cyclic.filter (s.auxNames v).contains
  { constants := s.namesWhere v Element.isConstant
    evolved := s.namesWhere v Element.isEvolving
    auxSorted
    auxCyclic
    auxUnneeded := (s.auxNames v).filter fun name =>
      !auxSorted.contains name && !auxCyclic.contains name
    all := s.vars }

section Groups

variable {name : Atom}

theorem mem_constants : name ∈ (s.groups v).constants ↔ s.Binds v Element.isConstant name :=
  s.mem_namesWhere v

theorem mem_evolved : name ∈ (s.groups v).evolved ↔ s.Binds v Element.isEvolving name :=
  s.mem_namesWhere v

theorem mem_auxiliaries : name ∈ (s.groups v).auxiliaries ↔ name ∈ s.auxNames v := by
  rw [Classification.auxiliaries, List.mem_filter, mem_auxNames, ← mem_evolved, ← mem_constants]
  simp [groups, and_comm]

theorem mem_auxSorted :
    name ∈ (s.groups v).auxSorted ↔
      name ∈ s.auxNames v ∧ name ∈ (topologicalSort (s.auxEdges v)).ordered := by
  simp [groups, and_comm]

theorem mem_auxCyclic :
    name ∈ (s.groups v).auxCyclic ↔
      name ∈ s.auxNames v ∧ name ∈ (topologicalSort (s.auxEdges v)).cyclic := by
  simp [groups, and_comm]

/-- Unneeded auxiliaries are on no edge. -/
theorem mem_auxUnneeded :
    name ∈ (s.groups v).auxUnneeded ↔
      name ∈ s.auxNames v ∧ ¬ TopologicalOrder.IsNode (s.auxEdges v) name := by
  change name ∈ (s.auxNames v).filter (fun name => !(s.groups v).auxSorted.contains name &&
    !(s.groups v).auxCyclic.contains name) ↔ _
  rw [List.mem_filter]
  refine and_congr_right fun haux => ?_
  simp only [Bool.and_eq_true, Bool.not_eq_true', ← Bool.not_eq_true, List.contains_iff_mem,
    mem_auxSorted, mem_auxCyclic, haux, true_and, Sorted.mem_cyclic_iff]
  constructor
  · rintro ⟨hordered, hcyclic⟩ hnode
    exact hcyclic ⟨hnode, hordered⟩
  · intro hnode
    refine ⟨fun hordered => hnode ?_, fun hcyclic => hnode hcyclic.1⟩
    exact ((Sorted.mem_ordered_iff _).mp hordered).1

/-- Every auxiliary is in one of the three groups. -/
theorem mem_auxNames_iff :
    name ∈ s.auxNames v ↔ name ∈ (s.groups v).auxSorted ∨ name ∈ (s.groups v).auxCyclic ∨
      name ∈ (s.groups v).auxUnneeded := by
  rw [mem_auxSorted, mem_auxCyclic, mem_auxUnneeded, Sorted.mem_cyclic_iff]
  constructor
  · intro haux
    by_cases hnode : TopologicalOrder.IsNode (s.auxEdges v) name
    · by_cases hordered : name ∈ (topologicalSort (s.auxEdges v)).ordered
      · exact .inl ⟨haux, hordered⟩
      · exact .inr (.inl ⟨haux, hnode, hordered⟩)
    · exact .inr (.inr ⟨haux, hnode⟩)
  · rintro (h | h | h)
    · exact h.1
    · exact h.1
    · exact h.1

/-- Sorted are the auxiliaries that are in neither of the other groups. -/
theorem mem_auxSorted_iff :
    name ∈ (s.groups v).auxSorted ↔ name ∈ s.auxNames v ∧ name ∉ (s.groups v).auxCyclic ∧
      name ∉ (s.groups v).auxUnneeded := by
  constructor
  · intro hsorted
    obtain ⟨haux, hordered⟩ := (s.mem_auxSorted v).mp hsorted
    refine ⟨haux, fun hcyclic => ?_, fun hunneeded => ?_⟩
    · exact ((Sorted.mem_cyclic_iff _).mp ((s.mem_auxCyclic v).mp hcyclic).2).2 hordered
    · exact ((s.mem_auxUnneeded v).mp hunneeded).2 ((Sorted.mem_ordered_iff _).mp hordered).1
  · rintro ⟨haux, hcyclic, hunneeded⟩
    exact ((s.mem_auxNames_iff v).mp haux).resolve_right fun h => h.elim hcyclic hunneeded

end Groups

/-- No name is in two groups, or in one of them twice. -/
theorem nodup_ordering : ((s.groups v).ordering.flatMap Prod.snd).Nodup := by
  have hordering : (s.groups v).ordering.flatMap Prod.snd = (s.groups v).constants ++
      ((s.groups v).auxSorted ++ ((s.groups v).auxCyclic ++
        ((s.groups v).evolved ++ (s.groups v).auxUnneeded))) := by
    simp [Classification.ordering]
  have hconstants : ∀ {names : List Atom}, (∀ name ∈ names, name ∈ s.auxNames v) →
      (s.groups v).constants.Disjoint names := fun h name hconstant hname =>
    ((s.mem_auxNames v).mp (h name hname)).2.2 ((s.mem_constants v).mp hconstant)
  have hevolved : ∀ {names : List Atom}, (∀ name ∈ names, name ∈ s.auxNames v) →
      (s.groups v).evolved.Disjoint names := fun h name hevolved hname =>
    ((s.mem_auxNames v).mp (h name hname)).2.1 ((s.mem_evolved v).mp hevolved)
  have hsorted : ∀ name ∈ (s.groups v).auxSorted, name ∈ s.auxNames v := fun name hname =>
    ((s.mem_auxSorted v).mp hname).1
  have hcyclic : ∀ name ∈ (s.groups v).auxCyclic, name ∈ s.auxNames v := fun name hname =>
    ((s.mem_auxCyclic v).mp hname).1
  have hunneeded : ∀ name ∈ (s.groups v).auxUnneeded, name ∈ s.auxNames v := fun name hname =>
    ((s.mem_auxUnneeded v).mp hname).1
  have hboth : (s.groups v).constants.Disjoint (s.groups v).evolved := fun name hc he =>
    s.not_binds_both v ((s.mem_constants v).mp hc) ((s.mem_evolved v).mp he)
  have hsortedCyclic : (s.groups v).auxSorted.Disjoint (s.groups v).auxCyclic :=
    fun name hs => ((s.mem_auxSorted_iff v).mp hs).2.1
  have hsortedUnneeded : (s.groups v).auxSorted.Disjoint (s.groups v).auxUnneeded :=
    fun name hs => ((s.mem_auxSorted_iff v).mp hs).2.2
  have hcyclicUnneeded : (s.groups v).auxCyclic.Disjoint (s.groups v).auxUnneeded :=
    fun name hc hu => ((s.mem_auxUnneeded v).mp hu).2
      ((Sorted.mem_cyclic_iff _).mp ((s.mem_auxCyclic v).mp hc).2).1
  rw [hordering]
  simp only [List.nodup_append', List.disjoint_append_right]
  exact ⟨s.nodup_namesWhere v _, ⟨(Sorted.nodup_ordered _).filter _,
    ⟨(Sorted.nodup_cyclic _).filter _, ⟨s.nodup_namesWhere v _, (s.nodup_auxNames v).filter _,
      hevolved hunneeded⟩, (hevolved hcyclic).symm, hcyclicUnneeded⟩,
    hsortedCyclic, (hevolved hsorted).symm, hsortedUnneeded⟩,
    hconstants hsorted, hconstants hcyclic, hboth, hconstants hunneeded⟩

/-- The groups hold the variables of the set. -/
theorem mem_ordering {name : Atom} :
    name ∈ (s.groups v).ordering.flatMap Prod.snd ↔ name ∈ s.vars := by
  simp only [Classification.ordering, List.flatMap_cons, List.flatMap_nil, List.append_nil,
    List.mem_append]
  constructor
  · have hbinds : ∀ {p}, s.Binds v p name → name ∈ s.vars := fun ⟨_, hrhs, _⟩ => mem_vars_of_get? hrhs
    have haux : name ∈ s.auxNames v → name ∈ s.vars := fun h => ((s.mem_auxNames v).mp h).1
    rintro (h | h | h | h | h)
    · exact hbinds ((s.mem_constants v).mp h)
    · exact haux ((s.mem_auxSorted v).mp h).1
    · exact haux ((s.mem_auxCyclic v).mp h).1
    · exact hbinds ((s.mem_evolved v).mp h)
    · exact haux ((s.mem_auxUnneeded v).mp h).1
  · intro hvars
    by_cases hconstant : s.Binds v Element.isConstant name
    · exact .inl ((s.mem_constants v).mpr hconstant)
    · by_cases hevolved : s.Binds v Element.isEvolving name
      · exact .inr (.inr (.inr (.inl ((s.mem_evolved v).mpr hevolved))))
      · rcases (s.mem_auxNames_iff v).mp ((s.mem_auxNames v).mpr ⟨hvars, hevolved, hconstant⟩)
          with h | h | h
        · exact .inr (.inl h)
        · exact .inr (.inr (.inl h))
        · exact .inr (.inr (.inr (.inr h)))

theorem verify_groups : (s.groups v).verify s = .ok () := by
  have hmissing : (s.keys.filter fun name =>
      !((s.groups v).ordering.flatMap Prod.snd).contains name) = [] := by
    refine List.filter_eq_nil_iff.mpr fun name hname => ?_
    simpa using (s.mem_ordering v).mpr (mem_vars.mpr (.inl hname))
  have hrepeated : Classification.repeated ((s.groups v).ordering.flatMap Prod.snd) = [] := by
    rw [Classification.repeated, List.filter_eq_nil_iff.mpr]
    · rfl
    · intro name _
      have := List.nodup_iff_count_le_one.mp (s.nodup_ordering v) name
      simpa using this
  simp only [Classification.verify, hmissing, hrepeated]
  rfl

/-- Classifying always succeeds. -/
theorem classify_eq : s.classify v = .ok (s.groups v) := by
  change (do (s.groups v).verify s; pure (s.groups v)) = _
  rw [verify_groups]
  rfl

theorem groups_of_classify {c : Classification} (h : s.classify v = .ok c) : c = s.groups v := by
  rw [classify_eq] at h
  exact (Except.ok.inj h).symm

/-- Among the sorted auxiliaries none depends on itself or a later one. -/
theorem pairwise_auxSorted :
    (s.groups v).auxSorted.Pairwise fun u w => (u, w) ∉ s.dependencyGraph := by
  refine ((Sorted.pairwise_ordered (s.auxEdges v)).filter _).imp_of_mem ?_
  intro u w _ hw hedge hgraph
  exact hedge ((s.mem_auxEdges v).mpr ⟨hgraph, List.contains_iff_mem.mp (List.mem_filter.mp hw).2⟩)

/-- An auxiliary that depends on a sorted one stands behind it. -/
theorem pair_sublist_auxSorted {u w : Atom} (hedge : (u, w) ∈ s.auxEdges v)
    (hu : u ∈ s.auxNames v) (hw : w ∈ (s.groups v).auxSorted) :
    [w, u].Sublist (s.groups v).auxSorted := by
  obtain ⟨haux, hordered⟩ := (s.mem_auxSorted v).mp hw
  have hfilter := (Sorted.pair_sublist_ordered _ hordered hedge).filter (s.auxNames v).contains
  rwa [List.filter_eq_self.mpr (by simpa using ⟨haux, hu⟩)] at hfilter

theorem not_mem_dependencyGraph_self {name : Atom} (h : name ∈ (s.groups v).auxSorted) :
    (name, name) ∉ s.dependencyGraph := fun hgraph =>
  Sorted.not_mem_self _ ((s.mem_auxSorted v).mp h).2
    ((s.mem_auxEdges v).mpr ⟨hgraph, ((s.mem_auxSorted v).mp h).1⟩)

/-- Nothing depends on an unneeded auxiliary. -/
theorem not_mem_dependencyGraph_of_unneeded {u name : Atom}
    (h : name ∈ (s.groups v).auxUnneeded) : (u, name) ∉ s.dependencyGraph := by
  obtain ⟨haux, hnode⟩ := (s.mem_auxUnneeded v).mp h
  exact fun hgraph => hnode (TopologicalOrder.isNode_snd ((s.mem_auxEdges v).mpr ⟨hgraph, haux⟩))

/-- Without loops the auxiliaries can be ranked, dependencies lower. -/
theorem exists_rank (h : (s.groups v).auxCyclic = []) :
    ∃ rank : Atom → Nat, ∀ u w, (u, w) ∈ s.dependencyGraph → w ∈ s.auxNames v →
      rank w < rank u := by
  refine ⟨(topologicalSort (s.auxEdges v)).ordered.idxOf, fun u w hgraph haux => ?_⟩
  have hedge : (u, w) ∈ s.auxEdges v := (s.mem_auxEdges v).mpr ⟨hgraph, haux⟩
  refine Sorted.idxOf_lt_idxOf _ ?_ hedge
  by_contra hordered
  have hcyclic : w ∈ (s.groups v).auxCyclic := (s.mem_auxCyclic v).mpr
    ⟨haux, (Sorted.mem_cyclic_iff _).mpr ⟨TopologicalOrder.isNode_snd hedge, hordered⟩⟩
  rw [h] at hcyclic
  exact List.not_mem_nil hcyclic

/-- Without loops a measure falls from auxiliaries to what they read. -/
theorem exists_measure (h : (s.groups v).auxCyclic = []) :
    ∃ μ : Atom → Nat, ∀ u w, u ∈ s.auxNames v → (u, w) ∈ s.dependencyGraph → μ w < μ u := by
  obtain ⟨rank, hrank⟩ := s.exists_rank v h
  refine ⟨fun u => if u ∈ s.auxNames v then rank u + 1 else 0, fun u w hu hgraph => ?_⟩
  dsimp only
  rw [if_pos hu]
  split
  · rename_i hw
    exact Nat.succ_lt_succ (hrank u w hgraph hw)
  · exact Nat.succ_pos _

theorem acc_of_get?_var {u k : Atom} (hu : s.get? u = some (.var k))
    (hk : k ∈ s.auxNames v → Acc (fun w u => (u, w) ∈ s.auxEdges v) k) :
    Acc (fun w u => (u, w) ∈ s.auxEdges v) u := by
  refine .intro _ fun w hw => ?_
  obtain ⟨hgraph, haux⟩ := (s.mem_auxEdges v).mp hw
  obtain rfl : w = k := List.mem_singleton.mp ((mem_dependencyGraph_iff hu).mp hgraph)
  exact hk haux

/-- There are no loops when every auxiliary is accessible along the dependencies. -/
theorem auxCyclic_eq_nil_of_acc
    (h : ∀ u ∈ s.auxNames v, Acc (fun w u => (u, w) ∈ s.auxEdges v) u) :
    (s.groups v).auxCyclic = [] := by
  have hwf : WellFounded fun w u => (u, w) ∈ s.auxEdges v :=
    ⟨fun u => .intro u fun w hw => h w ((s.mem_auxEdges v).mp hw).2⟩
  refine List.eq_nil_iff_forall_not_mem.mpr fun name hname => ?_
  have hcyclic := ((s.mem_auxCyclic v).mp hname).2
  rw [Sorted.cyclic_eq_nil _ hwf] at hcyclic
  exact List.not_mem_nil hcyclic

end EquationSet

end DiffAnalyzer
