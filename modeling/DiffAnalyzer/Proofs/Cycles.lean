import DiffAnalyzer.Proofs.TopologicalOrder
import Mathlib

/-!
# Cycles and what is below them

The sort leaves over the nodes from which going up, from dependency to dependent, leads to a
loop.  Here a loop is a list of nodes (`IsCycle`): every loop can be cut down to one that passes
no node twice (`exists_isCycle`).  What the sort leaves over, and what it places, is then a
matter of which edges there are, not of their order or number
(`topologicalSort_cyclic_iff_and_perm`).
-/

namespace DiffAnalyzer

variable {α : Type} {R : α → α → Prop} {u v w : α}

/-- The relation leads from each node to the next, and from the last to the first; no node
comes twice. -/
def IsCycle (R : α → α → Prop) : List α → Prop
  | [] => False
  | u :: path => (u :: path).Nodup ∧ (u :: (path ++ [u])).IsChain R

/-- Ways need not pass a node twice. -/
theorem exists_nodup_isChain (h : Relation.ReflTransGen R w u) :
    ∃ nodes : List α, nodes.Nodup ∧ nodes.IsChain R ∧ nodes.head? = some w ∧
      nodes.getLast? = some u := by
  induction h using Relation.ReflTransGen.head_induction_on with
  | refl => exact ⟨[u], List.nodup_singleton u, .singleton u, rfl, rfl⟩
  | @head w next hstep _ ih =>
    obtain ⟨nodes, hnodup, hchain, hhead, hlast⟩ := ih
    by_cases hw : w ∈ nodes
    · -- Back at `w` the way so far is left out.
      obtain ⟨before, behind, rfl⟩ := List.append_of_mem hw
      rw [List.getLast?_append_cons] at hlast
      exact ⟨w :: behind, (List.nodup_append.mp hnodup).2.1, hchain.right_of_append, rfl, hlast⟩
    · refine ⟨w :: nodes, List.nodup_cons.mpr ⟨hw, hnodup⟩, hchain.cons fun y hy => ?_, rfl, ?_⟩
      · rw [hhead] at hy
        exact Option.some.inj hy ▸ hstep
      · rw [List.getLast?_cons, hlast]
        rfl

/-- A node that leads back to itself is on a cycle. -/
theorem exists_isCycle (h : Relation.TransGen R u u) : ∃ path, IsCycle R (u :: path) := by
  obtain ⟨w, hstep, hback⟩ := Relation.TransGen.head'_iff.mp h
  obtain ⟨nodes, hnodup, hchain, hhead, hlast⟩ := exists_nodup_isChain hback
  obtain ⟨path, rfl⟩ := List.getLast?_eq_some_iff.mp hlast
  refine ⟨path, List.perm_append_singleton u path |>.nodup_iff.mp hnodup, hchain.cons ?_⟩
  intro y hy
  rw [hhead] at hy
  exact Option.some.inj hy ▸ hstep

/-- The nodes of a cycle are on a loop. -/
theorem IsCycle.isBelowLoop {cycle : List α} (h : IsCycle R cycle) (hu : u ∈ cycle) :
    IsBelowLoop R u := by
  cases cycle with
  | nil => exact absurd hu List.not_mem_nil
  | cons first path =>
    have hleads : ∀ v ∈ path ++ [first], Relation.TransGen R first v := fun v hv =>
      (h.2.imp fun _ _ => Relation.TransGen.single).rel_cons hv
    refine ⟨first, hleads first (by simp), ?_⟩
    rcases List.mem_cons.mp hu with rfl | hu
    · exact .refl
    · exact (hleads u (List.mem_append_left _ hu)).to_reflTransGen

/-- What is below a loop is on a cycle, or some node of a cycle leads to it. -/
theorem isBelowLoop_iff_exists_isCycle : IsBelowLoop R v ↔
    ∃ cycle, IsCycle R cycle ∧ (v ∈ cycle ∨ ∃ u ∈ cycle, Relation.TransGen R u v) := by
  constructor
  · rintro ⟨u, hloop, hbelow⟩
    obtain ⟨path, hcycle⟩ := exists_isCycle hloop
    refine ⟨u :: path, hcycle, ?_⟩
    rcases Relation.reflTransGen_iff_eq_or_transGen.mp hbelow with rfl | hbelow
    · exact .inl List.mem_cons_self
    · exact .inr ⟨u, List.mem_cons_self, hbelow⟩
  · rintro ⟨cycle, hcycle, hv | ⟨u, hu, hbelow⟩⟩
    · exact hcycle.isBelowLoop hv
    · obtain ⟨w, hloop, hwu⟩ := hcycle.isBelowLoop hu
      exact ⟨w, hloop, hwu.trans hbelow.to_reflTransGen⟩

variable [DecidableEq α] {edges edges' : List (α × α)}

open TopologicalOrder

namespace Sorted

theorem mem_ordered_iff_not_mem_cyclic : v ∈ (topologicalSort edges).ordered ↔
    IsNode edges v ∧ v ∉ (topologicalSort edges).cyclic := by
  rw [mem_cyclic_iff, not_and, not_not]
  constructor
  · intro hordered
    exact ⟨((mem_ordered_iff edges).mp hordered).1, fun _ => hordered⟩
  · rintro ⟨hnode, hordered⟩
    exact hordered hnode

/-- Which nodes are left over depends on which edges there are. -/
theorem mem_cyclic_congr (h : ∀ e, e ∈ edges ↔ e ∈ edges') :
    v ∈ (topologicalSort edges).cyclic ↔ v ∈ (topologicalSort edges').cyclic := by
  simp only [mem_cyclic_iff_isBelowLoop, h]

theorem mem_ordered_congr (h : ∀ e, e ∈ edges ↔ e ∈ edges') :
    v ∈ (topologicalSort edges).ordered ↔ v ∈ (topologicalSort edges').ordered := by
  simp only [mem_ordered_iff_not_mem_cyclic, mem_cyclic_congr h, IsNode, List.mem_map, h]

end Sorted

/-- The sort leaves over the nodes of the cycles and what these lead to.  Lists with the same
edges have the same nodes left over, and the same nodes in place. -/
theorem topologicalSort_cyclic_iff_and_perm (edges : List (α × α)) :
    (∀ v, v ∈ (topologicalSort edges).cyclic ↔
      ∃ cycle, IsCycle (fun u w => (u, w) ∈ edges) cycle ∧
        (v ∈ cycle ∨ ∃ u ∈ cycle, Relation.TransGen (fun u w => (u, w) ∈ edges) u v)) ∧
    ∀ edges', (∀ e, e ∈ edges ↔ e ∈ edges') →
      (topologicalSort edges).cyclic.Perm (topologicalSort edges').cyclic ∧
        (topologicalSort edges).ordered.Perm (topologicalSort edges').ordered := by
  constructor
  · intro v
    rw [Sorted.mem_cyclic_iff_isBelowLoop, isBelowLoop_iff_exists_isCycle]
  · intro edges' h
    constructor
    · refine (List.perm_ext_iff_of_nodup (Sorted.nodup_cyclic _) (Sorted.nodup_cyclic _)).mpr ?_
      exact fun v => Sorted.mem_cyclic_congr h
    · refine (List.perm_ext_iff_of_nodup (Sorted.nodup_ordered _) (Sorted.nodup_ordered _)).mpr ?_
      exact fun v => Sorted.mem_ordered_congr h

/-- A node below a cycle is left over, and the one above it is placed, also when the edges come
in another order and repeated. -/
theorem topologicalSort_cyclic_iff_and_perm_shuffled :
    let edges := [('t', 'x'), ('x', 'y'), ('y', 'x'), ('y', 'z')]
    let edges' := [('y', 'z'), ('y', 'x'), ('x', 'y'), ('y', 'z'), ('t', 'x')]
    'z' ∈ (topologicalSort edges).cyclic ∧ (∀ e, e ∈ edges ↔ e ∈ edges') ∧
      (topologicalSort edges).cyclic.Perm (topologicalSort edges').cyclic ∧
      (topologicalSort edges).ordered.Perm (topologicalSort edges').ordered := by
  intro edges edges'
  obtain ⟨hcyclic, hperm⟩ := topologicalSort_cyclic_iff_and_perm edges
  have hcycle : IsCycle (fun u w => (u, w) ∈ edges) ['x', 'y'] :=
    ⟨by decide, by simp [edges]⟩
  have hsame : ∀ e, e ∈ edges ↔ e ∈ edges' := by
    intro e
    simp only [edges, edges', List.mem_cons, List.not_mem_nil]
    tauto
  refine ⟨(hcyclic 'z').mpr ⟨['x', 'y'], hcycle, .inr ⟨'y', by simp, .single ?_⟩⟩, hsame,
    hperm edges' hsame⟩
  simp [edges]

end DiffAnalyzer
