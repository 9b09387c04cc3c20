import DiffAnalyzer.Proofs.TopologicalOrder
import Mathlib

/-!
# Runs of the sort

`topologicalSort` takes a bounded number of steps, and `release` passes over a dependency
whose count is used up.  Here the loop is run without either: `TopologicalOrder.Run` places
nodes until none is ready, and has no outcome if a count would fall below zero.  It has
exactly one outcome, which is the one the sort returns
(`topologicalSort_run_and_isOrderOf`).
-/

namespace DiffAnalyzer

variable {α : Type} [DecidableEq α]

namespace TopologicalOrder

/-- Count one edge to `node` as done, which its count must allow. -/
def release? (p : Progress α) (node : α) : Option (Progress α) :=
  if p.waiting.lookup node = some 0 then none else some (release p node)

/-- Nodes are placed one after the other until none is ready, and no count falls below
zero. -/
inductive Run (edges : List (α × α)) : Progress α → Progress α → Prop where
  | done {p : Progress α} (hready : p.ready = []) : Run edges p p
  | next {p q r : Progress α} {node : α} {rest : List α} (hready : p.ready = node :: rest)
      (hplace : (dependenciesOf edges node).foldlM release?
        { p with ready := rest, placed := node :: p.placed } = some q)
      (hrun : Run edges q r) : Run edges p r

/-- The outcome of a run as the outcome of sorting. -/
def Progress.sorted (p : Progress α) : Sorted α where
  ordered := p.placed
  cyclic := ((p.waiting.filter fun e => 0 < e.2).map Prod.fst).reverse

variable {edges : List (α × α)} {p q r : Progress α}

/-- The loop leaves no choice. -/
theorem Run.unique (hq : Run edges p q) (hr : Run edges p r) : q = r := by
  induction hq with
  | done hready =>
    cases hr with
    | done => rfl
    | next hready' =>
      rw [hready] at hready'
      cases hready'
  | next hready hplace _ ih =>
    cases hr with
    | done hready' =>
      rw [hready] at hready'
      cases hready'
    | next hready' hplace' hrun' =>
      rw [hready] at hready'
      cases hready'
      rw [hplace] at hplace'
      cases hplace'
      exact ih hrun'

theorem release?_of_pos {node : α} (h : 0 < p.count node) :
    release? p node = some (release p node) := by
  refine if_neg fun hlookup => ?_
  rw [Progress.count, hlookup] at h
  exact Nat.lt_irrefl 0 h

/-- No count falls below zero as long as each covers what is to be released. -/
theorem foldlM_release? (nodes : List α) (h : ∀ v, nodes.count v ≤ p.count v) :
    nodes.foldlM release? p = some (nodes.foldl release p) := by
  induction nodes generalizing p with
  | nil => rfl
  | cons node rest ih =>
    have hself := h node
    rw [List.count_cons_self] at hself
    rw [List.foldlM_cons, release?_of_pos (by omega)]
    exact ih (count_le_count_release h)

/-- Placing a ready node takes no count below zero. -/
theorem Invariant.foldlM_release? {node : α} {rest : List α} (h : Invariant edges p)
    (hready : p.ready = node :: rest) :
    (dependenciesOf edges node).foldlM release?
        { p with ready := rest, placed := node :: p.placed } =
      some ((dependenciesOf edges node).foldl release
        { p with ready := rest, placed := node :: p.placed }) := by
  refine TopologicalOrder.foldlM_release? _ fun v => ?_
  change _ ≤ p.count v
  rw [h.count_of_ready hready]
  exact Nat.le_add_left _ _

/-- Enough steps are a run to the end. -/
theorem Invariant.run_place (h : Invariant edges p) {steps : Nat}
    (hsteps : (roots edges).length + edges.length ≤ p.placed.length + steps) :
    Run edges p (TopologicalOrder.place edges steps p) := by
  induction steps generalizing p with
  | zero =>
    have := h.length_le
    exact .done (List.eq_nil_of_length_eq_zero (by omega))
  | succ steps ih =>
    rw [TopologicalOrder.place]
    split
    · exact .done ‹_›
    · rename_i node rest hready
      obtain ⟨hinv, hplaced⟩ := h.place_one hready
      refine .next hready (h.foldlM_release? hready) (ih hinv ?_)
      rw [hplaced, List.length_cons]
      omega

end TopologicalOrder

open TopologicalOrder

/-- The nodes of the edges fall into some that are in order, each after all that it depends
on, and the rest. -/
structure Sorted.IsOrderOf (r : Sorted α) (edges : List (α × α)) : Prop where
  nodup_ordered : r.ordered.Nodup
  nodup_cyclic : r.cyclic.Nodup
  disjoint : r.ordered.Disjoint r.cyclic
  mem_iff : ∀ node, node ∈ r.ordered ∨ node ∈ r.cyclic ↔ IsNode edges node
  after : ∀ u v, (u, v) ∈ edges → v ∈ r.ordered →
    u ∈ r.ordered ∧ r.ordered.idxOf v < r.ordered.idxOf u

theorem isOrderOf_topologicalSort (edges : List (α × α)) :
    (topologicalSort edges).IsOrderOf edges := by
  constructor
  case nodup_ordered => exact Sorted.nodup_ordered edges
  case nodup_cyclic => exact Sorted.nodup_cyclic edges
  case disjoint =>
    intro node hordered hcyclic
    exact ((Sorted.mem_cyclic_iff edges).mp hcyclic).2 hordered
  case mem_iff =>
    intro node
    rw [Sorted.mem_cyclic_iff]
    constructor
    · rintro (hordered | hcyclic)
      · exact ((Sorted.mem_ordered_iff edges).mp hordered).1
      · exact hcyclic.1
    · intro hnode
      by_cases hordered : node ∈ (topologicalSort edges).ordered
      · exact .inl hordered
      · exact .inr ⟨hnode, hordered⟩
  case after =>
    intro u v hedge hv
    exact ⟨((Sorted.mem_ordered_iff edges).mp hv).2 u hedge, Sorted.idxOf_lt_idxOf edges hv hedge⟩

/-- Without a bound on its steps the loop ends, with no count below zero and with the outcome
of the sort, which splits the nodes and puts dependencies first. -/
theorem topologicalSort_run_and_isOrderOf (edges : List (α × α)) :
    (∃ done, (∀ p, Run edges ⟨demand edges, roots edges, []⟩ p ↔ p = done) ∧
      topologicalSort edges = done.sorted) ∧
    (topologicalSort edges).IsOrderOf edges := by
  refine ⟨?_, isOrderOf_topologicalSort edges⟩
  have hrun := (invariant_start edges).run_place
    (Nat.le_add_left ((roots edges).length + edges.length) 0)
  refine ⟨_, fun p => ⟨fun hp => hp.unique hrun, ?_⟩, rfl⟩
  rintro rfl
  exact hrun

/-- What hangs below a cycle is not placed, what is above it is. -/
example : topologicalSort [('t', 'x'), ('x', 'y'), ('y', 'x'), ('y', 'z'), ('t', 's'), ('t', 's')] =
    ⟨['s', 't'], ['z', 'y', 'x']⟩ := by decide

end DiffAnalyzer
