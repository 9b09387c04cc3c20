import DiffAnalyzer.Program.Basic
import DiffAnalyzer.Proofs.Linearization
import Mathlib

/-!
# The dependency graph

The dependency graph of a set has an edge from a bound name to each variable that its right-hand
side is or mentions, at whatever depth, and no other edge.  The variables below a root come each
once, so that sorting the edges of all equations leaves none out and repeats none; the variables of
the set are the bound names and the ends of these edges (`EquationSet.dependencyGraph_exact`).
-/

namespace DiffAnalyzer

variable {v : Atom}

/-- The variable is the argument, or stands in it at some depth. -/
inductive Arg.Mentions (v : Atom) : Arg → Prop
  | self : Mentions v (.node v [])
  | argument {head : Atom} {tail : List Arg} {a : Arg} (mem : a ∈ tail) (h : Mentions v a) :
    Mentions v (.node head tail)

theorem Arg.mem_references_iff {a : Arg} : v ∈ a.references ↔ a.Mentions v := by
  constructor
  · intro h
    induction a using Arg.induct with
    | number x => cases h
    | node head tail ih =>
      rcases mem_references_node.mp h with ⟨rfl, rfl⟩ | ⟨a, ha, hv⟩
      · exact .self
      · exact .argument ha (ih a ha hv)
  · intro h
    induction h with
    | self => exact List.mem_singleton_self v
    | argument mem _ ih => exact mem_references_node.mpr (.inr ⟨_, mem, ih⟩)

namespace Term

theorem eq_var_iff {t : Term} : t = .var v ↔ t.tail = [] ∧ v = t.head := by
  rw [Term.ext_iff, and_comm, eq_comm (a := t.head)]
  rfl

/-- A right-hand side depends on the variable that it is, and on the variables below its root. -/
theorem mem_dependencies_iff {t : Term} :
    v ∈ t.dependencies ↔ t = .var v ∨ ∃ a ∈ t.tail, a.Mentions v := by
  rw [mem_dependencies, toArg, Arg.mem_references_node, eq_var_iff]
  simp only [Arg.mem_references_iff]

/-- Variables are collected once, whatever the number of places where they stand. -/
theorem nodup_dependencies (t : Term) : t.dependencies.Nodup := by
  rw [dependencies]
  split
  · exact List.nodup_singleton _
  · exact nodup_eraseDups _

end Term

theorem sortDistinct_perm {α : Type} [Ord α] [Std.LawfulEqOrd α] [Std.TransOrd α] {l : List α}
    (h : l.Nodup) : (sortDistinct l).Perm l :=
  (List.perm_ext_iff_of_nodup ((sorted_sortDistinct l).imp SortedMap.ne_of_compare_lt) h).mpr
    fun _ => mem_sortDistinct

namespace EquationSet

/-- The edges of all equations, as their dependencies come up. -/
def edges (s : EquationSet) : List (Atom × Atom) :=
  s.toList.flatMap fun e => e.2.dependencies.map fun v => (e.1, v)

/-- Sorting the edges leaves none out and repeats none. -/
theorem dependencyGraph_perm (s : EquationSet) : s.dependencyGraph.Perm s.edges :=
  List.Perm.flatMap_left _ fun e _ => (sortDistinct_perm e.2.nodup_dependencies).map _

theorem sorted_dependencyGraph (s : EquationSet) :
    s.dependencyGraph.Pairwise fun a b => (compare a.1 b.1).then (compare a.2 b.2) = .lt := by
  refine List.pairwise_flatMap.mpr ⟨fun e _ => ?_, s.sorted.imp ?_⟩
  · refine List.pairwise_map.mpr ((sorted_sortDistinct _).imp fun {u w} h => ?_)
    rw [@Std.ReflCmp.compare_self Atom compare]
    exact h
  · rintro d e hlt a ha b hb
    obtain ⟨u, -, rfl⟩ := List.mem_map.mp ha
    obtain ⟨w, -, rfl⟩ := List.mem_map.mp hb
    exact Ordering.then_eq_lt.mpr (.inl hlt)

/-- The graph is the sorted list of the edges, without repetitions, from bound names to what their
right-hand sides are or mention; the variables of the set, in order, are the bound names and what
they depend on. -/
theorem dependencyGraph_exact (s : EquationSet) :
    (s.dependencyGraph.Pairwise fun a b => (compare a.1 b.1).then (compare a.2 b.2) = .lt) ∧
    s.dependencyGraph.Perm s.edges ∧
    (∀ k v, (k, v) ∈ s.dependencyGraph ↔
      ∃ rhs, s.get? k = some rhs ∧ (rhs = .var v ∨ ∃ a ∈ rhs.tail, a.Mentions v)) ∧
    (s.vars.Pairwise fun a b => compare a b = .lt) ∧
    ∀ v, v ∈ s.vars ↔ (∃ rhs, s.get? v = some rhs) ∨ ∃ k, (k, v) ∈ s.dependencyGraph := by
  refine ⟨s.sorted_dependencyGraph, s.dependencyGraph_perm, fun k v => ?_, s.vars_sorted,
    fun v => ?_⟩
  · simp only [mem_dependencyGraph, SortedMap.get?_eq_some_iff, Term.mem_dependencies_iff]
  · rw [mem_vars, SortedMap.mem_keys_iff]

end EquationSet

end DiffAnalyzer
