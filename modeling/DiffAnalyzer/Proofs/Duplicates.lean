import DiffAnalyzer.EquationSet.Basic
import DiffAnalyzer.Proofs.Solutions
import Mathlib

/-!
# Dropping equal equations

Dropping the equations whose right-hand side was there before, and renaming the references to
match, leaves a set that says the same: an assignment solves what is left if and only if it
solves the whole set once every dropped name has the value of the name that stands for it
(`EquationSet.solves_removeDuplicates_iff`).  So each solution of what is left comes from exactly
one of the whole set (`EquationSet.restrict_bijective_and_merges`).
-/

universe u

namespace DiffAnalyzer

variable {V : Type u} {M : Meaning V} {σ τ : Atom → V} {f : Atom → Atom}

theorem Arg.mapVariables_node (head : Atom) {tail : List Arg} (h : tail ≠ []) :
    (Arg.node head tail).mapVariables f = .node head (tail.map (Arg.mapVariables f)) := by
  cases tail with
  | nil => exact absurd rfl h
  | cons a rest => rw [mapVariables, mapVariablesList_eq_map, List.map_cons]

theorem Arg.mapVariables_variable (head : Atom) :
    (Arg.node head []).mapVariables f = .node (f head) [] := by
  rw [mapVariables]

/-- Renaming the variables of an argument renames what it refers to. -/
theorem Arg.references_mapVariables (a : Arg) :
    (a.mapVariables f).references = a.references.map f :=
  references_map (fun _ => rfl) mapVariables_variable
    (fun head _ h => ⟨head, mapVariables_node head h⟩) a

/-- The value under renamed variables is the one under the values of the new names. -/
theorem Arg.eval_mapVariables (a : Arg) : (a.mapVariables f).eval M σ = a.eval M (σ ∘ f) := by
  induction a using Arg.induct with
  | number x => rfl
  | node head tail ih =>
    by_cases hnil : tail = []
    · subst hnil
      rw [mapVariables_variable, eval_variable, eval_variable]
      rfl
    · rw [mapVariables_node head hnil, eval_application M (σ ∘ f) head hnil,
        eval_application M σ head (mt List.map_eq_nil_iff.mp hnil), List.map_map]
      exact congrArg _ (List.map_congr_left ih)

theorem Term.toArg_mapVariables (t : Term) : (t.mapVariables f).toArg = t.toArg.mapVariables f := by
  obtain ⟨head, tail⟩ := t
  cases tail with
  | nil => rfl
  | cons a rest => exact (Arg.mapVariables_node head (List.cons_ne_nil a rest)).symm

theorem Term.eval_mapVariables (t : Term) : (t.mapVariables f).eval M σ = t.eval M (σ ∘ f) := by
  rw [Term.eval, t.toArg_mapVariables]
  exact t.toArg.eval_mapVariables

namespace EquationSet

variable {s : EquationSet} {name first v : Atom} {rhs t : Term}

/-- The name is bound to the term, and no name before it is. -/
def IsFirst (s : EquationSet) (t : Term) (name : Atom) : Prop :=
  s.get? name = some t ∧ ∀ other, s.get? other = some t → compare other name ≠ .lt

theorem IsFirst.unique (h : s.IsFirst t name) (hfirst : s.IsFirst t first) : name = first := by
  cases hcompare : compare name first with
  | lt => exact absurd hcompare (hfirst.2 name h.1)
  | eq => exact Std.LawfulEqCmp.eq_of_compare hcompare
  | gt => exact absurd (Std.OrientedCmp.gt_iff_lt.mp hcompare) (h.2 first hfirst.1)

theorem representative_of_get?_eq_none (h : s.get? name = none) :
    s.representative name = name := by
  rw [representative, h]

/-- A bound name is represented by the first name with its right-hand side. -/
theorem isFirst_representative (h : s.get? name = some rhs) :
    s.IsFirst rhs (s.representative name) := by
  have hmem : (name, rhs) ∈ s.toList := SortedMap.get?_eq_some_iff.mp h
  cases hfind : s.toList.find? fun e => e.2 == rhs with
  | none => exact absurd (beq_iff_eq.mpr rfl) (List.find?_eq_none.mp hfind _ hmem)
  | some e =>
    obtain ⟨hrhs, before, behind, hsplit, hbefore⟩ := List.find?_eq_some_iff_append.mp hfind
    have hrepresentative : s.representative name = e.1 := by
      rw [representative, h]
      dsimp only
      rw [hfind]
      rfl
    rw [hrepresentative]
    refine ⟨?_, fun other hother hlt => ?_⟩
    · rw [← beq_iff_eq.mp hrhs]
      exact SortedMap.get?_of_mem (List.mem_of_find?_eq_some hfind)
    · -- Another entry with this right-hand side comes after the one that is found.
      have hsorted := s.sorted
      have hentry : (other, rhs) ∈ s.toList := SortedMap.get?_eq_some_iff.mp hother
      rw [hsplit] at hsorted hentry
      rcases List.mem_append.mp hentry with hentry | hentry
      · have := hbefore _ hentry
        simp at this
      · rcases List.mem_cons.mp hentry with rfl | hentry
        · exact SortedMap.ne_of_compare_lt hlt rfl
        · have hafter := (List.pairwise_cons.mp (List.pairwise_append.mp hsorted).2.1).1 _ hentry
          exact SortedMap.ne_of_compare_lt (Std.TransCmp.lt_trans hlt hafter) rfl

theorem representative_eq_self_iff (h : s.get? name = some rhs) :
    s.representative name = name ↔ s.IsFirst rhs name := by
  constructor
  · intro heq
    rw [← heq]
    exact isFirst_representative h
  · exact (isFirst_representative h).unique

/-- Representatives stand for themselves. -/
theorem representative_representative (s : EquationSet) (name : Atom) :
    s.representative (s.representative name) = s.representative name := by
  cases h : s.get? name with
  | none => rw [representative_of_get?_eq_none h, representative_of_get?_eq_none h]
  | some rhs =>
    have hfirst := isFirst_representative h
    exact (representative_eq_self_iff hfirst.1).mpr hfirst

/-- What is left are the equations of the first names, with representatives for references. -/
theorem get?_removeDuplicates : s.removeDuplicates.get? name = some t ↔
    ∃ rhs, s.IsFirst rhs name ∧ t = rhs.mapVariables s.representative := by
  rw [removeDuplicates, mapVariables, SortedMap.get?_mapValues, Option.map_eq_some_iff]
  simp only [SortedMap.get?_filter_eq_some_iff, beq_iff_eq]
  constructor
  · rintro ⟨rhs, ⟨hrhs, hself⟩, rfl⟩
    exact ⟨rhs, (representative_eq_self_iff hrhs).mp hself, rfl⟩
  · rintro ⟨rhs, hfirst, rfl⟩
    exact ⟨rhs, ⟨hfirst.1, (representative_eq_self_iff hfirst.1).mpr hfirst⟩, rfl⟩

theorem representative_mem_vars (hv : v ∈ s.vars) : s.representative v ∈ s.vars := by
  cases h : s.get? v with
  | none => rwa [representative_of_get?_eq_none h]
  | some rhs => exact mem_vars_of_get? (isFirst_representative h).1

/-- The variables that are left are those that represent themselves. -/
theorem mem_vars_removeDuplicates :
    v ∈ s.removeDuplicates.vars ↔ v ∈ s.vars ∧ s.representative v = v := by
  rw [mem_vars, SortedMap.mem_keys_iff]
  constructor
  · rintro (⟨t, ht⟩ | ⟨name, hedge⟩)
    · obtain ⟨rhs, hfirst, -⟩ := get?_removeDuplicates.mp ht
      exact ⟨mem_vars_of_get? hfirst.1, (representative_eq_self_iff hfirst.1).mpr hfirst⟩
    · obtain ⟨t, ht, hv⟩ := mem_dependencyGraph.mp hedge
      obtain ⟨rhs, hfirst, rfl⟩ := get?_removeDuplicates.mp (SortedMap.get?_eq_some_iff.mpr ht)
      rw [Term.mem_dependencies, Term.toArg_mapVariables, Arg.references_mapVariables] at hv
      obtain ⟨w, hw, rfl⟩ := List.mem_map.mp hv
      refine ⟨representative_mem_vars ?_, s.representative_representative w⟩
      exact mem_vars_of_mem_dependencies hfirst.1 (Term.mem_dependencies.mpr hw)
  · rintro ⟨hvars, hself⟩
    rcases mem_vars.mp hvars with hkey | ⟨name, hedge⟩
    · obtain ⟨rhs, hrhs⟩ := SortedMap.mem_keys_iff.mp hkey
      have hfirst := (representative_eq_self_iff hrhs).mp hself
      exact .inl ⟨_, get?_removeDuplicates.mpr ⟨rhs, hfirst, rfl⟩⟩
    · obtain ⟨rhs, hmem, hv⟩ := mem_dependencyGraph.mp hedge
      have hfirst := isFirst_representative (SortedMap.get?_eq_some_iff.mpr hmem)
      have ht := get?_removeDuplicates.mpr ⟨rhs, hfirst, rfl⟩
      refine .inr ⟨_, (mem_dependencyGraph_iff ht).mpr ?_⟩
      rw [Term.toArg_mapVariables, Arg.references_mapVariables]
      exact List.mem_map.mpr ⟨v, Term.mem_dependencies.mp hv, hself⟩

/-- Names with equal right-hand sides have equal values. -/
theorem Solves.representative_eq (h : s.Solves M σ) (v : Atom) : σ (s.representative v) = σ v := by
  cases hv : s.get? v with
  | none => rw [representative_of_get?_eq_none hv]
  | some rhs => rw [h v rhs hv, h _ rhs (isFirst_representative hv).1]

/-- What is left holds exactly if the whole set does with the values of the representatives. -/
theorem solves_removeDuplicates_iff :
    s.removeDuplicates.Solves M τ ↔ s.Solves M (τ ∘ s.representative) := by
  constructor
  · intro h name rhs hrhs
    have hleft := get?_removeDuplicates.mpr ⟨rhs, isFirst_representative hrhs, rfl⟩
    exact (h _ _ hleft).trans rhs.eval_mapVariables
  · intro h name t ht
    obtain ⟨rhs, hfirst, rfl⟩ := get?_removeDuplicates.mp ht
    rw [rhs.eval_mapVariables, ← h name rhs hfirst.1, Function.comp_apply,
      (representative_eq_self_iff hfirst.1).mpr hfirst]

theorem Solves.removeDuplicates (h : s.Solves M σ) : s.removeDuplicates.Solves M σ := by
  have hσ : σ ∘ s.representative = σ := funext h.representative_eq
  rw [solves_removeDuplicates_iff, hσ]
  exact h

/-- Values of the variables of a set.  Whatever other names are worth, all equations hold. -/
@[ext]
structure Solution (s : EquationSet) (M : Meaning V) where
  value : { v // v ∈ s.vars } → V
  solves : ∀ ρ : Atom → V, (∀ v, ρ v.1 = value v) → s.Solves M ρ

namespace Solution

/-- The values of an assignment that solves the set. -/
def ofSolves (h : s.Solves M σ) : s.Solution M where
  value v := σ v.1
  solves _ hρ := h.congr fun v hv => hρ ⟨v, hv⟩

/-- The solution with some value for the names that are no variables. -/
def extend (x : s.Solution M) (v : Atom) : V :=
  if h : v ∈ s.vars then x.value ⟨v, h⟩ else M.literal ⟨0⟩

theorem extend_eq (x : s.Solution M) (v : { v // v ∈ s.vars }) : x.extend v.1 = x.value v :=
  dif_pos v.2

theorem solves_extend (x : s.Solution M) : s.Solves M x.extend := x.solves _ x.extend_eq

/-- The solution on the variables that are left. -/
def restrict (x : s.Solution M) : s.removeDuplicates.Solution M where
  value v := x.value ⟨v.1, (mem_vars_removeDuplicates.mp v.2).1⟩
  solves _ hρ := x.solves_extend.removeDuplicates.congr fun v hv =>
    (hρ ⟨v, hv⟩).trans (x.extend_eq ⟨v, _⟩).symm

theorem value_representative (x : s.Solution M) (v : { v // v ∈ s.vars }) :
    x.value ⟨s.representative v.1, representative_mem_vars v.2⟩ = x.value v := by
  rw [← x.extend_eq, ← x.extend_eq]
  exact x.solves_extend.representative_eq v.1

theorem restrict_injective : Function.Injective (restrict (s := s) (M := M)) := by
  intro x y h
  ext v
  have hleft : s.representative v.1 ∈ s.removeDuplicates.vars := mem_vars_removeDuplicates.mpr
    ⟨representative_mem_vars v.2, s.representative_representative v.1⟩
  rw [← x.value_representative, ← y.value_representative]
  exact congrFun (congrArg value h) ⟨s.representative v.1, hleft⟩

theorem restrict_surjective : Function.Surjective (restrict (s := s) (M := M)) := by
  intro y
  refine ⟨ofSolves (solves_removeDuplicates_iff.mp y.solves_extend), ?_⟩
  ext v
  change y.extend (s.representative v.1) = y.value v
  rw [(mem_vars_removeDuplicates.mp v.2).2]
  exact y.extend_eq v

end Solution

/-- Of the equations with one right-hand side the first is left.  References to the others go to
it, and those to names that are not bound stay. -/
structure Merges (s d : EquationSet) (r : Atom → Atom) : Prop where
  get?_iff : ∀ name t, d.get? name = some t ↔ ∃ rhs, s.IsFirst rhs name ∧ t = rhs.mapVariables r
  first : ∀ name rhs, s.get? name = some rhs → s.IsFirst rhs (r name)
  unbound : ∀ name, s.get? name = none → r name = name
  /-- A dropped name is no variable of what is left. -/
  dropped : ∀ name rhs, s.get? name = some rhs → ¬ s.IsFirst rhs name → name ∉ d.vars

theorem merges_removeDuplicates (s : EquationSet) :
    s.Merges s.removeDuplicates s.representative where
  get?_iff _ _ := get?_removeDuplicates
  first _ _ := isFirst_representative
  unbound _ := representative_of_get?_eq_none
  dropped _ _ hrhs hfirst hvars :=
    hfirst ((representative_eq_self_iff hrhs).mp (mem_vars_removeDuplicates.mp hvars).2)

/-- The solutions of a set are those of what is left without its duplicates: on the variables
that are left they are the same, and a dropped name has the value of the first name with its
right-hand side. -/
theorem restrict_bijective_and_merges (s : EquationSet) (M : Meaning V) :
    Function.Bijective (Solution.restrict (s := s) (M := M)) ∧
    (∀ (x : s.Solution M) name first rhs (hname : s.get? name = some rhs)
      (hfirst : s.IsFirst rhs first),
      x.value ⟨name, mem_vars_of_get? hname⟩ = x.value ⟨first, mem_vars_of_get? hfirst.1⟩) ∧
    s.Merges s.removeDuplicates s.representative := by
  refine ⟨⟨Solution.restrict_injective, Solution.restrict_surjective⟩, ?_,
    s.merges_removeDuplicates⟩
  intro x name first rhs hname hfirst
  have hrepresentative := (isFirst_representative hname).unique hfirst
  rw [← x.value_representative]
  exact congrArg x.value (Subtype.ext hrepresentative)

/-- The circuit `a = neg(b)`, `b = neg(b)`, `c = b`, `d = b`. -/
def selfReference : EquationSet :=
  let a : Atom := ⟨['a'], .refl true⟩
  let b : Atom := ⟨['b'], .refl true⟩
  .ofList [(a, ⟨Element.neg.name, [.node b []]⟩), (b, ⟨Element.neg.name, [.node b []]⟩),
    (⟨['c'], .refl true⟩, .var b), (⟨['d'], .refl true⟩, .var b)]

/-- The equation of `b` refers to itself, and so does what is left of it under the name `a`. -/
example :
    let a : Atom := ⟨['a'], .refl true⟩
    selfReference.removeDuplicates =
      .ofList [(a, ⟨Element.neg.name, [.node a []]⟩), (⟨['c'], .refl true⟩, .var a)] := by
  rfl

end EquationSet

end DiffAnalyzer
