import DiffAnalyzer.Proofs.Cleaning
import Mathlib

/-!
# Laws of the renaming traversals

Renaming all heads is renaming the variables and the heads of applications, in either order, and
each of the three traversals takes a composition of functions to a composition of traversals.
The variables of a term are left alone where only heads of applications are renamed, and are
renamed one by one otherwise; names that become equal count where the first of them stood
(`Term.mapHeads_splits_and_composes`).
-/

namespace DiffAnalyzer

section Duplicates

variable {α β : Type} [BEq α] [LawfulBEq α] [BEq β] [LawfulBEq β]

/-- A further member is kept unless it was there before. -/
theorem eraseDups_concat (l : List α) (x : α) :
    (l ++ [x]).eraseDups = if x ∈ l then l.eraseDups else l.eraseDups ++ [x] := by
  rw [List.eraseDups_append, List.removeAll]
  by_cases h : x ∈ l
  · simp [h]
  · simp [h, List.eraseDups_cons]

/-- Repetitions may be removed before a function is applied, if they are removed again after. -/
theorem eraseDups_map_eraseDups (f : α → β) (l : List α) :
    (l.eraseDups.map f).eraseDups = (l.map f).eraseDups := by
  induction l using List.reverseRecOn with
  | nil => rfl
  | append_singleton l x ih =>
    rw [eraseDups_concat, List.map_append, List.map_singleton, eraseDups_concat, ← ih]
    by_cases h : x ∈ l
    · rw [if_pos h, if_pos (List.mem_map_of_mem h)]
    · have hmem : f x ∈ l.eraseDups.map f ↔ f x ∈ l.map f := by simp
      rw [if_neg h, List.map_append, List.map_singleton, eraseDups_concat]
      simp only [hmem]

end Duplicates

variable {f g : Atom → Atom}

namespace Arg

/-- Induction that tells variables from applications. -/
@[elab_as_elim]
theorem leafInduct {motive : Arg → Prop} (number : ∀ x, motive (.number x))
    (leaf : ∀ v, motive (.node v []))
    (application : ∀ head tail, tail ≠ [] → (∀ a ∈ tail, motive a) → motive (.node head tail))
    (a : Arg) : motive a := by
  induction a using Arg.induct with
  | number x => exact number x
  | node head tail ih =>
    by_cases hnil : tail = []
    · exact hnil ▸ leaf head
    · exact application head tail hnil ih

theorem mapElements_variable (v : Atom) : (Arg.node v []).mapElements f = .node v [] := by
  rw [mapElements]

theorem mapElements_node (head : Atom) {tail : List Arg} (h : tail ≠ []) :
    (Arg.node head tail).mapElements f = .node (f head) (tail.map (Arg.mapElements f)) := by
  cases tail with
  | nil => exact absurd rfl h
  | cons a rest => rw [mapElements, mapElementsList_eq_map, List.map_cons]

theorem references_mapElements (a : Arg) : (a.mapElements f).references = a.references :=
  (references_map (fun _ => rfl) mapElements_variable
    (fun head _ h => ⟨f head, mapElements_node head h⟩) a).trans (List.map_id _)

/-- Variables and heads of applications are renamed apart from each other. -/
theorem mapVariables_mapElements (a : Arg) :
    (a.mapElements f).mapVariables g = (a.mapVariables g).mapElements f := by
  induction a using leafInduct with
  | number x => rfl
  | leaf v => rfl
  | application head tail h ih =>
    have hmap (k : Arg → Arg) : tail.map k ≠ [] := mt List.map_eq_nil_iff.mp h
    rw [mapElements_node head h, mapVariables_node head h, mapVariables_node _ (hmap _),
      mapElements_node _ (hmap _), List.map_map, List.map_map]
    exact congrArg _ (List.map_congr_left ih)

theorem mapHeads_eq_mapVariables (a : Arg) :
    a.mapHeads f = (a.mapElements f).mapVariables f := by
  induction a using leafInduct with
  | number x => rfl
  | leaf v => rfl
  | application head tail h ih =>
    rw [mapHeads_node, mapElements_node head h,
      mapVariables_node _ (mt List.map_eq_nil_iff.mp h), List.map_map]
    exact congrArg _ (List.map_congr_left ih)

theorem mapVariables_comp (a : Arg) :
    a.mapVariables (g ∘ f) = (a.mapVariables f).mapVariables g := by
  induction a using leafInduct with
  | number x => rfl
  | leaf v => rfl
  | application head tail h ih =>
    rw [mapVariables_node head h, mapVariables_node head h,
      mapVariables_node _ (mt List.map_eq_nil_iff.mp h), List.map_map]
    exact congrArg _ (List.map_congr_left ih)

theorem mapElements_comp (a : Arg) :
    a.mapElements (g ∘ f) = (a.mapElements f).mapElements g := by
  induction a using leafInduct with
  | number x => rfl
  | leaf v => rfl
  | application head tail h ih =>
    rw [mapElements_node head h, mapElements_node head h,
      mapElements_node _ (mt List.map_eq_nil_iff.mp h), List.map_map]
    exact congrArg _ (List.map_congr_left ih)

theorem mapHeads_comp (a : Arg) : a.mapHeads (g ∘ f) = (a.mapHeads f).mapHeads g := by
  calc a.mapHeads (g ∘ f)
    _ = (a.mapElements (g ∘ f)).mapVariables (g ∘ f) := mapHeads_eq_mapVariables a
    _ = (((a.mapElements f).mapElements g).mapVariables f).mapVariables g := by
      rw [mapElements_comp, mapVariables_comp]
    _ = (((a.mapElements f).mapVariables f).mapElements g).mapVariables g := by
      rw [mapVariables_mapElements]
    _ = (a.mapHeads f).mapHeads g := by
      rw [← mapHeads_eq_mapVariables, ← mapHeads_eq_mapVariables]

end Arg

namespace Term

theorem toArg_injective : Function.Injective Term.toArg := fun s t h => by
  cases s
  cases t
  cases h
  rfl

theorem toArg_mapElements (t : Term) : (t.mapElements f).toArg = t.toArg.mapElements f := by
  obtain ⟨head, tail⟩ := t
  cases tail with
  | nil => rfl
  | cons a rest => exact (Arg.mapElements_node head (List.cons_ne_nil a rest)).symm

/-- A variable has no variables below its root. -/
theorem vars_eq (t : Term) :
    t.vars = if t.isVariable then [] else t.toArg.references.eraseDups := by
  obtain ⟨head, tail⟩ := t
  cases tail with
  | nil => rfl
  | cons a rest => rfl

theorem isVariable_mapVariables (t : Term) : (t.mapVariables f).isVariable = t.isVariable := by
  obtain ⟨head, tail⟩ := t
  cases tail with
  | nil => rfl
  | cons a rest => rfl

theorem isVariable_mapElements (t : Term) : (t.mapElements f).isVariable = t.isVariable := by
  obtain ⟨head, tail⟩ := t
  cases tail with
  | nil => rfl
  | cons a rest => rfl

theorem vars_mapElements (t : Term) : (t.mapElements f).vars = t.vars := by
  rw [vars_eq, vars_eq, isVariable_mapElements, toArg_mapElements, Arg.references_mapElements]

/-- The variables are renamed, and those that become equal count once. -/
theorem vars_mapVariables (t : Term) : (t.mapVariables f).vars = (t.vars.map f).eraseDups := by
  rw [vars_eq, vars_eq, isVariable_mapVariables, toArg_mapVariables, Arg.references_mapVariables]
  split
  · rfl
  · exact (eraseDups_map_eraseDups f _).symm

/-- Renaming all heads splits into the two other traversals, and all three respect composition.
The list of variables stays where heads of applications are renamed; where variables are renamed
its members are, and the repetitions after the first are dropped. -/
theorem mapHeads_splits_and_composes (f g : Atom → Atom) :
    (∀ t : Term, t.mapHeads f = (t.mapElements f).mapVariables f ∧
      t.mapHeads f = (t.mapVariables f).mapElements f) ∧
    Term.mapHeads (g ∘ f) = Term.mapHeads g ∘ Term.mapHeads f ∧
    Term.mapVariables (g ∘ f) = Term.mapVariables g ∘ Term.mapVariables f ∧
    Term.mapElements (g ∘ f) = Term.mapElements g ∘ Term.mapElements f ∧
    (∀ t : Term, (t.mapElements f).vars = t.vars) ∧
    ∀ t : Term, (t.mapVariables f).vars = (t.vars.map f).eraseDups := by
  refine ⟨fun t => ⟨toArg_injective ?_, toArg_injective ?_⟩, funext fun t => toArg_injective ?_,
    funext fun t => toArg_injective ?_, funext fun t => toArg_injective ?_, vars_mapElements,
    vars_mapVariables⟩
  · rw [toArg_mapHeads, toArg_mapVariables, toArg_mapElements, Arg.mapHeads_eq_mapVariables]
  · rw [toArg_mapHeads, toArg_mapElements, toArg_mapVariables, Arg.mapHeads_eq_mapVariables,
      Arg.mapVariables_mapElements]
  · rw [Function.comp_apply, toArg_mapHeads, toArg_mapHeads, toArg_mapHeads, Arg.mapHeads_comp]
  · rw [Function.comp_apply, toArg_mapVariables, toArg_mapVariables, toArg_mapVariables,
      Arg.mapVariables_comp]
  · rw [Function.comp_apply, toArg_mapElements, toArg_mapElements, toArg_mapElements,
      Arg.mapElements_comp]

end Term

end DiffAnalyzer
