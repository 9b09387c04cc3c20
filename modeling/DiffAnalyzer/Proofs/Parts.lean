import DiffAnalyzer.Proofs.Linearization
import Mathlib

/-!
# Parts of a set and equations of its linear form

The applications among the right-hand sides of a linear form are those of its source
with names for their arguments: every part of the source is stated by some equation
(`IsLinearization.exists_get?_flat`), and every equation states a part
(`IsLinearization.eq_flat_of_get?`).
-/

namespace DiffAnalyzer

/-- An application with names for its arguments. -/
def Naming.flat (n : Naming) (head : Atom) (tail : List Arg) : Term :=
  ⟨head, tail.map (Arg.replace n.standIn)⟩

theorem Naming.isCompound_flat (n : Naming) (head : Atom) {tail : List Arg} (h : tail ≠ []) :
    (n.flat head tail).isCompound = true := by
  simpa [Term.isCompound_iff, Term.isVariable, flat] using h

theorem Naming.flat_of_isFlat (n : Naming) {t : Term} (h : t.isFlat = true) :
    n.flat t.head t.tail = t :=
  Term.ext rfl (n.map_replace_of_isFlat h)

/-- An application stays as it is or gets its name. -/
theorem Naming.standIn_cases (n : Naming) {t : Term} (ht : t.isCompound = true) :
    n.standIn t = t ∨ ∃ name, n.names.lookup t = some name ∧ n.standIn t = .var name := by
  cases hname : n.names.lookup t with
  | none =>
    left
    rw [standIn, Term.isCompound_iff.mp ht, hname]
    rfl
  | some name => exact .inr ⟨name, rfl, standIn_of_lookup ht hname⟩

/-- An application among arguments has a name. -/
theorem Naming.exists_lookup_of_isSimple (n : Naming) {head : Atom} {tail : List Arg}
    (hne : tail ≠ [])
    (hsimple : ((Arg.node head tail).replace n.standIn).isSimple = true) :
    ∃ k, n.names.lookup (n.flat head tail) = some k := by
  rw [Arg.replace_node, Arg.isSimple_toArg] at hsimple
  rcases n.standIn_cases (n.isCompound_flat head hne) with hstand | ⟨k, hk, -⟩
  · change (n.standIn (n.flat head tail)).isVariable = true at hsimple
    rw [hstand, Term.isCompound_iff.mp (n.isCompound_flat head hne)] at hsimple
    cases hsimple
  · exact ⟨k, hk⟩

namespace EquationSet

variable {strict : Bool} {s l : EquationSet} {n : Naming} {head name : Atom} {tail : List Arg}
  {rhs t : Term} {a : Arg}

/-- In a set in linear form only right-hand sides are applications. -/
theorem exists_get?_of_isPart (hflat : ∀ name rhs, s.get? name = some rhs → rhs.isFlat = true)
    (h : s.IsPart (.node head tail)) (hne : tail ≠ []) :
    ∃ name, s.get? name = some ⟨head, tail⟩ ∧ (⟨head, tail⟩ : Term).isCompound = true := by
  have hsimple : ∀ a, s.IsPart a → a.isSimple = true ∨
      ∃ name rhs, s.get? name = some rhs ∧ a = rhs.toArg := fun a ha => by
    induction ha with
    | whole h => exact .inr ⟨_, _, h, rfl⟩
    | @argument head tail a _ ha ih =>
      refine .inl ?_
      rcases ih with hnode | ⟨name, rhs, hrhs, heq⟩
      · rw [Arg.isSimple_node, List.isEmpty_iff] at hnode
        rw [hnode] at ha
        exact absurd ha List.not_mem_nil
      · cases heq
        exact Term.isFlat_iff.mp (hflat name rhs hrhs) a ha
  rcases hsimple _ h with hnode | ⟨name, rhs, hrhs, heq⟩
  · exact absurd (List.isEmpty_iff.mp (Arg.isSimple_node head tail ▸ hnode)) hne
  · cases heq
    exact ⟨name, hrhs, Term.isCompound_iff_ne_nil.mpr hne⟩

/-- Variables of parts are variables of the set. -/
theorem mem_vars_of_isPart (h : s.IsPart a) {u : Atom} (hu : u ∈ a.references) : u ∈ s.vars := by
  induction h with
  | whole h => exact mem_vars_of_mem_dependencies h (Term.mem_dependencies.mpr hu)
  | argument _ ha ih => exact ih (Arg.mem_references_node.mpr (.inr ⟨_, ha, hu⟩))

/-- A variable of a part is the part, or an argument of an application among the parts. -/
theorem exists_isPart_of_mem_references (h : s.IsPart a) {u : Atom} (hu : u ∈ a.references) :
    a = .node u [] ∨ ∃ head tail, s.IsPart (.node head tail) ∧ .node u [] ∈ tail := by
  induction a using Arg.induct with
  | number x => exact absurd hu List.not_mem_nil
  | node head tail ih =>
    rcases Arg.mem_references_node.mp hu with ⟨rfl, rfl⟩ | ⟨b, hb, hub⟩
    · exact .inl rfl
    · rcases ih b hb (.argument h hb) hub with rfl | hpart
      · exact .inr ⟨head, tail, h, hb⟩
      · exact .inr hpart

/-- The variables of a set are the bound names and the variables among its parts. -/
theorem mem_vars_iff {u : Atom} :
    u ∈ s.vars ↔ (∃ rhs, s.get? u = some rhs) ∨ s.IsPart (.node u []) := by
  constructor
  · intro hu
    rcases mem_vars.mp hu with hkey | ⟨name, hedge⟩
    · exact .inl (SortedMap.mem_keys_iff.mp hkey)
    · obtain ⟨rhs, hrhs, hdep⟩ := mem_dependencyGraph.mp hedge
      have hwhole : s.IsPart rhs.toArg := .whole (SortedMap.get?_eq_some_iff.mpr hrhs)
      rcases exists_isPart_of_mem_references hwhole (Term.mem_dependencies.mp hdep) with
        heq | ⟨head, tail, hpart, hmem⟩
      · exact .inr (heq ▸ hwhole)
      · exact .inr (.argument hpart hmem)
  · rintro (⟨rhs, hrhs⟩ | hpart)
    · exact mem_vars_of_get? hrhs
    · exact mem_vars_of_isPart hpart List.mem_cons_self

namespace IsLinearization

variable (h : IsLinearization strict s l n)
include h

/-- An equation that keeps its outermost application states it. -/
theorem get?_of_keepsRoot (hrhs : s.get? name = some rhs)
    (hkeep : keepsRoot strict name rhs = true) :
    l.get? name = some (n.flat rhs.head rhs.tail) := by
  rw [h.get?_of_get? hrhs, Naming.linear, hkeep, Term.replace_eq]
  rfl

/-- The equation of a bound name states its right-hand side, or refers to the name that
does. -/
theorem get?_bound_cases (hrhs : s.get? name = some rhs) :
    l.get? name = some (n.flat rhs.head rhs.tail) ∨
      rhs.isCompound = true ∧ ∃ k, l.get? name = some (.var k) ∧
        l.get? k = some (n.flat rhs.head rhs.tail) := by
  have hl := h.get?_of_get? hrhs
  rw [Naming.linear, Term.replace_eq] at hl
  split at hl
  · by_cases hvar : rhs.isVariable = true
    · have hflat : n.flat rhs.head rhs.tail = rhs := by
        rw [Naming.flat, List.isEmpty_iff.mp hvar, List.map_nil, ← List.isEmpty_iff.mp hvar]
      change l.get? name = some (n.standIn (n.flat rhs.head rhs.tail)) at hl
      rw [hflat, n.standIn_of_isVariable hvar] at hl
      rw [hflat]
      exact .inl hl
    · have hne : rhs.tail ≠ [] := fun hnil => hvar (List.isEmpty_iff.mpr hnil)
      change l.get? name = some (n.standIn (n.flat rhs.head rhs.tail)) at hl
      rcases n.standIn_cases (n.isCompound_flat rhs.head hne) with hstand | ⟨k, hk, hstand⟩
      · rw [hstand] at hl
        exact .inl hl
      · rw [hstand] at hl
        refine .inr ⟨?_, k, hl, (h.get?_of_lookup hk).1⟩
        rw [Term.isCompound_iff, ← Bool.not_eq_true]
        exact hvar
  · exact .inl hl

/-- The equation of a bound name, without the one that it may refer to. -/
theorem exists_get?_flat_of_get? (hrhs : s.get? name = some rhs) :
    ∃ k, l.get? k = some (n.flat rhs.head rhs.tail) := by
  rcases h.get?_bound_cases hrhs with hl | ⟨-, k, -, hk⟩
  · exact ⟨name, hl⟩
  · exact ⟨k, hk⟩

/-- Every application of the source is stated by some equation. -/
theorem exists_get?_flat (hpart : s.IsPart (.node head tail)) (hne : tail ≠ []) :
    ∃ name, l.get? name = some (n.flat head tail) := by
  generalize ha : Arg.node head tail = a at hpart
  induction hpart generalizing head tail with
  | @whole name rhs hrhs =>
    cases ha
    exact h.exists_get?_flat_of_get? hrhs
  | argument _ hmem ih =>
    subst ha
    obtain ⟨name, hname⟩ := ih (List.ne_nil_of_mem hmem) rfl
    have hsimple := Term.isFlat_iff.mp (h.isFlat hname) _ (List.mem_map_of_mem hmem)
    obtain ⟨k, hk⟩ := n.exists_lookup_of_isSimple hne hsimple
    exact ⟨k, (h.get?_of_lookup hk).1⟩

/-- Arguments are replaced by literals and variables. -/
theorem isSimple_replace (hpart : s.IsPart (.node head tail)) (ha : a ∈ tail) :
    (a.replace n.standIn).isSimple = true := by
  obtain ⟨name, hname⟩ := h.exists_get?_flat hpart (List.ne_nil_of_mem ha)
  exact Term.isFlat_iff.mp (h.isFlat hname) _ (List.mem_map_of_mem ha)

/-- Every application of the linear form states a part of the source. -/
theorem eq_flat_of_get? (ht : l.get? name = some t) (hcompound : t.isCompound = true) :
    ∃ head tail, s.IsPart (.node head tail) ∧ tail ≠ [] ∧ t = n.flat head tail := by
  have hne : ∀ {head : Atom} {tail : List Arg}, t = n.flat head tail → tail ≠ [] := by
    rintro head tail rfl hnil
    subst hnil
    cases hcompound
  rcases h.get?_cases ht with ⟨rhs, hrhs, -⟩ | hfresh
  · rcases h.get?_bound_cases hrhs with hl | ⟨-, k, hl, -⟩
    · have heq := Option.some.inj (ht.symm.trans hl)
      exact ⟨rhs.head, rhs.tail, .whole hrhs, hne heq, heq⟩
    · cases Option.some.inj (ht.symm.trans hl)
      cases hcompound
  · obtain ⟨head, tail, hpart, hflat⟩ := h.traced name t hfresh
    have heq := (hflat n .refl).symm
    exact ⟨head, tail, hpart.isPart, hne heq, heq⟩

/-- Variables of the source occur in the linear form. -/
theorem mem_vars_of_mem_vars {u : Atom} (hu : u ∈ s.vars) : u ∈ l.vars := by
  rcases mem_vars_iff.mp hu with ⟨rhs, hrhs⟩ | hpart
  · exact mem_vars_of_get? (h.get?_of_get? hrhs)
  · generalize ha : Arg.node u [] = a at hpart
    cases hpart with
    | @whole name rhs hrhs =>
      have hvar : rhs = .var u := Term.ext (Arg.node.inj ha).1.symm (Arg.node.inj ha).2.symm
      subst hvar
      refine mem_vars_of_mem_dependencies (h.get?_of_get? hrhs) ?_
      rw [n.linear_of_isVariable strict name rfl]
      exact List.mem_cons_self
    | argument hpart hmem =>
      subst ha
      obtain ⟨k, hk⟩ := h.exists_get?_flat hpart (List.ne_nil_of_mem hmem)
      refine mem_vars_of_mem_dependencies hk (Term.mem_dependencies.mpr ?_)
      refine Arg.mem_references_node.mpr (.inr ⟨.node u [], ?_, List.mem_cons_self⟩)
      rw [← n.replace_of_isSimple (a := .node u []) rfl]
      exact List.mem_map_of_mem hmem

/-- All variables of the linear form are bound when those of the source are. -/
theorem bound_iff :
    (∀ u ∈ l.vars, l.contains u = true) ↔ ∀ u ∈ s.vars, s.contains u = true := by
  constructor
  · intro hl u hu
    obtain ⟨t, ht⟩ := Option.isSome_iff_exists.mp (hl u (h.mem_vars_of_mem_vars hu))
    rcases h.get?_cases ht with ⟨rhs, hrhs, -⟩ | hfresh
    · exact Option.isSome_iff_exists.mpr ⟨rhs, hrhs⟩
    · exact absurd hu (h.isSound.not_used u t hfresh)
  · intro hs u hu
    rcases h.knows_of_mem_vars hu with hu | hu
    · obtain ⟨rhs, hrhs⟩ := Option.isSome_iff_exists.mp (hs u hu)
      exact Option.isSome_iff_exists.mpr ⟨_, h.get?_of_get? hrhs⟩
    · obtain ⟨t, ht⟩ := Option.isSome_iff_exists.mp hu
      exact Option.isSome_iff_exists.mpr ⟨t, h.get?_of_fresh ht⟩

end IsLinearization

end EquationSet

end DiffAnalyzer
