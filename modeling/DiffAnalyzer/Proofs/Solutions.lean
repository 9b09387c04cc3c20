import DiffAnalyzer.Proofs.Linearization
import Mathlib

/-!
# Solutions of equation sets

An assignment solves a set if every equation holds under it, whatever literals and heads
mean.  Linearizing keeps the solutions: the fresh equations determine the fresh names
from the variables of the source (`Naming.existsUnique_solves_fresh`), and where they
hold, the source and its linear form say the same (`IsLinearization.solves_iff`).
-/

universe u

namespace DiffAnalyzer

/-- What literals and the heads of applications stand for in a carrier. -/
structure Meaning (V : Type u) where
  literal : Number → V
  apply : Atom → List V → V

variable {V : Type u} (M : Meaning V) (σ τ : Atom → V)

namespace Arg

mutual

/-- The value of an argument. -/
def eval : Arg → V
  | .number x => M.literal x
  | .node head [] => σ head
  | .node head (a :: rest) => M.apply head (eval a :: evalList rest)

def evalList : List Arg → List V
  | [] => []
  | a :: rest => eval a :: evalList rest

end

theorem evalList_eq_map (args : List Arg) : evalList M σ args = args.map (eval M σ) := by
  induction args with
  | nil => rfl
  | cons a rest ih => rw [evalList, ih, List.map_cons]

theorem eval_number (x : Number) : (Arg.number x).eval M σ = M.literal x := by
  rw [eval]

theorem eval_variable (head : Atom) : (Arg.node head []).eval M σ = σ head := by
  rw [eval]

theorem eval_application (head : Atom) {tail : List Arg} (h : tail ≠ []) :
    (Arg.node head tail).eval M σ = M.apply head (tail.map (eval M σ)) := by
  cases tail with
  | nil => exact absurd rfl h
  | cons a rest => rw [eval, evalList_eq_map, List.map_cons]

variable {M σ τ}

/-- The value depends on the variables that are referred to. -/
theorem eval_congr {a : Arg} (h : ∀ v ∈ a.references, τ v = σ v) : a.eval M τ = a.eval M σ := by
  induction a using Arg.induct with
  | number x => rw [eval_number, eval_number]
  | node head tail ih =>
    by_cases hnil : tail = []
    · subst hnil
      rw [eval_variable, eval_variable]
      exact h head List.mem_cons_self
    · rw [eval_application M τ head hnil, eval_application M σ head hnil]
      refine congrArg _ (List.map_congr_left fun a ha => ih a ha fun v hv => h v ?_)
      exact mem_references_node.mpr (.inr ⟨a, ha, hv⟩)

end Arg

/-- The value of a term. -/
def Term.eval (t : Term) : V := t.toArg.eval M σ

/-- The assignment satisfies every equation. -/
def EquationSet.Solves (s : EquationSet) : Prop :=
  ∀ name rhs, s.get? name = some rhs → σ name = rhs.eval M σ

/-- Two assignments agree but on some names. -/
def AgreeOff (names : List Atom) : Prop := ∀ v, v ∉ names → τ v = σ v

/-- The names of the linear form that are no variables of its source. -/
def EquationSet.freshNames (s l : EquationSet) : List Atom :=
  l.vars.filter fun v => !s.vars.contains v

variable {M σ τ}

theorem Term.eval_congr {t : Term} (h : ∀ v ∈ t.toArg.references, τ v = σ v) :
    t.eval M τ = t.eval M σ := Arg.eval_congr h

theorem EquationSet.Solves.congr {s : EquationSet} (h : s.Solves M σ)
    (hvars : ∀ v ∈ s.vars, τ v = σ v) : s.Solves M τ := by
  intro name rhs hrhs
  rw [hvars name (mem_vars_of_get? hrhs), h name rhs hrhs]
  refine (Term.eval_congr fun v hv => hvars v (mem_vars_of_mem_dependencies hrhs ?_)).symm
  exact Term.mem_dependencies.mpr hv

namespace Naming

variable {n m start : Naming} {used : List Atom} {stated : List (Term × Atom)} {t : Term}
  {name : Atom}

theorem eval_standIn (h : ∀ t name, n.names.lookup t = some name → τ name = t.eval M τ)
    (t : Term) : (n.standIn t).eval M τ = t.eval M τ := by
  unfold standIn
  split
  · rfl
  · cases hname : n.names.lookup t with
    | none => rfl
    | some name =>
      rw [← h t name hname]
      exact Arg.eval_variable M τ name

/-- Names may replace applications where they have their values. -/
theorem eval_replace (h : ∀ t name, n.names.lookup t = some name → τ name = t.eval M τ)
    (a : Arg) : (a.replace n.standIn).eval M τ = a.eval M τ := by
  induction a using Arg.induct with
  | number x => rfl
  | node head tail ih =>
    rw [Arg.replace_node]
    refine (eval_standIn h _).trans ?_
    by_cases hnil : tail = []
    · rw [hnil]
      rfl
    · have hne : tail.map (Arg.replace n.standIn) ≠ [] := mt List.map_eq_nil_iff.mp hnil
      rw [Arg.eval_application M τ head hnil]
      refine (Arg.eval_application M τ head hne).trans ?_
      rw [List.map_map]
      exact congrArg _ (List.map_congr_left ih)

theorem eval_linear (h : ∀ t name, n.names.lookup t = some name → τ name = t.eval M τ)
    (strict : Bool) (name : Atom) (rhs : Term) :
    (n.linear strict name rhs).eval M τ = rhs.eval M τ := by
  by_cases hvar : rhs.isVariable = true
  · rw [n.linear_of_isVariable strict name hvar]
  · have hroot : (⟨rhs.head, rhs.tail.map (Arg.replace n.standIn)⟩ : Term).eval M τ =
        rhs.eval M τ := by
      have hnil : rhs.tail ≠ [] := fun hnil => hvar (List.isEmpty_iff.mpr hnil)
      refine (Arg.eval_application M τ rhs.head (mt List.map_eq_nil_iff.mp hnil)).trans ?_
      refine Eq.trans ?_ (Arg.eval_application M τ rhs.head hnil).symm
      rw [List.map_map]
      exact congrArg _ (List.map_congr_left fun a _ => eval_replace h a)
    rw [linear, Term.replace_eq]
    split
    · exact (eval_standIn h _).trans hroot
    · exact hroot

/-- A name that is given next occurs in no equation so far. -/
theorem IsLinear.ne_of_next? {u : Term} (linear : n.IsLinear used u)
    (free : n.next? used t = some name) {v : Atom} (hv : v ∈ u.toArg.references) : v ≠ name := by
  obtain ⟨hused, hfresh⟩ := not_mem_of_next? free
  rintro rfl
  rcases linear.isRightHandSide.knows v hv with h | h
  · exact hused h
  · rw [SortedMap.contains_eq_false_iff.mpr hfresh] at h
    cases h

section Give

variable {ρ : Atom → V} (free : m.next? used t = some name)
include free

theorem IsLinear.eval_update {u : Term} (linear : m.IsLinear used u) (x : V) :
    u.eval M (Function.update ρ name x) = u.eval M ρ :=
  Term.eval_congr fun _ hv => Function.update_of_ne (linear.ne_of_next? free hv) x ρ

theorem ne_of_get?_fresh {other : Atom} {u : Term} (hu : m.fresh.get? other = some u) :
    other ≠ name := by
  rintro rfl
  rw [(not_mem_of_next? free).2] at hu
  cases hu

theorem solves_give_iff :
    (m.give t name).fresh.Solves M ρ ↔ ρ name = t.eval M ρ ∧ m.fresh.Solves M ρ := by
  constructor
  · intro h
    refine ⟨h name t ((get?_give m t name name).trans (if_pos rfl)), fun other u hu => ?_⟩
    refine h other u ?_
    rw [get?_give, if_neg (ne_of_get?_fresh free hu), hu]
  · rintro ⟨hname, h⟩ other u hu
    rw [get?_give] at hu
    split at hu
    · rename_i heq
      rw [heq, hname, Option.some.inj hu]
    · exact h other u hu

/-- The equations given before say nothing about the new name. -/
theorem solves_update_iff (sound : m.IsSound used stated) (x : V) :
    m.fresh.Solves M (Function.update ρ name x) ↔ m.fresh.Solves M ρ := by
  refine forall₃_congr fun other u hu => ?_
  rw [Function.update_of_ne (ne_of_get?_fresh free hu),
    (sound.isLinear other u hu).eval_update free x]

end Give

/-- The fresh equations have exactly one solution for any values of the other names. -/
theorem Grows.existsUnique_solves_fresh (M : Meaning V) (σ : Atom → V)
    (h : Grows used start n) (hsound : start.IsSound used stated) (hempty : start.fresh = ∅) :
    ∃! τ, (∀ v, n.fresh.contains v = false → τ v = σ v) ∧ n.fresh.Solves M τ := by
  induction h with
  | refl =>
    rw [hempty]
    exact ⟨σ, ⟨fun _ _ => rfl, nofun⟩, fun τ hτ => funext fun v => hτ.1 v rfl⟩
  | @give m t name grows linear unnamed free ih =>
    have hm := grows.isSound hsound
    obtain ⟨τ, ⟨hagree, hsolves⟩, hunique⟩ := ih
    have hcontains : ∀ v, (m.give t name).fresh.contains v = false ↔
        v ≠ name ∧ m.fresh.contains v = false := fun v => by
      rw [SortedMap.contains_eq_false_iff, SortedMap.contains_eq_false_iff, get?_give]
      by_cases hv : v = name
      · simp [hv]
      · simp [hv]
    refine ⟨Function.update τ name (t.eval M τ), ⟨fun v hv => ?_, ?_⟩, fun ρ ⟨hρ, hρsolves⟩ => ?_⟩
    · obtain ⟨hne, hv⟩ := (hcontains v).mp hv
      rw [Function.update_of_ne hne, hagree v hv]
    · refine (solves_give_iff free).mpr ⟨?_, (solves_update_iff free hm _).mpr hsolves⟩
      rw [Function.update_self, linear.eval_update free]
    · -- Without its value at the new name, `ρ` solves the equations given before.
      obtain ⟨hname, hbefore⟩ := (solves_give_iff free).mp hρsolves
      have hτ : Function.update ρ name (σ name) = τ := by
        refine hunique _ ⟨fun v hv => ?_, (solves_update_iff free hm _).mpr hbefore⟩
        by_cases hvname : v = name
        · rw [hvname, Function.update_self]
        · rw [Function.update_of_ne hvname]
          exact hρ v ((hcontains v).mpr ⟨hvname, hv⟩)
      have hvalue : t.eval M τ = ρ name := by rw [hname, ← hτ, linear.eval_update free]
      rw [hvalue, ← hτ, Function.update_idem, Function.update_eq_self]

end Naming

namespace EquationSet

variable {strict : Bool} {s l : EquationSet} {n : Naming}

namespace IsLinearization

variable (h : IsLinearization strict s l n)
include h

/-- Names have the values of their applications where the stated and the fresh equations
hold. -/
theorem value_of_lookup (hstated : s.Solves M τ) (hfresh : n.fresh.Solves M τ) {t : Term}
    {name : Atom} (ht : n.names.lookup t = some name) : τ name = t.eval M τ := by
  rcases h.isSound.stated_or_fresh t name ht with hs | hf
  · exact hstated name t (stated_of_lookup hs).1
  · exact hfresh name t hf

/-- A linear form says what its source and the fresh equations say. -/
theorem solves_iff : l.Solves M τ ↔ s.Solves M τ ∧ n.fresh.Solves M τ := by
  constructor
  · intro hl
    refine ⟨fun name rhs hrhs => ?_, fun name t ht => hl name t (h.get?_of_fresh ht)⟩
    rw [hl name _ (h.get?_of_get? hrhs)]
    exact n.eval_linear (fun t name ht => hl name t (h.get?_of_lookup ht).1) strict name rhs
  · rintro ⟨hs, hfresh⟩ name t ht
    rcases h.get?_cases ht with ⟨rhs, hrhs, rfl⟩ | ht
    · rw [hs name rhs hrhs]
      exact (n.eval_linear (fun t name ht => h.value_of_lookup hs hfresh ht) strict name rhs).symm
    · exact hfresh name t ht

theorem mem_freshNames_iff {v : Atom} : v ∈ freshNames s l ↔ n.fresh.contains v = true := by
  rw [freshNames, List.mem_filter, Bool.not_eq_true', List.contains_eq_mem,
    decide_eq_false_iff_not]
  constructor
  · rintro ⟨hl, hs⟩
    exact (h.knows_of_mem_vars hl).resolve_left hs
  · intro hfresh
    obtain ⟨t, ht⟩ := Option.isSome_iff_exists.mp hfresh
    exact ⟨mem_vars_of_get? (h.get?_of_fresh ht), h.isSound.not_used v t ht⟩

theorem existsUnique_solves_fresh (M : Meaning V) (σ : Atom → V) :
    ∃! τ, AgreeOff σ τ (freshNames s l) ∧ n.fresh.Solves M τ := by
  have hoff : ∀ τ, AgreeOff σ τ (freshNames s l) ↔
      ∀ v, n.fresh.contains v = false → τ v = σ v := fun τ => by
    simp only [AgreeOff, h.mem_freshNames_iff, Bool.not_eq_true]
  simp only [hoff]
  exact h.grows.existsUnique_solves_fresh M σ isSound_startNaming rfl

end IsLinearization

/-- An assignment solves a set if and only if exactly one extension of it to the fresh
names solves the linear form; no extension of any other assignment does. -/
theorem linearize_solves_iff_existsUnique (h : s.linearize strict = .ok l) (M : Meaning V)
    (σ : Atom → V) :
    (s.Solves M σ ↔ ∃! τ, AgreeOff σ τ (freshNames s l) ∧ l.Solves M τ) ∧
      (¬ s.Solves M σ → ¬ ∃ τ, AgreeOff σ τ (freshNames s l) ∧ l.Solves M τ) := by
  obtain ⟨n, hn⟩ := exists_isLinearization h
  have hsource : ∀ τ, AgreeOff σ τ (freshNames s l) → (s.Solves M τ ↔ s.Solves M σ) := by
    intro τ hτ
    have hvars : ∀ v ∈ s.vars, τ v = σ v := fun v hv => hτ v fun hmem => by
      obtain ⟨t, ht⟩ := Option.isSome_iff_exists.mp (hn.mem_freshNames_iff.mp hmem)
      exact hn.isSound.not_used v t ht hv
    exact ⟨fun hs => hs.congr fun v hv => (hvars v hv).symm, fun hs => hs.congr hvars⟩
  have hlin : ∀ τ, AgreeOff σ τ (freshNames s l) ∧ l.Solves M τ → s.Solves M σ :=
    fun τ ⟨hτ, hl⟩ => (hsource τ hτ).mp (hn.solves_iff.mp hl).1
  refine ⟨⟨fun hs => ?_, fun ⟨τ, hτ, _⟩ => hlin τ hτ⟩, fun hs ⟨τ, hτ⟩ => hs (hlin τ hτ)⟩
  obtain ⟨τ, ⟨hτ, hfresh⟩, hunique⟩ := hn.existsUnique_solves_fresh M σ
  refine ⟨τ, ⟨hτ, hn.solves_iff.mpr ⟨(hsource τ hτ).mpr hs, hfresh⟩⟩, fun ρ ⟨hρ, hl⟩ => ?_⟩
  exact hunique ρ ⟨hρ, (hn.solves_iff.mp hl).2⟩

/-- The circuit `x = sum(y, mult(y, x))`. -/
def nestedLoop : EquationSet :=
  let x : Atom := ⟨['x'], by decide⟩
  let y : Atom := ⟨['y'], by decide⟩
  .ofList [(x, ⟨Element.sum.name, [.node y [], .node Element.mult.name [.node y [], .node x []]]⟩)]

/-- The circuit `mult_1 = mult(y, x)`, `sum_1 = sum(y, mult_1)`, `x = sum_1`. -/
def linearLoop : EquationSet :=
  let x : Atom := ⟨['x'], by decide⟩
  let y : Atom := ⟨['y'], by decide⟩
  let product : Atom := ⟨"mult_1".toList, by decide⟩
  let sum : Atom := ⟨"sum_1".toList, by decide⟩
  .ofList [(product, ⟨Element.mult.name, [.node y [], .node x []]⟩),
    (sum, ⟨Element.sum.name, [.node y [], .node product []]⟩), (x, .var sum)]

/-- Every application adds its arguments. -/
def additive : Meaning ℤ := ⟨fun _ => 0, fun _ args => args.foldr (· + ·) 0⟩

/-- The values five of `x` and zero of `y`. -/
def loopValues (v : Atom) : ℤ := if v.chars = ['x'] then 5 else 0

theorem linearize_solves_iff_existsUnique_nestedLoop :
    nestedLoop.linearize true = .ok linearLoop ∧
      (nestedLoop.Solves additive loopValues ↔
        ∃! τ, AgreeOff loopValues τ (freshNames nestedLoop linearLoop) ∧
          linearLoop.Solves additive τ) ∧
      (¬ nestedLoop.Solves additive loopValues →
        ¬ ∃ τ, AgreeOff loopValues τ (freshNames nestedLoop linearLoop) ∧
          linearLoop.Solves additive τ) := by
  have h : nestedLoop.linearize true = .ok linearLoop := rfl
  exact ⟨h, linearize_solves_iff_existsUnique h additive loopValues⟩

end EquationSet

end DiffAnalyzer
