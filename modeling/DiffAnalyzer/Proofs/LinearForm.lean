import DiffAnalyzer.Proofs.FreshNames
import DiffAnalyzer.Proofs.Parts
import Mathlib

/-!
# Linear forms

A linear form has only literals and variables for arguments, binds the names of its source and
fresh ones, and captures no variable of the source (`EquationSet.IsLinearForm`).  Linearizing
leaves a set alone exactly if nothing in it is left to name
(`EquationSet.linearize_eq_self_iff`), so it does nothing the second time.
-/

namespace DiffAnalyzer

theorem Arg.isSimple_iff {a : Arg} :
    a.isSimple = true ↔ (∃ x, a = .number x) ∨ ∃ v, a = .node v [] := by
  cases a with
  | number x => exact iff_of_true rfl (.inl ⟨x, rfl⟩)
  | node head tail =>
    rw [Arg.isSimple_node, List.isEmpty_iff]
    constructor
    · rintro rfl
      exact .inr ⟨head, rfl⟩
    · rintro (⟨x, hx⟩ | ⟨v, hv⟩)
      · cases hx
      · cases hv
        rfl

namespace Naming

variable {used : List Atom} {n : Naming}

theorem replaceM_of_isSimple (n : Naming) {a : Arg} (h : a.isSimple = true) :
    a.replaceM (register used) n = .ok (a, n) := by
  rcases Arg.isSimple_iff.mp h with ⟨x, rfl⟩ | ⟨v, rfl⟩
  · rfl
  · rfl

theorem replaceListM_of_isSimple (n : Naming) {args : List Arg}
    (h : ∀ a ∈ args, a.isSimple = true) :
    Arg.replaceListM (register used) args n = .ok (args, n) := by
  induction args with
  | nil => rfl
  | cons a rest ih =>
    refine stateBind_eq_ok_iff.mpr ⟨a, n, n.replaceM_of_isSimple (h a List.mem_cons_self), ?_⟩
    refine stateBind_eq_ok_iff.mpr ⟨rest, n, ih fun b hb => h b (List.mem_cons_of_mem _ hb), ?_⟩
    rfl

end Naming

namespace EquationSet

variable {strict : Bool} {s l : EquationSet} {n : Naming} {name : Atom} {rhs : Term}

/-- What a linear form has in common with its source, and what it has beyond it. -/
structure IsLinearForm (strict : Bool) (s l : EquationSet) : Prop where
  /-- Arguments are literals and variables. -/
  simple : ∀ name rhs, l.get? name = some rhs → ∀ a ∈ rhs.tail,
    (∃ x, a = .number x) ∨ ∃ v, a = .node v []
  /-- The names of the source are bound. -/
  bound : ∀ name ∈ s.keys, name ∈ l.keys
  /-- The other bound names are neither bound nor referred to in the source. -/
  fresh : ∀ name ∈ l.keys, name ∉ s.keys → name ∉ s.vars
  /-- Right-hand sides refer to variables of the source and bound names. -/
  known : ∀ name rhs, l.get? name = some rhs → ∀ v ∈ rhs.dependencies, v ∈ s.vars ∨ v ∈ l.keys
  /-- Unless naming is strict, equations keep their heads and numbers of arguments. -/
  kept : strict = false → ∀ name rhs, s.get? name = some rhs →
    ∃ rhs', l.get? name = some rhs' ∧ rhs'.head = rhs.head ∧ rhs'.tail.length = rhs.tail.length
  /-- If naming is strict, applications are bound to their head, an underscore, digits and
  underscores. -/
  numbered : strict = true → ∀ name rhs, l.get? name = some rhs → rhs.isCompound = true →
    ∃ digits k, digits ≠ [] ∧ (∀ c ∈ digits, c.isDigit = true) ∧
      name.chars = rhs.head.chars ++ '_' :: (digits ++ List.replicate k '_')

/-- Nothing in the set is left to name. -/
structure IsLinear (strict : Bool) (s : EquationSet) : Prop where
  isFlat : ∀ name rhs, s.get? name = some rhs → rhs.isFlat = true
  keepsRoot : ∀ name rhs, s.get? name = some rhs → rhs.isCompound = true →
    keepsRoot strict name rhs = true

namespace IsLinearization

variable (h : IsLinearization strict s l n)
include h

/-- Linearizing again would keep the application of every equation: either it was kept before, or
it is bound to a fresh name. -/
theorem keepsRoot_of_isCompound (hrhs : l.get? name = some rhs)
    (hcompound : rhs.isCompound = true) : keepsRoot strict name rhs = true := by
  rcases h.get?_cases hrhs with ⟨rhs', hrhs', rfl⟩ | hfresh
  · cases hkeep : keepsRoot strict name rhs' with
    | false =>
      rw [Term.isCompound_iff, h.isVariable name rhs' hrhs' hkeep] at hcompound
      cases hcompound
    | true =>
      have hflat := Option.some.inj (hrhs.symm.trans (h.get?_of_keepsRoot hrhs' hkeep))
      rw [hflat]
      exact hkeep
  · have hnumbered := h.grows.isNumbered isNumbered_startNaming
    obtain ⟨i, -, -, k, rfl, -⟩ := hnumbered.exists_number rhs.head name rhs.tail hfresh
    rw [keepsRoot, Atom.isNumbering_padded, Bool.or_true]

theorem isLinear : l.IsLinear strict :=
  ⟨fun _ _ => h.isFlat, fun _ _ => h.keepsRoot_of_isCompound⟩

/-- A bound name that is not one of the source is no variable of it either. -/
theorem not_mem_vars (hname : name ∈ l.keys) (hsource : name ∉ s.keys) : name ∉ s.vars := by
  obtain ⟨rhs, hrhs⟩ := SortedMap.mem_keys_iff.mp hname
  rcases h.get?_cases hrhs with ⟨rhs', hrhs', -⟩ | hfresh
  · exact absurd (SortedMap.mem_keys_iff.mpr ⟨rhs', hrhs'⟩) hsource
  · exact h.isSound.not_used name rhs hfresh

theorem mem_vars_or_mem_keys {v : Atom} (hv : v ∈ l.vars) : v ∈ s.vars ∨ v ∈ l.keys := by
  refine (h.knows_of_mem_vars hv).imp_right fun hfresh => ?_
  obtain ⟨t, ht⟩ := Option.isSome_iff_exists.mp hfresh
  exact SortedMap.mem_keys_iff.mpr ⟨t, h.get?_of_fresh ht⟩

theorem mem_keys (hname : name ∈ s.keys) : name ∈ l.keys := by
  obtain ⟨rhs, hrhs⟩ := SortedMap.mem_keys_iff.mp hname
  exact SortedMap.mem_keys_iff.mpr ⟨_, h.get?_of_get? hrhs⟩

end IsLinearization

/-- Linearizing yields a linear form. -/
theorem isLinearForm_of_linearize (h : s.linearize strict = .ok l) : IsLinearForm strict s l := by
  obtain ⟨n, hn⟩ := exists_isLinearization h
  constructor
  case simple =>
    intro name rhs hrhs a ha
    exact Arg.isSimple_iff.mp (Term.isFlat_iff.mp (hn.isFlat hrhs) a ha)
  case bound => exact fun name => hn.mem_keys
  case fresh => exact fun name => hn.not_mem_vars
  case known =>
    intro name rhs hrhs v hv
    exact hn.mem_vars_or_mem_keys (mem_vars_of_mem_dependencies hrhs hv)
  case kept =>
    rintro rfl name rhs hrhs
    exact ⟨_, hn.get?_of_keepsRoot hrhs rfl, rfl, List.length_map _⟩
  case numbered =>
    rintro rfl name rhs hrhs hcompound
    exact Atom.isNumbering_iff.mp (hn.keepsRoot_of_isCompound hrhs hcompound)

/-- The circuit `x = f_1(g.2_(y), g.2__1, h'(3))`. -/
def oddHeads : EquationSet :=
  let f : Atom := ⟨"f_1".toList, .refl true⟩
  let g : Atom := ⟨"g.2_".toList, .refl true⟩
  let h : Atom := ⟨['h', '\x27'], .refl true⟩
  .ofList [(⟨['x'], .refl true⟩, ⟨f, [.node g [.node ⟨['y'], .refl true⟩ []],
    .node ⟨"g.2__1".toList, .refl true⟩ [], .node h [.number ⟨0x4008000000000000⟩]]⟩)]

/-- The circuit `f_1_1 = f_1(g.2__1_, g.2__1, h'_1)`, `g.2__1_ = g.2_(y)`, `h'_1 = h'(3)`,
`x = f_1_1`. -/
def oddHeadsLinear : EquationSet :=
  let f : Atom := ⟨"f_1".toList, .refl true⟩
  let g : Atom := ⟨"g.2_".toList, .refl true⟩
  let h : Atom := ⟨['h', '\x27'], .refl true⟩
  let f₁ : Atom := ⟨"f_1_1".toList, .refl true⟩
  let g₁ : Atom := ⟨"g.2__1_".toList, .refl true⟩
  let h₁ : Atom := ⟨['h', '\x27', '_', '1'], .refl true⟩
  .ofList [(f₁, ⟨f, [.node g₁ [], .node ⟨"g.2__1".toList, .refl true⟩ [], .node h₁ []]⟩),
    (g₁, ⟨g, [.node ⟨['y'], .refl true⟩ []]⟩), (h₁, ⟨h, [.number ⟨0x4008000000000000⟩]⟩),
    (⟨['x'], .refl true⟩, .var f₁)]

theorem isLinearForm_of_linearize_oddHeads :
    oddHeads.linearize true = .ok oddHeadsLinear ∧ IsLinearForm true oddHeads oddHeadsLinear := by
  have h : oddHeads.linearize true = .ok oddHeadsLinear := rfl
  exact ⟨h, isLinearForm_of_linearize h⟩

theorem IsLinear.linearizeEquation_eq (hs : s.IsLinear strict) (used : List Atom) (n : Naming)
    (hrhs : s.get? name = some rhs) :
    linearizeEquation strict used (name, rhs) n = .ok ((name, rhs), n) := by
  rw [linearizeEquation]
  split
  · rfl
  · rename_i hvar
    have hkeep := hs.keepsRoot name rhs hrhs (Term.isCompound_iff.mpr (Bool.not_eq_true _ ▸ hvar))
    have hargs : Arg.replaceListM (Naming.register used) rhs.tail n = .ok (rhs.tail, n) :=
      n.replaceListM_of_isSimple (Term.isFlat_iff.mp (hs.isFlat name rhs hrhs))
    refine stateBind_eq_ok_iff.mpr ⟨rhs, n, ?_, rfl⟩
    refine stateBind_eq_ok_iff.mpr ⟨rhs.tail, n, hargs, ?_⟩
    rw [hkeep]
    rfl

theorem IsLinear.mapM_linearizeEquation_eq (hs : s.IsLinear strict) (used : List Atom) (n : Naming)
    {entries : List (Atom × Term)} (h : ∀ e ∈ entries, s.get? e.1 = some e.2) :
    entries.mapM (linearizeEquation strict used) n = .ok (entries, n) := by
  induction entries with
  | nil => rfl
  | cons e rest ih =>
    rw [List.mapM_cons]
    refine stateBind_eq_ok_iff.mpr ⟨e, n, ?_, ?_⟩
    · exact hs.linearizeEquation_eq used n (h e List.mem_cons_self)
    · refine stateBind_eq_ok_iff.mpr ⟨rest, n, ?_, rfl⟩
      exact ih fun d hd => h d (List.mem_cons_of_mem _ hd)

theorem IsLinear.linearize_eq (hs : s.IsLinear strict) : s.linearize strict = .ok s := by
  refine bind_eq_ok_iff.mpr ⟨(s.toList, s.startNaming strict), ?_, ?_⟩
  · exact hs.mapM_linearizeEquation_eq s.vars _ fun e he => SortedMap.get?_of_mem he
  · change Except.ok (SortedMap.ofList s.toList) = _
    rw [SortedMap.ofList_toList]

/-- Linearizing leaves alone the sets in which nothing is left to name, and no others. -/
theorem linearize_eq_self_iff : s.linearize strict = .ok s ↔ s.IsLinear strict := by
  constructor
  · intro h
    obtain ⟨n, hn⟩ := exists_isLinearization h
    exact hn.isLinear
  · exact IsLinear.linearize_eq

/-- What is in strict linear form is in linear form. -/
theorem IsLinear.of_strict (hs : s.IsLinear strict) : s.IsLinear false :=
  ⟨hs.isFlat, fun _ _ _ _ => rfl⟩

/-- Linearizing again changes nothing, whether naming is as strict as before or not strict. -/
theorem linearize_linearize (h : s.linearize strict = .ok l) :
    l.linearize strict = .ok l ∧ l.linearize false = .ok l := by
  obtain ⟨n, hn⟩ := exists_isLinearization h
  exact ⟨linearize_eq_self_iff.mpr hn.isLinear, linearize_eq_self_iff.mpr hn.isLinear.of_strict⟩

theorem linearize_linearize_oddHeads :
    oddHeads.linearize true = .ok oddHeadsLinear ∧
      oddHeadsLinear.linearize true = .ok oddHeadsLinear ∧
      oddHeadsLinear.linearize false = .ok oddHeadsLinear := by
  have h : oddHeads.linearize true = .ok oddHeadsLinear := rfl
  exact ⟨h, linearize_linearize h⟩

end EquationSet

end DiffAnalyzer
