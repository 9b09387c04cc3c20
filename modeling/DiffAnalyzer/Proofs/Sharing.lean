import DiffAnalyzer.Proofs.Parts
import Mathlib

/-!
# What fresh names share

Linearizing names an application at most once, and only if no equation that it leaves alone states
it.  A name is only given where it is put in place of the application, so that none is idle
(`IsLinearization.exists_reference`).
-/

namespace DiffAnalyzer

namespace EquationSet

variable {strict : Bool} {s l : EquationSet} {n : Naming} {head name k : Atom} {tail : List Arg}
  {rhs t : Term}

/-- No fresh name of a linear form is superfluous: no two are bound to the same, none is bound to
what the source states in linear form already, and each is referred to. -/
structure SharesExactly (s l : EquationSet) : Prop where
  /-- No two fresh names are bound to the same. -/
  distinct : ∀ j k rhs, j ∉ s.vars → k ∉ s.vars → l.get? j = some rhs → l.get? k = some rhs → j = k
  /-- An equation with literals and variables for arguments stays as it is or is left with a name,
  and no fresh name is bound to what it says. -/
  unstated : ∀ name rhs r, s.get? name = some rhs → rhs.isFlat = true → l.get? name = some r →
    (r = rhs ∨ r.isVariable = true) ∧ ∀ k, k ∉ s.vars → l.get? k ≠ some r
  /-- Some right-hand side refers to each fresh name. -/
  referred : ∀ k ∈ l.keys, k ∉ s.vars → ∃ u, (u, k) ∈ l.dependencyGraph

/-- An application that its equation keeps in linear form has a name from the beginning. -/
theorem exists_stated (hrhs : s.get? name = some rhs) (hcompound : rhs.isCompound = true)
    (hflat : rhs.isFlat = true) (hkeep : keepsRoot strict name rhs = true) :
    ∃ k, (s.statedNames strict).lookup rhs = some k := by
  rw [← Option.ne_none_iff_exists']
  intro hnone
  have hmem : (rhs, name) ∈ s.statedNames strict := by
    refine List.mem_map.mpr ⟨(name, rhs), List.mem_filter.mpr ⟨?_, ?_⟩, rfl⟩
    · exact SortedMap.get?_eq_some_iff.mp hrhs
    · rw [hcompound, hflat, hkeep]
      rfl
  exact bne_iff_ne.mp (List.lookup_eq_none_iff.mp hnone _ hmem) rfl

namespace IsLinearization

variable (h : IsLinearization strict s l n)
include h

theorem lookup_of_not_mem (hk : k ∉ s.vars) (ht : l.get? k = some t) :
    n.names.lookup t = some k :=
  h.isSound.lookup_of_fresh k t (h.fresh_of_not_mem hk ht)

/-- An equation in linear form is left alone, or its application is named. -/
theorem eq_or_isVariable (hrhs : s.get? name = some rhs) (hflat : rhs.isFlat = true)
    (ht : l.get? name = some t) : keepsRoot strict name rhs = true ∧ t = rhs ∨
      t.isVariable = true := by
  cases hkeep : keepsRoot strict name rhs with
  | false =>
    have heq := Option.some.inj (ht.symm.trans (h.get?_of_get? hrhs))
    rw [heq]
    exact .inr (h.isVariable name rhs hrhs hkeep)
  | true =>
    have heq := Option.some.inj (ht.symm.trans (h.get?_of_keepsRoot hrhs hkeep))
    rw [n.flat_of_isFlat hflat] at heq
    exact .inl ⟨rfl, heq⟩

/-- What an equation states in linear form gets no fresh name. -/
theorem ne_of_isFlat (hrhs : s.get? name = some rhs) (hflat : rhs.isFlat = true)
    (ht : l.get? name = some t) (hk : k ∉ s.vars) : l.get? k ≠ some t := by
  intro hkt
  have hcompound := (h.isSound.isLinear k t (h.fresh_of_not_mem hk hkt)).isCompound
  rcases h.eq_or_isVariable hrhs hflat ht with ⟨hkeep, rfl⟩ | hvar
  · obtain ⟨u, hu⟩ := exists_stated hrhs hcompound hflat hkeep
    have hlookup := (h.grows.lookup hu).symm.trans (h.lookup_of_not_mem hk hkt)
    rw [Option.some.inj hlookup] at hu
    exact hk (mem_vars_of_get? (stated_of_lookup hu).1)
  · rw [Term.isCompound_iff, hvar] at hcompound
    cases hcompound

/-- Where an application is named, some right-hand side refers to the name. -/
theorem exists_reference_of_isNamedPart (hpart : s.IsNamedPart strict (.node head tail))
    (hne : tail ≠ []) (hname : n.names.lookup (n.flat head tail) = some k) :
    ∃ u, (u, k) ∈ l.dependencyGraph := by
  have hstand : n.standIn (n.flat head tail) = .var k :=
    Naming.standIn_of_lookup (n.isCompound_flat head hne) hname
  generalize ha : Arg.node head tail = a at hpart
  -- an application is named at the root of an equation, which is left with the name, or among the
  -- arguments of another one, which is stated with the name in its place
  cases hpart with
  | @root name rhs hrhs hkeep =>
    cases ha
    have hl : l.get? name = some (.var k) := by
      rw [h.get?_of_get? hrhs, Naming.linear, hkeep, Term.replace_eq]
      exact congrArg some hstand
    exact ⟨name, (mem_dependencyGraph_iff hl).mpr List.mem_cons_self⟩
  | argument hpart hmem =>
    subst ha
    obtain ⟨u, hu⟩ := h.exists_get?_flat hpart (List.ne_nil_of_mem hmem)
    refine ⟨u, (mem_dependencyGraph_iff hu).mpr ?_⟩
    refine Arg.mem_references_node.mpr (.inr ⟨_, List.mem_map_of_mem hmem, ?_⟩)
    rw [Arg.replace_node]
    change k ∈ (n.standIn (n.flat head tail)).toArg.references
    rw [hstand]
    exact List.mem_cons_self

/-- No fresh name is idle. -/
theorem exists_reference (hfresh : n.fresh.get? k = some t) : ∃ u, (u, k) ∈ l.dependencyGraph := by
  obtain ⟨head, tail, hpart, hstems⟩ := h.traced k t hfresh
  have hflat : n.flat head tail = t := hstems n .refl
  have hlinear := h.isSound.isLinear k t hfresh
  have hne : tail ≠ [] := fun hnil => hlinear.tail_ne_nil (by rw [← hflat, hnil]; rfl)
  refine h.exists_reference_of_isNamedPart hpart hne ?_
  rw [hflat]
  exact h.isSound.lookup_of_fresh k t hfresh

end IsLinearization

/-- Linearizing shares exactly. -/
theorem sharesExactly_of_linearize (h : s.linearize strict = .ok l) : SharesExactly s l := by
  obtain ⟨n, hn⟩ := exists_isLinearization h
  constructor
  case distinct =>
    intro j k rhs hj hk hjrhs hkrhs
    have hlookup := (hn.lookup_of_not_mem hj hjrhs).symm.trans (hn.lookup_of_not_mem hk hkrhs)
    exact Option.some.inj hlookup
  case unstated =>
    intro name rhs r hrhs hflat hr
    refine ⟨?_, fun k hk => hn.ne_of_isFlat hrhs hflat hr hk⟩
    exact (hn.eq_or_isVariable hrhs hflat hr).imp_left And.right
  case referred =>
    intro k hk hfresh
    obtain ⟨t, ht⟩ := SortedMap.mem_keys_iff.mp hk
    exact hn.exists_reference (hn.fresh_of_not_mem hfresh ht)

/-- The circuit `f_1 = f(y)`, `q = g(f(y), h(y))`, `r = h(h(y))`. -/
def overlapping : EquationSet :=
  let f : Atom := ⟨['f'], .refl true⟩
  let g : Atom := ⟨['g'], .refl true⟩
  let h : Atom := ⟨['h'], .refl true⟩
  let y : Atom := ⟨['y'], .refl true⟩
  .ofList [(⟨"f_1".toList, .refl true⟩, ⟨f, [.node y []]⟩),
    (⟨['q'], .refl true⟩, ⟨g, [.node f [.node y []], .node h [.node y []]]⟩),
    (⟨['r'], .refl true⟩, ⟨h, [.node h [.node y []]]⟩)]

/-- The circuit `f_1 = f(y)`, `g_1 = g(f_1, h_1)`, `h_1 = h(y)`, `h_2 = h(h_1)`, `q = g_1`,
`r = h_2`. -/
def overlappingLinear : EquationSet :=
  let f : Atom := ⟨['f'], .refl true⟩
  let g : Atom := ⟨['g'], .refl true⟩
  let h : Atom := ⟨['h'], .refl true⟩
  let y : Atom := ⟨['y'], .refl true⟩
  let f₁ : Atom := ⟨"f_1".toList, .refl true⟩
  let g₁ : Atom := ⟨"g_1".toList, .refl true⟩
  let h₁ : Atom := ⟨"h_1".toList, .refl true⟩
  let h₂ : Atom := ⟨"h_2".toList, .refl true⟩
  .ofList [(f₁, ⟨f, [.node y []]⟩), (g₁, ⟨g, [.node f₁ [], .node h₁ []]⟩),
    (h₁, ⟨h, [.node y []]⟩), (h₂, ⟨h, [.node h₁ []]⟩), (⟨['q'], .refl true⟩, .var g₁),
    (⟨['r'], .refl true⟩, .var h₂)]

theorem sharesExactly_of_linearize_overlapping :
    overlapping.linearize true = .ok overlappingLinear ∧
      SharesExactly overlapping overlappingLinear := by
  have h : overlapping.linearize true = .ok overlappingLinear := rfl
  exact ⟨h, sharesExactly_of_linearize h⟩

end EquationSet

end DiffAnalyzer
