import DiffAnalyzer.Proofs.WellFormedness
import Mathlib

/-!
# What is checked when a program is assembled

The checks are spread over the passes for constants, evolved variables and auxiliaries.
Together they accept a linear form exactly when its equations, one by one, are as
`EquationSet.IsAssemblable` says (`EquationSet.exists_assemble_classify_iff`).
-/

namespace DiffAnalyzer

namespace Vocabulary

variable {v : Vocabulary} {head : Atom}

/-- A head that is known has an arity. -/
theorem exists_arity?_resolve (h : (v.resolve head).isUnknown = false) :
    ∃ arity, v.arity? (v.resolve head) = some arity := by
  rw [arity?, name_resolve]
  rw [resolve] at h
  split at h
  · rename_i element arity hentry
    rw [hentry]
    exact ⟨arity, rfl⟩
  · cases h

theorem accepts_iff {count : Nat} : v.Accepts head count ↔
    (v.resolve head).isUnknown = false ∧
      ∃ arity, v.arity? (v.resolve head) = some arity ∧ arity.accepts count = true := by
  refine and_congr_right fun hknown => ?_
  obtain ⟨arity, harity⟩ := exists_arity?_resolve hknown
  rw [harity]
  constructor
  · exact fun h => ⟨arity, rfl, h arity rfl⟩
  · rintro ⟨_, heq, haccepts⟩ other hother
    cases heq.symm.trans hother
    exact haccepts

end Vocabulary

namespace EquationSet

/-- Equations between bare variables lead from the name to one bound to a constant. -/
def LeadsToConstant (s : EquationSet) (v : Vocabulary) (name : Atom) : Prop :=
  ∃ c, Relation.ReflTransGen s.IsAlias name c ∧ s.Binds v Element.isConstant c

/-- A number, or a variable that leads to a constant. -/
inductive IsFixed (s : EquationSet) (v : Vocabulary) : Arg → Prop where
  | number (x : Number) : s.IsFixed v (.number x)
  | reference {name : Atom} (h : s.LeadsToConstant v name) : s.IsFixed v (.node name [])

/-- What the equations of a linear form must satisfy, one by one.  A bare variable has no
element, so nothing is asked of it but that it is bound. -/
structure IsAssemblable (s : EquationSet) (v : Vocabulary) : Prop where
  bound : ∀ name, s.IsPart (.node name []) → ∃ rhs, s.get? name = some rhs
  accepted : ∀ name rhs, s.get? name = some rhs → rhs.isCompound = true →
    (v.resolve rhs.head).isUnknown = false ∧
      ∃ arity, v.arity? (v.resolve rhs.head) = some arity ∧
        arity.accepts rhs.tail.length = true
  constant : ∀ name rhs, s.get? name = some rhs → rhs.isCompound = true →
    (v.resolve rhs.head).isConstant = true → ∃ x, rhs.tail = [.number x]
  evolving : ∀ name rhs, s.get? name = some rhs → rhs.isCompound = true →
    (v.resolve rhs.head).isEvolving = true → ∃ inputs step initial,
      rhs.tail = inputs ++ [step, initial] ∧ inputs ≠ [] ∧ s.IsFixed v step ∧
        s.IsFixed v initial

variable {strict : Bool} {s l : EquationSet} {v : Vocabulary} {c : Classification}
  {name : Atom} {path : List Atom} {a : Arg} {x : Number}

theorem IsChain.leadsToConstant (h : s.IsChain v name path) : s.LeadsToConstant v name := by
  induction path generalizing name with
  | nil => exact ⟨name, .refl, h⟩
  | cons next rest ih =>
    obtain ⟨c, hsteps, hc⟩ := ih h.2
    exact ⟨c, .head h.1 hsteps, hc⟩

theorem IsParameter.isFixed (ha : a.isSimple = true) (h : s.IsParameter v a x) :
    s.IsFixed v a := by
  cases a with
  | number x => exact .number x
  | node head tail =>
    rw [Arg.isSimple_node, List.isEmpty_iff] at ha
    subst ha
    obtain ⟨path, hpath⟩ := h.exists_isChain
    exact .reference hpath.leadsToConstant

namespace IsAssemblable

variable (h : s.IsAssemblable v)
include h

/-- The value at the end of a chain of names is passed back along it. -/
theorem exists_isParameter_of_leadsToConstant (hname : s.LeadsToConstant v name) :
    ∃ x, s.IsParameter v (.node name []) x := by
  obtain ⟨c, hsteps, rhs, hrhs, hcompound, hconstant⟩ := hname
  induction hsteps using Relation.ReflTransGen.head_induction_on with
  | refl =>
    obtain ⟨x, htail⟩ := h.constant _ rhs hrhs hcompound hconstant
    refine ⟨x, .reference hrhs ?_⟩
    rw [Term.toArg, htail]
    exact .constant x hconstant
  | head halias _ ih =>
    obtain ⟨x, hx⟩ := ih
    exact ⟨x, .reference halias hx⟩

theorem exists_isParameter (ha : s.IsFixed v a) : ∃ x, s.IsParameter v a x := by
  cases ha with
  | number x => exact ⟨x, .number x⟩
  | reference hname => exact h.exists_isParameter_of_leadsToConstant hname

theorem wellFormed (hflat : ∀ name rhs, s.get? name = some rhs → rhs.isFlat = true) :
    s.WellFormed v := by
  constructor
  case bound =>
    intro name hname
    refine Option.isSome_iff_exists.mpr ?_
    rcases mem_vars_iff.mp hname with hbound | hpart
    · exact hbound
    · exact h.bound name hpart
  case accepts =>
    intro head tail hpart hne
    obtain ⟨name, hrhs, hcompound⟩ := exists_get?_of_isPart hflat hpart hne
    exact Vocabulary.accepts_iff.mpr (h.accepted name _ hrhs hcompound)
  case constant =>
    intro head tail hpart hne hconstant
    obtain ⟨name, hrhs, hcompound⟩ := exists_get?_of_isPart hflat hpart hne
    exact h.constant name _ hrhs hcompound hconstant
  case evolving =>
    intro head tail hpart hne hevolving
    obtain ⟨name, hrhs, hcompound⟩ := exists_get?_of_isPart hflat hpart hne
    obtain ⟨inputs, step, initial, rfl, hinputs, hstep, hinitial⟩ :=
      h.evolving name _ hrhs hcompound hevolving
    refine ⟨initial, step, inputs.reverse, by simp, by simpa using hinputs, ?_, ?_⟩
    · exact h.exists_isParameter hstep
    · exact h.exists_isParameter hinitial

end IsAssemblable

theorem WellFormed.isAssemblable (h : s.WellFormed v)
    (hflat : ∀ name rhs, s.get? name = some rhs → rhs.isFlat = true) : s.IsAssemblable v := by
  constructor
  case bound =>
    intro name hpart
    exact Option.isSome_iff_exists.mp (h.bound name (mem_vars_iff.mpr (.inr hpart)))
  case accepted =>
    intro name rhs hrhs hcompound
    exact Vocabulary.accepts_iff.mp
      (h.accepts _ _ (.whole hrhs) (Term.isCompound_iff_ne_nil.mp hcompound))
  case constant =>
    intro name rhs hrhs hcompound hconstant
    exact h.constant _ _ (.whole hrhs) (Term.isCompound_iff_ne_nil.mp hcompound) hconstant
  case evolving =>
    intro name rhs hrhs hcompound hevolving
    obtain ⟨initial, step, inputs, hreverse, hinputs, ⟨x, hx⟩, ⟨y, hy⟩⟩ :=
      h.evolving _ _ (.whole hrhs) (Term.isCompound_iff_ne_nil.mp hcompound) hevolving
    have htail : rhs.tail = inputs.reverse ++ [step, initial] := by
      rw [← List.reverse_reverse rhs.tail, hreverse]
      simp
    have hsimple : ∀ a ∈ rhs.tail, a.isSimple = true := Term.isFlat_iff.mp (hflat name rhs hrhs)
    refine ⟨inputs.reverse, step, initial, htail, by simpa using hinputs, ?_, ?_⟩
    · exact hx.isFixed (hsimple step (by simp [htail]))
    · exact hy.isFixed (hsimple initial (by simp [htail]))

/-- A linear form can be assembled exactly when its equations are as they should be. -/
theorem exists_assemble_classify_iff (hl : s.linearize strict = .ok l)
    (hc : l.classify v = .ok c) :
    (∃ p, Program.assemble v l c = .ok p) ↔ l.IsAssemblable v := by
  obtain ⟨n, hn⟩ := exists_isLinearization hl
  have hflat : ∀ name rhs, l.get? name = some rhs → rhs.isFlat = true := fun _ _ => hn.isFlat
  rw [l.groups_of_classify v hc, exists_assemble_iff hflat]
  exact ⟨fun h => h.isAssemblable hflat, fun h => h.wellFormed hflat⟩

/-- The circuit `dt = const(0.5)`, `h = dt`, `y = int(y, h, 1)`. -/
def renamedStep : EquationSet :=
  let dt : Atom := ⟨"dt".toList, .refl true⟩
  let h : Atom := ⟨['h'], .refl true⟩
  let y : Atom := ⟨['y'], .refl true⟩
  .ofList [(dt, ⟨Element.const.name, [.number ⟨0x3fe0000000000000⟩]⟩), (h, .var dt),
    (y, ⟨Element.int.name, [.node y [], .node h [], .number ⟨0x3ff0000000000000⟩]⟩)]

theorem exists_assemble_classify_iff_renamedStep :
    ∃ l c, renamedStep.linearize true = .ok l ∧ l.classify .standard = .ok c ∧
      (∃ p, Program.assemble .standard l c = .ok p) ∧ l.IsAssemblable .standard := by
  obtain ⟨l, hl⟩ : ∃ l, renamedStep.linearize true = .ok l := ⟨_, rfl⟩
  have hc : l.classify .standard = .ok (l.groups .standard) := l.classify_eq .standard
  have hp : ∃ p, Program.assemble .standard l (l.groups .standard) = .ok p := by
    cases hl
    exact ⟨_, rfl⟩
  exact ⟨l, _, hl, hc, hp, (exists_assemble_classify_iff hl hc).mp hp⟩

end EquationSet

end DiffAnalyzer
