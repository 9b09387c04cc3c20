import DiffAnalyzer.Proofs.LoopFree
import DiffAnalyzer.Proofs.StandIn
import Mathlib

/-!
# Compiled equations

The statements of a program are those of the auxiliaries and those of the derivatives
(`Program.IsAssembled.mem_statements_iff`).  So the program of a linear form can be simulated
when all elements that its source applies are supported
(`EquationSet.IsLinearization.isSupported_iff`).
-/

namespace DiffAnalyzer

/-- The simulator supports all elements that are applied. -/
def EquationSet.IsSupported (s : EquationSet) (v : Vocabulary) : Prop :=
  ∀ head tail, s.IsPart (.node head tail) → tail ≠ [] → (v.resolve head).refusal? = none

/-- The program `p` comes from the linear form `l` of `s`, has no loops, and can be
simulated. -/
structure Compiled (s : EquationSet) (v : Vocabulary) (l : EquationSet) (n : Naming)
    (p : Program) : Prop where
  linear : ∃ strict, EquationSet.IsLinearization strict s l n
  assembled : ∃ evolutions sorted cyclic unneeded,
    p.IsAssembled v l (l.groups v) evolutions sorted cyclic unneeded
  acyclic : (l.groups v).auxCyclic = []
  supported : s.IsSupported v

theorem Element.refusal?_of_isConstant {e : Element} (h : e.isConstant = true) :
    e.refusal? = none := by
  cases e <;> first | rfl | cases h

variable {s l : EquationSet} {v : Vocabulary} {n : Naming} {p : Program} {strict : Bool}

namespace Program.IsAssembled

variable {evolutions : List Assembly.Evolution} {sorted cyclic unneeded : List Statement}
  {st : Statement} (h : p.IsAssembled v l (l.groups v) evolutions sorted cyclic unneeded)
include h

/-- The statements of a program are those of its auxiliaries and its derivatives. -/
theorem mem_statements_iff : st ∈ p.statements ↔
    (∃ name ∈ l.auxNames v, Assembly.auxiliary ⟨v, l, (l.groups v).layout⟩ name = .ok st) ∨
      ∃ e, (∃ name, l.Binds v Element.isEvolving name ∧
        Assembly.evolution ⟨v, l, (l.groups v).layout⟩ name = .ok e) ∧ e.derivative = st := by
  rw [h.statements_eq]
  simp only [List.mem_append, List.mem_map, mem_iff_of_forall₂ h.auxSorted,
    mem_iff_of_forall₂ h.auxCyclic, mem_iff_of_forall₂ h.auxUnneeded,
    mem_iff_of_forall₂ h.evolution, l.mem_evolved v, l.mem_auxNames_iff v]
  constructor
  · rintro (⟨name, hname, hst⟩ | ⟨name, hname, hst⟩ | hevolved | ⟨name, hname, hst⟩)
    · exact .inl ⟨name, .inl hname, hst⟩
    · exact .inl ⟨name, .inr (.inl hname), hst⟩
    · exact .inr hevolved
    · exact .inl ⟨name, .inr (.inr hname), hst⟩
  · rintro (⟨name, hname | hname | hname, hst⟩ | hevolved)
    · exact .inl ⟨name, hname, hst⟩
    · exact .inr (.inl ⟨name, hname, hst⟩)
    · exact .inr (.inr (.inr ⟨name, hname, hst⟩))
    · exact .inr (.inr (.inl hevolved))

end Program.IsAssembled

namespace Assembly

variable {a : Assembly} {name : Atom} {rhs : Term}

/-- The statement of an application is supported when its element is. -/
theorem isSupported_auxiliary_iff {st : Statement} (hst : a.auxiliary name = .ok st)
    (hrhs : a.equations.get? name = some rhs) (hcompound : rhs.isCompound = true) :
    st.expr.IsSupported ↔ (a.vocabulary.resolve rhs.head).refusal? = none := by
  obtain ⟨rhs', expr, i, hrhs', hexpr, -, rfl⟩ := auxiliary_eq_ok_iff.mp hst
  cases hrhs.symm.trans hrhs'
  rw [Term.isCompound_iff] at hcompound
  rcases expression_eq_ok_iff.mp hexpr with ⟨hvar, -⟩ | ⟨-, -, args, -, rfl⟩
  · cases hvar.symm.trans hcompound
  · exact Iff.rfl

theorem isSupported_auxiliary_of_isVariable {st : Statement} (hst : a.auxiliary name = .ok st)
    (hrhs : a.equations.get? name = some rhs) (hvar : rhs.isVariable = true) :
    st.expr.IsSupported := by
  obtain ⟨rhs', expr, i, hrhs', hexpr, -, rfl⟩ := auxiliary_eq_ok_iff.mp hst
  cases hrhs.symm.trans hrhs'
  rcases expression_eq_ok_iff.mp hexpr with ⟨-, slot, -, rfl⟩ | ⟨hcompound, -⟩
  · trivial
  · cases hvar.symm.trans hcompound

theorem isSupported_derivative_iff {e : Evolution} (he : a.evolution name = .ok e)
    (hrhs : a.equations.get? name = some rhs) :
    e.derivative.expr.IsSupported ↔ (a.vocabulary.resolve rhs.head).refusal? = none := by
  obtain ⟨rhs', _, _, _, _, _, hrhs', -, -, -, -, -, -, -, hderivative⟩ := evolution_eq_ok_iff.mp he
  cases hrhs.symm.trans hrhs'
  rw [hderivative]
  exact Iff.rfl

end Assembly

/-- A program can be simulated when all elements that are applied are supported. -/
theorem Program.IsAssembled.isSupported_iff {evolutions : List Assembly.Evolution}
    {sorted cyclic unneeded : List Statement}
    (h : p.IsAssembled v l (l.groups v) evolutions sorted cyclic unneeded)
    (hflat : ∀ name rhs, l.get? name = some rhs → rhs.isFlat = true) :
    (∀ st ∈ p.statements, st.expr.IsSupported) ↔ l.IsSupported v := by
  constructor
  · intro hstatements head tail hpart hne
    obtain ⟨name, hget, hcompound⟩ := EquationSet.exists_get?_of_isPart hflat hpart hne
    by_cases hconstant : l.Binds v Element.isConstant name
    · obtain ⟨rhs, hrhs, -, hhead⟩ := hconstant
      cases hget.symm.trans hrhs
      exact Element.refusal?_of_isConstant hhead
    · by_cases hevolving : l.Binds v Element.isEvolving name
      · obtain ⟨e, he⟩ := h.exists_evolution hevolving
        refine (Assembly.isSupported_derivative_iff he hget).mp (hstatements _ ?_)
        exact h.mem_statements_iff.mpr (.inr ⟨e, ⟨name, hevolving, he⟩, rfl⟩)
      · have haux := (l.mem_auxNames v).mpr
          ⟨EquationSet.mem_vars_of_get? hget, hevolving, hconstant⟩
        obtain ⟨st, hst⟩ := h.exists_auxiliary haux
        refine (Assembly.isSupported_auxiliary_iff hst hget hcompound).mp (hstatements _ ?_)
        exact h.mem_statements_iff.mpr (.inl ⟨name, haux, hst⟩)
  · intro hsupported st hst
    have happlied : ∀ {name rhs}, l.get? name = some rhs → rhs.isCompound = true →
        (v.resolve rhs.head).refusal? = none := fun {name rhs} hrhs hcompound =>
      hsupported rhs.head rhs.tail (.whole hrhs) (Term.isCompound_iff_ne_nil.mp hcompound)
    rcases h.mem_statements_iff.mp hst with ⟨name, haux, hst⟩ | ⟨e, ⟨name, hbinds, he⟩, rfl⟩
    · obtain ⟨rhs, _, _, hrhs, -⟩ := Assembly.auxiliary_eq_ok_iff.mp hst
      by_cases hvar : rhs.isVariable = true
      · exact Assembly.isSupported_auxiliary_of_isVariable hst hrhs hvar
      · have hcompound : rhs.isCompound = true := by
          rw [Term.isCompound_iff, ← Bool.not_eq_true]
          exact hvar
        exact (Assembly.isSupported_auxiliary_iff hst hrhs hcompound).mpr
          (happlied hrhs hcompound)
    · obtain ⟨rhs, hrhs, hcompound, -⟩ := hbinds
      exact (Assembly.isSupported_derivative_iff he hrhs).mpr (happlied hrhs hcompound)

theorem Program.IsLoopFree.isSupported_iff (h : p.IsLoopFree v l) :
    (∀ st ∈ p.statements, st.expr.IsSupported) ↔ l.IsSupported v := by
  obtain ⟨_, _, _, _, hp⟩ := h.assembled
  exact hp.isSupported_iff h.flat

/-- Linear forms apply the elements of their source. -/
theorem EquationSet.IsLinearization.isSupported_iff
    (h : EquationSet.IsLinearization strict s l n) : l.IsSupported v ↔ s.IsSupported v := by
  constructor
  · intro hl head tail hpart hne
    exact hl head _ (h.isPart_flat hpart hne) (mt List.map_eq_nil_iff.mp hne)
  · intro hs head tail hpart hne
    obtain ⟨args, hargs, hne', -⟩ := h.exists_isPart_of_isPart hpart hne
    exact hs head args hargs hne'

namespace Compiled

variable (h : Compiled s v l n p)
include h

theorem isLoopFree : p.IsLoopFree v l := by
  obtain ⟨strict, hn⟩ := h.linear
  exact ⟨fun _ _ => hn.isFlat, h.assembled, h.acyclic⟩

theorem wellFormed : s.WellFormed v := by
  obtain ⟨strict, hn⟩ := h.linear
  exact hn.wellFormed_iff.mp h.isLoopFree.wellFormed

theorem isSupported : ∀ st ∈ p.statements, st.expr.IsSupported := by
  obtain ⟨strict, hn⟩ := h.linear
  exact h.isLoopFree.isSupported_iff.mpr (hn.isSupported_iff.mpr h.supported)

end Compiled

end DiffAnalyzer
