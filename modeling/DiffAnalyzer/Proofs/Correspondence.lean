import DiffAnalyzer.Proofs.Matching
import DiffAnalyzer.Proofs.StandIn
import Mathlib

/-!
# Corresponding names of two linear forms

Two sources may differ in the values of some constants, and their linear forms in which
applications have names of their own.  Variables of the source correspond to themselves
and names to those that state the same application (`EquationSet.Corresponds`).  Names
that correspond match (`SameButConstants.matching`).
-/

namespace DiffAnalyzer

open Simulator

variable {V : Type} {I : Interpretation V}

namespace EquationSet

/-- A variable of the source, or names that state one application. -/
inductive Corresponds (s s' l l' : EquationSet) (n n' : Naming) (exempt : Atom → Prop) :
    Atom → Atom → Prop where
  | source {name : Atom} (h : name ∈ s.vars) : Corresponds s s' l l' n n' exempt name name
  | application {head name name' : Atom} {tail : List Arg} (hpart : s.IsPart (.node head tail))
      (hpart' : s'.IsPart (.node head tail)) (hne : tail ≠ [])
      (hname : l.get? name = some (n.flat head tail))
      (hname' : l'.get? name' = some (n'.flat head tail)) (hexempt : ¬exempt name) :
      Corresponds s s' l l' n n' exempt name name'

/-- Linear forms of two sources that differ in the equations of exempt names.  These stand
for applications of the first source nowhere but where it uses them. -/
structure SameButConstants (v : Vocabulary) (s s' l l' : EquationSet) (n n' : Naming)
    (exempt : Atom → Prop) : Prop where
  left : ∃ strict, IsLinearization strict s l n
  right : ∃ strict, IsLinearization strict s' l' n'
  wellFormed : s.WellFormed v
  get?_eq : ∀ name, ¬exempt name → s'.get? name = s.get? name
  argument : ∀ head tail a w, s.IsPart (.node head tail) → a ∈ tail →
    a.replace n.standIn = .node w [] → exempt w → a = .node w []
  root : ∀ name rhs w, s.get? name = some rhs → rhs.isCompound = true → ¬exempt name →
    l.LeadsTo rhs name w → ¬exempt w

/-- A name that is bound to a variable leads to that variable. -/
theorem eq_and_get?_of_leadsTo {l : EquationSet} {n : Naming} {name u w : Atom}
    (hw : l.Shows n (Term.var u).toArg (.node w [])) (hleads : l.LeadsTo (.var u) name w) :
    w = u ∧ l.get? name = some (.var w) := by
  constructor
  · rcases shows_name_cases hw with heq | ⟨head, tail, heq, hne, -⟩
    · exact (Arg.node.inj heq).1.symm
    · exact absurd (Arg.node.inj heq).2.symm hne
  · exact hleads.resolve_right fun h => nomatch h.2

namespace SameButConstants

variable {v : Vocabulary} {s s' l l' : EquationSet} {n n' : Naming} {exempt : Atom → Prop}
  {p p' : Program} {constants : List V}
  (h : SameButConstants v s s' l l' n n' exempt)
include h

/-- Arguments are replaced by equal literals or by names that correspond. -/
theorem related_arguments {head : Atom} {tail : List Arg} (hpart : s.IsPart (.node head tail))
    (hpart' : s'.IsPart (.node head tail)) :
    List.Forall₂ (Arg.Related (Corresponds s s' l l' n n' exempt))
      (tail.map (Arg.replace n.standIn)) (tail.map (Arg.replace n'.standIn)) := by
  obtain ⟨strict, hn⟩ := h.left
  obtain ⟨strict', hn'⟩ := h.right
  rw [List.forall₂_map_left_iff, List.forall₂_map_right_iff, List.forall₂_same]
  intro a ha
  rcases hn.replace_cases hpart ha with ⟨x, rfl⟩ | ⟨w, hw, hshows⟩
  · rw [Arg.replace_number, Arg.replace_number]
    exact .number x
  · rcases hn'.replace_cases hpart' ha with ⟨x, rfl⟩ | ⟨w', hw', hshows'⟩
    · cases hshows
    · rw [hw, hw']
      refine .name ?_
      rcases shows_name_cases hshows with rfl | ⟨head', tail', rfl, hne, hget⟩
      · rw [n'.replace_of_isSimple rfl] at hw'
        cases hw'
        exact .source (mem_vars_of_isPart (.argument hpart ha) List.mem_cons_self)
      · refine .application (.argument hpart ha) (.argument hpart' ha) hne hget
          (get?_of_shows hne hshows') fun hexempt => hne ?_
        exact (Arg.node.inj (h.argument head tail _ w hpart ha hw hexempt)).2

section Matches

variable (hp : p.IsLoopFree v l) (hp' : p'.IsLoopFree v l')
  (hconstants : ∀ name i, ¬exempt name → (l.groups v).layout.constants.indexOf? name = some i →
    constants[i]? = (p.constantValues.map I.literal)[i]?)
include hp hp' hconstants

/-- Names that state one application match. -/
theorem matches_application {head name name' : Atom} {tail : List Arg}
    (hpart : s.IsPart (.node head tail)) (hpart' : s'.IsPart (.node head tail)) (hne : tail ≠ [])
    (hname : l.get? name = some (n.flat head tail))
    (hname' : l'.get? name' = some (n'.flat head tail)) (hfree : ¬exempt name) :
    Matches v I l l' constants (p'.constantValues.map I.literal)
      (Corresponds s s' l l' n n' exempt) name name' := by
  have hne' : tail.map (Arg.replace n.standIn) ≠ [] := mt List.map_eq_nil_iff.mp hne
  by_cases hhead : (v.resolve head).isConstant = true
  · obtain ⟨x, rfl⟩ := h.wellFormed.constant head tail hpart hne hhead
    obtain ⟨i, hi, hvalue⟩ := hp.exists_constant hname hhead
    obtain ⟨j, hj, hvalue'⟩ := hp'.exists_constant hname' hhead
    refine .constant hi hj ?_
    rw [List.getD_eq_getElem?_getD, List.getD_eq_getElem?_getD, hconstants name i hfree hi,
      List.getElem?_map, List.getElem?_map, hvalue, hvalue']
  · exact .application hname hname' hne' hhead (h.related_arguments hpart hpart')

/-- Names that lead to applications of one right-hand side match. -/
theorem matches_compound {x k k' : Atom} {rhs : Term} (hrhs : s.get? x = some rhs)
    (hrhs' : s'.get? x = some rhs) (hcompound : rhs.isCompound = true) (hfree : ¬exempt x)
    (hk : l.Shows n rhs.toArg (.node k [])) (hk' : l'.Shows n' rhs.toArg (.node k' []))
    (hleads : l.LeadsTo rhs x k) (hleads' : l'.LeadsTo rhs x k') :
    Matches v I l l' constants (p'.constantValues.map I.literal)
      (Corresponds s s' l l' n n' exempt) x x := by
  have hne := Term.isCompound_iff_ne_nil.mp hcompound
  have hget := get?_of_shows hne hk
  have hget' := get?_of_shows hne hk'
  have hstates : Corresponds s s' l l' n n' exempt k k' := .application (.whole hrhs)
    (.whole hrhs') hne hget hget' (h.root x rhs k hrhs hcompound hfree hleads)
  rcases hleads with halias | ⟨rfl, -⟩
  · exact .follow (.inr halias) (hleads'.symm.imp_left And.left) (.inl halias) hstates
  · rcases hleads' with halias' | ⟨rfl, -⟩
    · exact .follow (.inl rfl) (.inr halias') (.inr halias') hstates
    · exact h.matches_application hp hp' hconstants (.whole hrhs) (.whole hrhs') hne hget hget' hfree

/-- A variable of the source with its own equation matches itself. -/
theorem matches_source {x : Atom} (hx : x ∈ s.vars) (hfree : ¬exempt x) :
    Matches v I l l' constants (p'.constantValues.map I.literal)
      (Corresponds s s' l l' n n' exempt) x x := by
  obtain ⟨strict, hn⟩ := h.left
  obtain ⟨strict', hn'⟩ := h.right
  obtain ⟨rhs, hrhs⟩ := Option.isSome_iff_exists.mp (h.wellFormed.bound x hx)
  have hrhs' : s'.get? x = some rhs := (h.get?_eq x hfree).trans hrhs
  obtain ⟨k, hk, hleads⟩ := hn.exists_shows hrhs
  obtain ⟨k', hk', hleads'⟩ := hn'.exists_shows hrhs'
  by_cases hcompound : rhs.isCompound = true
  · exact h.matches_compound hp hp' hconstants hrhs hrhs' hcompound hfree hk hk' hleads hleads'
  · rw [Term.isCompound_iff, Bool.not_eq_false] at hcompound
    rw [Term.eq_var_of_isVariable hcompound] at hrhs hk hk' hleads hleads'
    obtain ⟨rfl, halias⟩ := eq_and_get?_of_leadsTo hk hleads
    obtain ⟨rfl, halias'⟩ := eq_and_get?_of_leadsTo hk' hleads'
    refine .follow (.inr halias) (.inr halias') (.inl halias) (.source ?_)
    exact mem_vars_of_isPart (.whole hrhs) List.mem_cons_self

/-- Names that correspond match, if the exempt ones are constants with one value and the
others have their own. -/
theorem matching (hexempt : ∀ name, exempt name → ∃ i j,
      (l.groups v).layout.constants.indexOf? name = some i ∧
      (l'.groups v).layout.constants.indexOf? name = some j ∧
      constants[i]? = (p'.constantValues.map I.literal)[j]?) :
    Matching v I l l' p p' constants (p'.constantValues.map I.literal)
      (Corresponds s s' l l' n n' exempt) := by
  refine ⟨hp, hp', ?_⟩
  rintro x x' (hx | ⟨hpart, hpart', hne, hname, hname', hfree⟩)
  case application =>
    exact h.matches_application hp hp' hconstants hpart hpart' hne hname hname' hfree
  case source =>
    by_cases hfree : exempt x
    · obtain ⟨i, j, hi, hj, hvalue⟩ := hexempt x hfree
      refine .constant hi hj ?_
      rw [List.getD_eq_getElem?_getD, List.getD_eq_getElem?_getD, hvalue]
    · exact h.matches_source hp hp' hconstants hx hfree

end Matches

end SameButConstants

end EquationSet

end DiffAnalyzer
