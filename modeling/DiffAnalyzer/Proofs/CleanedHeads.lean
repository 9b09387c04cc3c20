import DiffAnalyzer.Element
import DiffAnalyzer.Proofs.Cleaning
import DiffAnalyzer.Proofs.RoundTrip
import Mathlib

/-!
# Elements after cleaning

Cleaning leaves the head of an application as it is if the head is plain and no variable but itself
is given its name (`EquationSet.IsCleaning.apply_eq_self_iff`).  Where another variable takes the
name of an element, or two heads differ in points and primes only, the cleaned set applies other
elements than the set (`EquationSet.cleanIdentifiers_displaced_merged`).
-/

namespace DiffAnalyzer

section PlainNames

variable {a : Atom} {name : String}

/-- Plain names may have letters, digits and underscores everywhere but a digit in front. -/
theorem Atom.isPlain_iff : a.isPlain = true ↔ ∀ c ∈ a.chars, isPlainPart c = true := by
  refine ⟨fun h => ?_, isPlain_of_forall⟩
  unfold isPlain at h
  split at h
  · cases h
  · rename_i c rest hchars
    rw [Bool.and_eq_true, List.all_eq_true] at h
    rw [hchars, List.forall_mem_cons]
    refine ⟨?_, h.2⟩
    have hstart := h.1
    rw [isNameStart, Bool.or_eq_true] at hstart
    rw [isPlainPart, Bool.or_eq_true]
    exact hstart.imp_left fun halpha => by rw [Char.isAlphanum, halpha, Bool.true_or]

theorem isPlain_of_cleanName (h : cleanName name = .ok a) : a.isPlain = true :=
  Atom.isPlain_iff.mpr (isPlainPart_of_cleanName h)

theorem cleanChars_of_isPlain (h : a.isPlain = true) : cleanChars a.chars = a.chars := by
  have hkept : ∀ c ∈ a.chars, cleanChar? c = some c := fun c hc => by
    have hpart := Atom.isPlain_iff.mp h c hc
    rw [isPlainPart, Bool.or_eq_true, beq_iff_eq] at hpart
    exact cleanChar?_eq_self hpart
  unfold cleanChars
  rw [List.filterMap_congr hkept, List.filterMap_some]
  split
  · rename_i hnil
    exact hnil.symm
  · rename_i c rest hchars
    have hvalid := a.valid
    rw [hchars, isName, Bool.and_eq_true] at hvalid
    rw [if_neg, hchars]
    intro hdigit
    cases hvalid.1.symm.trans (Grammar.plain_of_isDigit (.inr hdigit)).1

/-- Cleaning keeps plain names, and no others. -/
theorem cleanName_eq_self_iff : cleanName (toString a) = .ok a ↔ a.isPlain = true := by
  refine ⟨isPlain_of_cleanName, fun h => ?_⟩
  have hchars : cleanChars (toString a).toList = a.chars := by
    rw [Atom.toList_toString, cleanChars_of_isPlain h]
  obtain ⟨base, hbase⟩ := exists_cleanName a
  rw [hbase, Except.ok.injEq]
  unfold cleanName at hbase
  split at hbase
  · cases hbase
  · cases hbase
    exact Atom.ext hchars

end PlainNames

section Applications

variable {a : Arg} {s t : Term} {head : Atom}

theorem Arg.mem_applications_node {tail : List Arg} :
    t ∈ (Arg.node head tail).applications ↔
      tail ≠ [] ∧ (t = ⟨head, tail⟩ ∨ ∃ a ∈ tail, t ∈ a.applications) := by
  cases tail with
  | nil => simp [applications]
  | cons a rest => simp [applications, applicationsList_eq_flatMap]

theorem Term.mem_applications : s ∈ t.applications ↔ ∃ a ∈ t.tail, s ∈ a.applications := by
  rw [applications, List.mem_eraseDups, Arg.applicationsList_eq_flatMap, List.mem_flatMap]

namespace EquationSet

variable {s : EquationSet}

/-- Applications inside a part are parts. -/
theorem isPart_of_mem_applications (ha : s.IsPart a) (ht : t ∈ a.applications) :
    s.IsPart t.toArg := by
  induction a using Arg.induct with
  | number x => cases ht
  | node head tail ih =>
    obtain ⟨-, rfl | ⟨b, hb, htb⟩⟩ := Arg.mem_applications_node.mp ht
    · exact ha
    · exact ih b hb (.argument ha hb) htb

/-- Applications inside parts are found in the right-hand sides. -/
theorem exists_application_of_isPart (ha : s.IsPart a) (ht : t ∈ a.applications) :
    ∃ rhs ∈ s.values, t ∈ rhs.toArg.applications := by
  induction ha with
  | whole h => exact ⟨_, List.mem_map_of_mem (SortedMap.get?_eq_some_iff.mp h), ht⟩
  | argument _ ha ih =>
    exact ih (Arg.mem_applications_node.mpr ⟨List.ne_nil_of_mem ha, .inr ⟨_, ha, ht⟩⟩)

/-- The heads that cleaning looks at are those of all applications. -/
theorem mem_elementHeads : head ∈ s.elementHeads ↔ s.UsesHead head := by
  simp only [elementHeads, List.mem_flatMap, List.mem_map, List.mem_filter, List.mem_append,
    List.mem_singleton, Term.isCompound_iff_ne_nil]
  constructor
  · rintro ⟨rhs, hrhs, t, ⟨ht, hne⟩, rfl⟩
    obtain ⟨⟨name, rhs⟩, he, rfl⟩ := List.mem_map.mp hrhs
    have hwhole : s.IsPart rhs.toArg := .whole (SortedMap.get?_of_mem he)
    rcases ht with ht | rfl
    · obtain ⟨a, ha, hta⟩ := Term.mem_applications.mp ht
      exact ⟨t.tail, hne, isPart_of_mem_applications (.argument hwhole ha) hta⟩
    · exact ⟨t.tail, hne, hwhole⟩
  · rintro ⟨tail, hne, hpart⟩
    obtain ⟨rhs, hrhs, ht⟩ := exists_application_of_isPart hpart
      (Arg.mem_applications_node.mpr ⟨hne, .inl rfl⟩)
    obtain ⟨-, heq | hinside⟩ := Arg.mem_applications_node.mp ht
    · exact ⟨rhs, hrhs, ⟨head, tail⟩, ⟨.inr heq, hne⟩, rfl⟩
    · exact ⟨rhs, hrhs, ⟨head, tail⟩, ⟨.inl (Term.mem_applications.mpr hinside), hne⟩, rfl⟩

end EquationSet

end Applications

namespace Vocabulary

/-- The names of the well-known elements are plain. -/
theorem isPlain_of_mem_standard : ∀ head ∈ standard.names, head.isPlain = true := by
  decide

theorem resolve_inj {vocabulary : Vocabulary} {head other : Atom} :
    vocabulary.resolve other = vocabulary.resolve head ↔ other = head := by
  refine ⟨fun h => ?_, congrArg _⟩
  rw [← vocabulary.name_resolve other, h, vocabulary.name_resolve]

end Vocabulary

namespace EquationSet

variable {s c : EquationSet} {f : Atom → Atom} {v head : Atom}

/-- The equations of the second set are those of the first with the heads renamed. -/
def Renames (s c : EquationSet) (f : Atom → Atom) : Prop :=
  ∀ w t, c.get? w = some t ↔ ∃ name rhs, s.get? name = some rhs ∧ f name = w ∧ rhs.mapHeads f = t

/-- The head is the name of a variable, and another variable gets that name. -/
def IsDisplaced (s : EquationSet) (f : Atom → Atom) (head : Atom) : Prop :=
  head ∈ s.vars ∧ ∃ v ∈ s.vars, v ≠ head ∧ f v = head

namespace IsCleaning

variable (hf : s.IsCleaning f)
include hf

/-- A variable keeps its name if it is plain and not given to another variable. -/
theorem apply_eq_self_iff (hv : v ∈ s.vars) :
    f v = v ↔ v.isPlain = true ∧ ¬ s.IsDisplaced f v := by
  constructor
  · intro hself
    refine ⟨hself ▸ hf.isPlain v hv, fun ⟨_, u, hu, hne, huv⟩ => hne ?_⟩
    exact hf.injOn hu hv (huv.trans hself.symm)
  · rintro ⟨hplain, hdisplaced⟩
    obtain ⟨base, k, hbase, hpadded, hbefore⟩ := hf.spelling v hv
    cases hbase.symm.trans (cleanName_eq_self_iff.mpr hplain)
    cases k with
    | zero => rw [hpadded, Atom.padded_zero]
    | succ k =>
      -- the variable that has the unpadded name can only be this one
      obtain ⟨u, hu, huv⟩ := hbefore 0 k.succ_pos
      rw [Atom.padded_zero] at huv
      by_contra hself
      refine hdisplaced ⟨hv, u, hu, ?_, huv⟩
      rintro rfl
      exact hself huv

/-- An element keeps its head if that is plain and no other variable gets it as a name. -/
theorem head_eq_self_iff (hhead : s.UsesHead head) :
    f head = head ↔ head.isPlain = true ∧ ¬ s.IsDisplaced f head := by
  by_cases hvars : head ∈ s.vars
  · exact hf.apply_eq_self_iff hvars
  · have hclean := hf.cleaned head (mem_elementHeads.mpr hhead) hvars
    rw [← cleanName_eq_self_iff, hclean, Except.ok.injEq]
    exact ⟨fun h => ⟨h, fun hdisplaced => hvars hdisplaced.1⟩, And.left⟩

end IsCleaning

/-- Variables stay apart, and the head of an application is cleaned unless it is the name of a
variable.  So an equation has the same element after cleaning exactly if its head is plain, as those
of all standard elements are, and no other variable is given its name. -/
theorem cleanIdentifiers_elements (h : s.cleanIdentifiers = .ok c) : ∃ f : Atom → Atom,
    s.Renames c f ∧ Set.InjOn f {v | v ∈ s.vars} ∧
    (∀ head, s.UsesHead head → head ∉ s.vars → cleanName (toString head) = .ok (f head)) ∧
    (∀ head, s.UsesHead head →
      (f head = head ↔ head.isPlain = true ∧ ¬ s.IsDisplaced f head)) ∧
    (∀ head ∈ Vocabulary.standard.names, head.isPlain = true) ∧
    ∀ name rhs, s.get? name = some rhs → rhs.isCompound = true →
      (Vocabulary.standard.resolve (rhs.mapHeads f).head = Vocabulary.standard.resolve rhs.head ↔
        rhs.head.isPlain = true ∧ ¬ s.IsDisplaced f rhs.head) := by
  obtain ⟨f, hf, rfl⟩ := exists_isCleaning h
  refine ⟨f, fun w t => get?_mapHeads hf.injOn_keys, hf.injOn,
    fun head hhead => hf.cleaned head (mem_elementHeads.mpr hhead),
    fun head hhead => hf.head_eq_self_iff hhead, Vocabulary.isPlain_of_mem_standard, ?_⟩
  intro name rhs hrhs hcompound
  have hhead : s.UsesHead rhs.head :=
    ⟨rhs.tail, Term.isCompound_iff_ne_nil.mp hcompound, .whole hrhs⟩
  exact Vocabulary.resolve_inj.trans (hf.head_eq_self_iff hhead)

/-- The circuit `n.eg = const(1)`, `neg = const(2)`, `y = neg(n.eg)`. -/
def displaced : EquationSet :=
  let dotted : Atom := ⟨"n.eg".toList, .refl true⟩
  .ofList [(dotted, ⟨Element.const.name, [.number ⟨0x3ff0000000000000⟩]⟩),
    (Element.neg.name, ⟨Element.const.name, [.number ⟨0x4000000000000000⟩]⟩),
    (⟨['y'], .refl true⟩, ⟨Element.neg.name, [.node dotted []]⟩)]

/-- The circuit `neg = const(1)`, `neg_ = const(2)`, `y = neg_(neg)`. -/
def displacedClean : EquationSet :=
  let padded : Atom := ⟨"neg_".toList, .refl true⟩
  .ofList [(Element.neg.name, ⟨Element.const.name, [.number ⟨0x3ff0000000000000⟩]⟩),
    (padded, ⟨Element.const.name, [.number ⟨0x4000000000000000⟩]⟩),
    (⟨['y'], .refl true⟩, ⟨padded, [.node Element.neg.name []]⟩)]

theorem cleanIdentifiers_elements_displaced :
    displaced.cleanIdentifiers = .ok displacedClean ∧ ∃ f : Atom → Atom,
      displaced.Renames displacedClean f ∧ Set.InjOn f {v | v ∈ displaced.vars} ∧
      (∀ head, displaced.UsesHead head → head ∉ displaced.vars →
        cleanName (toString head) = .ok (f head)) ∧
      (∀ head, displaced.UsesHead head →
        (f head = head ↔ head.isPlain = true ∧ ¬ displaced.IsDisplaced f head)) ∧
      (∀ head ∈ Vocabulary.standard.names, head.isPlain = true) ∧
      ∀ name rhs, displaced.get? name = some rhs → rhs.isCompound = true →
        (Vocabulary.standard.resolve (rhs.mapHeads f).head = Vocabulary.standard.resolve rhs.head ↔
          rhs.head.isPlain = true ∧ ¬ displaced.IsDisplaced f rhs.head) := by
  have hclean : displaced.cleanIdentifiers = .ok displacedClean := by decide +kernel
  exact ⟨hclean, cleanIdentifiers_elements hclean⟩

/-- The circuit `y = a.b(x)`, `z = ab(x)`. -/
def merged : EquationSet :=
  let x : Atom := ⟨['x'], .refl true⟩
  .ofList [(⟨['y'], .refl true⟩, ⟨⟨"a.b".toList, .refl true⟩, [.node x []]⟩),
    (⟨['z'], .refl true⟩, ⟨⟨"ab".toList, .refl true⟩, [.node x []]⟩)]

/-- The circuit `y = ab(x)`, `z = ab(x)`. -/
def mergedClean : EquationSet :=
  let x : Atom := ⟨['x'], .refl true⟩
  let merged : Atom := ⟨"ab".toList, .refl true⟩
  .ofList [(⟨['y'], .refl true⟩, ⟨merged, [.node x []]⟩),
    (⟨['z'], .refl true⟩, ⟨merged, [.node x []]⟩)]

/-- Every head of a right-hand side is still there under its new name. -/
theorem Renames.mem_heads {name : Atom} {rhs : Term} (h : s.Renames c f)
    (hrhs : s.get? name = some rhs) : f rhs.head ∈ c.values.map Term.head := by
  have hget := (h _ _).mpr ⟨name, rhs, hrhs, rfl, rfl⟩
  exact List.mem_map.mpr ⟨_, List.mem_map_of_mem (SortedMap.get?_eq_some_iff.mp hget), rfl⟩

/-- A variable that takes the name of an element leaves no application of it, and two elements
become one. -/
theorem cleanIdentifiers_displaced_merged :
    (displaced.cleanIdentifiers = .ok displacedClean ∧
      displaced.UsesHead Element.neg.name ∧ Element.neg.name.isPlain = true ∧
      ∀ f, displaced.Renames displacedClean f → f Element.neg.name ≠ Element.neg.name) ∧
    merged.cleanIdentifiers = .ok mergedClean ∧
      ∃ head other, merged.UsesHead head ∧ merged.UsesHead other ∧ head ≠ other ∧
        ∀ f, merged.Renames mergedClean f → f head = f other := by
  have hdisplaced : displaced.get? ⟨['y'], .refl true⟩ =
      some ⟨Element.neg.name, [.node ⟨"n.eg".toList, .refl true⟩ []]⟩ := rfl
  have hdotted : merged.get? ⟨['y'], .refl true⟩ =
      some ⟨⟨"a.b".toList, .refl true⟩, [.node ⟨['x'], .refl true⟩ []]⟩ := rfl
  have hplain : merged.get? ⟨['z'], .refl true⟩ =
      some ⟨⟨"ab".toList, .refl true⟩, [.node ⟨['x'], .refl true⟩ []]⟩ := rfl
  constructor
  · refine ⟨by decide +kernel, ⟨_, List.cons_ne_nil _ _, .whole hdisplaced⟩, rfl, ?_⟩
    intro f hf hneg
    have hhead := hf.mem_heads hdisplaced
    rw [hneg] at hhead
    exact absurd hhead (by decide)
  · refine ⟨by decide +kernel, ⟨"a.b".toList, .refl true⟩, ⟨"ab".toList, .refl true⟩,
      ⟨_, List.cons_ne_nil _ _, .whole hdotted⟩, ⟨_, List.cons_ne_nil _ _, .whole hplain⟩,
      by decide, fun f hf => ?_⟩
    have hheads : ∀ head ∈ mergedClean.values.map Term.head,
        head = ⟨"ab".toList, .refl true⟩ := by decide
    exact (hheads _ (hf.mem_heads hdotted)).trans (hheads _ (hf.mem_heads hplain)).symm

end EquationSet

end DiffAnalyzer
