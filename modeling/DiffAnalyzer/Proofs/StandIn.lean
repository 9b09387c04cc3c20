import DiffAnalyzer.Proofs.WellFormedness
import Mathlib

/-!
# What the names of a linear form stand for

An argument of a linear form states a part of the source: it is the part with names for
its arguments, or the name of that (`EquationSet.Shows`).  So linearizing neither makes nor
hides a defect (`IsLinearization.wellFormed_iff`).  Two linear forms of one source state
the same parts, and what is proved along the dependencies of one holds of the other too
(`IsLinearization.shows_induction`); in particular both have loops or none has
(`IsLinearization.auxCyclic_eq_nil`).
-/

namespace DiffAnalyzer

namespace EquationSet

variable {strict : Bool} {s l : EquationSet} {n : Naming} {v : Vocabulary} {head : Atom}
  {tail : List Arg} {a b : Arg} {x : Number}

/-- The argument `b` of the linear form stands for the part `a` of its source: it is `a`
with names for its arguments, or the name of that. -/
inductive Shows (l : EquationSet) (n : Naming) : Arg → Arg → Prop where
  | number (x : Number) : Shows l n (.number x) (.number x)
  | itself (head : Atom) (tail : List Arg) :
    Shows l n (.node head tail) (n.flat head tail).toArg
  | name {head k : Atom} {tail : List Arg} (hne : tail ≠ [])
    (hk : l.get? k = some (n.flat head tail)) : Shows l n (.node head tail) (.node k [])

theorem map_replace_eq_singleton_iff :
    tail.map (Arg.replace n.standIn) = [.number x] ↔ tail = [.number x] := by
  constructor
  · intro htail
    obtain ⟨a, rest, rfl, ha, hrest⟩ := List.map_eq_cons_iff.mp htail
    cases List.map_eq_nil_iff.mp hrest
    cases a with
    | number y => exact congrArg (fun a => [a]) ha
    | node head tail =>
      rw [Arg.replace_node] at ha
      cases ha
  · rintro rfl
    rfl

namespace IsLinearization

variable (h : IsLinearization strict s l n)
include h

/-- What replaces an argument stands for it. -/
theorem shows_replace (ha : (a.replace n.standIn).isSimple = true) :
    l.Shows n a (a.replace n.standIn) := by
  cases a with
  | number x => exact .number x
  | node head tail =>
    by_cases hnil : tail = []
    · subst hnil
      rw [n.replace_of_isSimple rfl]
      exact .itself head []
    · obtain ⟨k, hk⟩ := n.exists_lookup_of_isSimple hnil ha
      have hstand := Naming.standIn_of_lookup (n.isCompound_flat head hnil) hk
      rw [Naming.flat] at hstand
      rw [Arg.replace_node, hstand]
      exact .name hnil (h.get?_of_lookup hk).1

/-- The equation of a bound name makes it stand for the right-hand side of the source. -/
theorem shows_bound {name : Atom} {rhs : Term} (hrhs : s.get? name = some rhs) :
    ∃ t, l.get? name = some t ∧ l.Shows n rhs.toArg t.toArg := by
  rcases h.get?_bound_cases hrhs with hl | ⟨hcompound, k, hl, hk⟩
  · exact ⟨_, hl, .itself rhs.head rhs.tail⟩
  · exact ⟨_, hl, .name (Term.isCompound_iff_ne_nil.mp hcompound) hk⟩

theorem isParameter_of_shows (hb : l.Shows n a b) (ha : s.IsParameter v a x) :
    l.IsParameter v b x := by
  induction ha generalizing b with
  | number x =>
    cases hb
    exact .number x
  | constant x hconstant =>
    cases hb with
    | itself => exact .constant x hconstant
    | name _ hk => exact .reference hk (.constant x hconstant)
  | reference hrhs _ ih =>
    obtain ⟨t, ht, hshows⟩ := h.shows_bound hrhs
    cases hb with
    | itself => exact .reference ht (ih hshows)
    | name hne _ => exact absurd rfl hne

theorem isParameter_of_shows_of_isPart (hpart : s.IsPart a) (hb : l.Shows n a b)
    (hx : l.IsParameter v b x) : s.IsParameter v a x := by
  induction hx generalizing a with
  | number x =>
    cases hb
    exact .number x
  | @constant head x hconstant =>
    generalize hb' : Arg.node head [.number x] = b at hb
    cases hb with
    | number y => cases hb'
    | name hne hk => cases hb'
    | itself head' tail =>
      obtain ⟨rfl, htail⟩ := Arg.node.inj hb'
      rw [map_replace_eq_singleton_iff.mp htail.symm]
      exact .constant x hconstant
  | @reference name t x ht _ ih =>
    generalize hb' : Arg.node name [] = b at hb
    cases hb with
    | number y => cases hb'
    | name hne hk =>
      cases hb'
      cases Option.some.inj (ht.symm.trans hk)
      exact ih hpart (.itself _ _)
    | itself head tail =>
      obtain ⟨rfl, htail⟩ := Arg.node.inj hb'
      cases List.map_eq_nil_iff.mp htail.symm
      rcases h.get?_cases ht with ⟨rhs, hrhs, -⟩ | hfresh
      · obtain ⟨t', ht', hshows⟩ := h.shows_bound hrhs
        cases Option.some.inj (ht.symm.trans ht')
        exact .reference hrhs (ih (.whole hrhs) hshows)
      · have hvars := mem_vars_of_isPart hpart List.mem_cons_self
        exact absurd hvars (h.isSound.not_used name t hfresh)

/-- An argument is a parameter when what replaces it is one. -/
theorem isParameter_replace_iff (hpart : s.IsPart (.node head tail)) (ha : a ∈ tail) :
    l.IsParameter v (a.replace n.standIn) x ↔ s.IsParameter v a x := by
  have hshows := h.shows_replace (h.isSimple_replace hpart ha)
  exact ⟨h.isParameter_of_shows_of_isPart (.argument hpart ha) hshows,
    h.isParameter_of_shows hshows⟩

/-- The applications of the linear form are those of the source. -/
theorem exists_isPart_of_isPart (hpart : l.IsPart (.node head tail)) (hne : tail ≠ []) :
    ∃ args, s.IsPart (.node head args) ∧ args ≠ [] ∧ tail = args.map (Arg.replace n.standIn) := by
  obtain ⟨name, hname, hcompound⟩ := exists_get?_of_isPart (fun _ _ => h.isFlat) hpart hne
  obtain ⟨head', args, hargs, hne', heq⟩ := h.eq_flat_of_get? hname hcompound
  cases heq
  exact ⟨args, hargs, hne', rfl⟩

theorem isPart_flat (hpart : s.IsPart (.node head tail)) (hne : tail ≠ []) :
    l.IsPart (.node head (tail.map (Arg.replace n.standIn))) := by
  obtain ⟨name, hname⟩ := h.exists_get?_flat hpart hne
  exact .whole hname

/-- What can be assembled in linear form is well-formed. -/
theorem wellFormed_of_linear (hl : l.WellFormed v) : s.WellFormed v := by
  have hflat : ∀ {head : Atom} {tail : List Arg}, s.IsPart (.node head tail) → tail ≠ [] →
      l.IsPart (.node head (tail.map (Arg.replace n.standIn))) ∧
        tail.map (Arg.replace n.standIn) ≠ [] :=
    fun hpart hne => ⟨h.isPart_flat hpart hne, mt List.map_eq_nil_iff.mp hne⟩
  constructor
  case bound => exact h.bound_iff.mp hl.bound
  case accepts =>
    intro head tail hpart hne
    obtain ⟨hpart', hne'⟩ := hflat hpart hne
    have := hl.accepts head _ hpart' hne'
    rwa [List.length_map] at this
  case constant =>
    intro head tail hpart hne hc
    obtain ⟨hpart', hne'⟩ := hflat hpart hne
    obtain ⟨x, hx⟩ := hl.constant head _ hpart' hne' hc
    exact ⟨x, map_replace_eq_singleton_iff.mp hx⟩
  case evolving =>
    intro head tail hpart hne he
    obtain ⟨hpart', hne'⟩ := hflat hpart hne
    obtain ⟨initial, step, inputs, htail, hinputs, hstep, hinitial⟩ :=
      hl.evolving head _ hpart' hne' he
    rw [← List.map_reverse] at htail
    obtain ⟨initial, rest, hreverse, rfl, hrest⟩ := List.map_eq_cons_iff.mp htail
    obtain ⟨step, inputs, rfl, rfl, rfl⟩ := List.map_eq_cons_iff.mp hrest
    have hmem : ∀ a ∈ initial :: step :: inputs, a ∈ tail := fun a ha => by
      rwa [← List.mem_reverse, hreverse]
    simp only [h.isParameter_replace_iff hpart (hmem initial (by simp)),
      h.isParameter_replace_iff hpart (hmem step (by simp))] at hstep hinitial
    exact ⟨initial, step, inputs, hreverse, mt List.map_eq_nil_iff.mpr hinputs, hstep, hinitial⟩

/-- Linear forms of well-formed sets can be assembled. -/
theorem wellFormed_linear (hs : s.WellFormed v) : l.WellFormed v := by
  constructor
  case bound => exact h.bound_iff.mpr hs.bound
  case accepts =>
    intro head tail hpart hne
    obtain ⟨args, hargs, hne', rfl⟩ := h.exists_isPart_of_isPart hpart hne
    rw [List.length_map]
    exact hs.accepts head args hargs hne'
  case constant =>
    intro head tail hpart hne hc
    obtain ⟨args, hargs, hne', rfl⟩ := h.exists_isPart_of_isPart hpart hne
    obtain ⟨x, rfl⟩ := hs.constant head args hargs hne' hc
    exact ⟨x, rfl⟩
  case evolving =>
    intro head tail hpart hne he
    obtain ⟨args, hargs, hne', rfl⟩ := h.exists_isPart_of_isPart hpart hne
    obtain ⟨initial, step, inputs, htail, hinputs, hstep, hinitial⟩ :=
      hs.evolving head args hargs hne' he
    have hmem : ∀ a ∈ initial :: step :: inputs, a ∈ args := fun a ha => by
      rwa [← List.mem_reverse, htail]
    refine ⟨initial.replace n.standIn, step.replace n.standIn,
      inputs.map (Arg.replace n.standIn), ?_, mt List.map_eq_nil_iff.mp hinputs, ?_, ?_⟩
    · rw [← List.map_reverse, htail, List.map_cons, List.map_cons]
    · simpa only [h.isParameter_replace_iff hargs (hmem step (by simp))] using hstep
    · simpa only [h.isParameter_replace_iff hargs (hmem initial (by simp))] using hinitial

/-- Linearizing neither makes nor hides a defect. -/
theorem wellFormed_iff : l.WellFormed v ↔ s.WellFormed v :=
  ⟨h.wellFormed_of_linear, h.wellFormed_linear⟩

end IsLinearization

/-- A name is bound to another, or states an application itself. -/
def LeadsTo (l : EquationSet) (rhs : Term) (name k : Atom) : Prop :=
  l.get? name = some (.var k) ∨ name = k ∧ rhs.isCompound = true

/-- A name that stands for a part is the part, or states it. -/
theorem shows_name_cases {name : Atom} (hshows : l.Shows n a (.node name [])) :
    a = .node name [] ∨ ∃ head tail, a = .node head tail ∧ tail ≠ [] ∧
      l.get? name = some (n.flat head tail) := by
  generalize hb : Arg.node name [] = b at hshows
  cases hshows with
  | number x => cases hb
  | itself head tail =>
    obtain ⟨rfl, htail⟩ := Arg.node.inj hb
    cases List.map_eq_nil_iff.mp htail.symm
    exact .inl rfl
  | name hne hk =>
    cases hb
    exact .inr ⟨_, _, rfl, hne, hk⟩

theorem get?_of_shows {name : Atom} (hne : tail ≠ [])
    (hshows : l.Shows n (.node head tail) (.node name [])) :
    l.get? name = some (n.flat head tail) := by
  rcases shows_name_cases hshows with heq | ⟨head', tail', heq, -, hget⟩
  · cases heq
    exact absurd rfl hne
  · cases heq
    exact hget

namespace IsLinearization

variable {strict' : Bool} {l' : EquationSet} {n' : Naming} {name name' : Atom} {rhs : Term}
  (h : IsLinearization strict s l n)
include h

/-- Arguments are replaced by literals, or by names that stand for them. -/
theorem replace_cases (hpart : s.IsPart (.node head tail)) (ha : a ∈ tail) :
    (∃ x, a = .number x) ∨
      ∃ w, a.replace n.standIn = .node w [] ∧ l.Shows n a (.node w []) := by
  have hsimple := h.isSimple_replace hpart ha
  have hshows := h.shows_replace hsimple
  cases hreplace : a.replace n.standIn with
  | number x =>
    rw [hreplace] at hshows
    cases hshows
    exact .inl ⟨x, rfl⟩
  | node w args =>
    rw [hreplace, Arg.isSimple_node, List.isEmpty_iff] at hsimple
    subst hsimple
    exact .inr ⟨w, rfl, hreplace ▸ hshows⟩

/-- A name that states an application depends on the names of its arguments. -/
theorem mem_dependencyGraph_flat_iff {w : Atom} (hpart : s.IsPart (.node head tail))
    (hne : tail ≠ []) (hget : l.get? name = some (n.flat head tail)) :
    (name, w) ∈ l.dependencyGraph ↔ ∃ a ∈ tail, a.replace n.standIn = .node w [] := by
  rw [mem_dependencyGraph_iff hget, Term.toArg, Arg.mem_references_node]
  constructor
  · rintro (⟨hnil, -⟩ | ⟨b, hb, hmem⟩)
    · exact absurd (List.map_eq_nil_iff.mp hnil) hne
    · obtain ⟨a, ha, rfl⟩ := List.mem_map.mp hb
      rcases h.replace_cases hpart ha with ⟨x, rfl⟩ | ⟨k, hk, -⟩
      · exact absurd hmem List.not_mem_nil
      · rw [hk] at hmem
        exact ⟨a, ha, List.mem_singleton.mp hmem ▸ hk⟩
  · rintro ⟨a, ha, hw⟩
    refine .inr ⟨_, List.mem_map_of_mem ha, ?_⟩
    rw [hw]
    exact List.mem_cons_self

/-- A bound name leads to one that stands for its right-hand side. -/
theorem exists_shows (hrhs : s.get? name = some rhs) :
    ∃ k, l.Shows n rhs.toArg (.node k []) ∧ l.LeadsTo rhs name k := by
  rcases h.get?_bound_cases hrhs with hl | ⟨hcompound, k, hl, hk⟩
  · by_cases hvar : rhs.isVariable = true
    · obtain ⟨head, tail⟩ := rhs
      cases List.isEmpty_iff.mp hvar
      exact ⟨head, .itself head [], .inl hl⟩
    · have hcompound : rhs.isCompound = true := by
        rw [Term.isCompound_iff, ← Bool.not_eq_true]
        exact hvar
      exact ⟨name, .name (Term.isCompound_iff_ne_nil.mp hcompound) hl, .inr ⟨rfl, hcompound⟩⟩
  · exact ⟨k, .name (Term.isCompound_iff_ne_nil.mp hcompound) hk, .inl hl⟩

/-- A name that states an application is accessible along the dependencies of the linear
form if the names of its arguments are. -/
theorem acc_of_get?_flat (hpart : s.IsPart (.node head tail)) (hne : tail ≠ [])
    (hget : l.get? name = some (n.flat head tail))
    (hargs : ∀ a ∈ tail, ∀ w, a.replace n.standIn = .node w [] → w ∈ l.auxNames v →
      Acc (fun w u => (u, w) ∈ l.auxEdges v) w) :
    Acc (fun w u => (u, w) ∈ l.auxEdges v) name := by
  refine .intro _ fun w hw => ?_
  obtain ⟨hgraph, haux⟩ := (l.mem_auxEdges v).mp hw
  obtain ⟨a, ha, hw⟩ := (h.mem_dependencyGraph_flat_iff hpart hne hget).mp hgraph
  exact hargs a ha w hw haux

variable (h' : IsLinearization strict' s l' n')
include h'

/-- Arguments are replaced by the same literal, or by names that stand for one part. -/
theorem replace_cases₂ (hpart : s.IsPart (.node head tail)) (ha : a ∈ tail) :
    (∃ x, a.replace n.standIn = .number x ∧ a.replace n'.standIn = .number x) ∨
      ∃ w w', a.replace n.standIn = .node w [] ∧ a.replace n'.standIn = .node w' [] ∧
        l.Shows n a (.node w []) ∧ l'.Shows n' a (.node w' []) := by
  rcases h.replace_cases hpart ha with ⟨x, rfl⟩ | ⟨w, hw, hshows⟩
  · exact .inl ⟨x, Arg.replace_number .., Arg.replace_number ..⟩
  · rcases h'.replace_cases hpart ha with ⟨x, rfl⟩ | ⟨w', hw', hshows'⟩
    · cases hshows
    · exact .inr ⟨w, w', hw, hw', hshows, hshows'⟩

/-- Names that stand for one part are related, if stating one application and leading to
related names relates them.  The induction is along the dependencies of a loop-free form. -/
theorem shows_induction {M : Atom → Atom → Prop} (hacyclic : (l.groups v).auxCyclic = [])
    (hbound : ∀ u ∈ s.vars, s.contains u = true)
    (application : ∀ head tail name name', s.IsPart (.node head tail) → tail ≠ [] →
      l.get? name = some (n.flat head tail) → l'.get? name' = some (n'.flat head tail) →
      (name ∈ l.auxNames v → ∀ a ∈ tail, ∀ w w', a.replace n.standIn = .node w [] →
        a.replace n'.standIn = .node w' [] → M w w') → M name name')
    (reference : ∀ name rhs k k', s.get? name = some rhs → l.LeadsTo rhs name k →
      l'.LeadsTo rhs name k' → M k k' → M name name)
    (hpart : s.IsPart a) (hname : l.Shows n a (.node name []))
    (hname' : l'.Shows n' a (.node name' [])) : M name name' := by
  obtain ⟨μ, hμ⟩ := l.exists_measure v hacyclic
  induction hm : μ name using Nat.strong_induction_on generalizing a name name' with
  | _ m ih =>
    subst hm
    have hstates : ∀ {head : Atom} {tail : List Arg} {other : Atom}, s.IsPart (.node head tail) →
        tail ≠ [] → l.get? name = some (n.flat head tail) →
        l'.get? other = some (n'.flat head tail) → M name other := by
      intro head tail other hpart hne hget hget'
      refine application head tail name other hpart hne hget hget' fun haux b hb w w' hw hw' => ?_
      rcases h.replace_cases₂ h' hpart hb with ⟨x, hx, -⟩ | ⟨_, _, hk, hk', hshows, hshows'⟩
      · cases hw.symm.trans hx
      · cases hw.symm.trans hk
        cases hw'.symm.trans hk'
        refine ih (μ w) (hμ name w haux ?_) (.argument hpart hb) hshows hshows' rfl
        exact (h.mem_dependencyGraph_flat_iff hpart hne hget).mpr ⟨b, hb, hw⟩
    rcases shows_name_cases hname with rfl | ⟨head, tail, rfl, hne, hget⟩
    · -- A variable: its equation is followed in both forms.
      rcases shows_name_cases hname' with heq | ⟨head, tail, heq, hne, -⟩
      · cases heq
        obtain ⟨rhs, hrhs⟩ := Option.isSome_iff_exists.mp (hbound name
          (mem_vars_of_isPart hpart List.mem_cons_self))
        obtain ⟨k, hk, hleads⟩ := h.exists_shows hrhs
        obtain ⟨k', hk', hleads'⟩ := h'.exists_shows hrhs
        refine reference name rhs k k' hrhs hleads hleads' ?_
        rcases hleads with halias | ⟨rfl, hcompound⟩
        · refine ih (μ k) (hμ name k (l.mem_auxNames_of_get?_var v halias) ?_) (.whole hrhs) hk hk'
            rfl
          exact (mem_dependencyGraph_iff halias).mpr List.mem_cons_self
        · have hne := Term.isCompound_iff_ne_nil.mp hcompound
          exact hstates (.whole hrhs) hne (get?_of_shows hne hk) (get?_of_shows hne hk')
      · cases heq
        exact absurd rfl hne
    · exact hstates hpart hne hget (get?_of_shows hne hname')

/-- Names that state one application: the second is accessible along the dependencies of
its form if the names of its arguments are. -/
theorem acc_of_get?_flat₂ {name name' : Atom} (hpart : s.IsPart (.node head tail)) (hne : tail ≠ [])
    (hget : l.get? name = some (n.flat head tail))
    (hget' : l'.get? name' = some (n'.flat head tail))
    (hargs : name ∈ l.auxNames v → ∀ a ∈ tail, ∀ w w', a.replace n.standIn = .node w [] →
      a.replace n'.standIn = .node w' [] → w' ∈ l'.auxNames v →
        Acc (fun w u => (u, w) ∈ l'.auxEdges v) w')
    (haux' : name' ∈ l'.auxNames v) : Acc (fun w u => (u, w) ∈ l'.auxEdges v) name' := by
  have haux : name ∈ l.auxNames v := by
    rw [l.mem_auxNames_of_isCompound v hget (n.isCompound_flat head hne)]
    exact (l'.mem_auxNames_of_isCompound v hget' (n'.isCompound_flat head hne)).mp haux'
  refine h'.acc_of_get?_flat hpart hne hget' fun a ha w' hw hwaux => ?_
  rcases h.replace_cases₂ h' hpart ha with ⟨x, -, hx⟩ | ⟨k, k', hk, hk', -, -⟩
  · rw [hx] at hw
    cases hw
  · exact hargs haux a ha k w' hk hw hwaux

/-- If one linear form has no loops, the others have none. -/
theorem auxCyclic_eq_nil (hbound : ∀ u ∈ s.vars, s.contains u = true)
    (hacyclic : (l.groups v).auxCyclic = []) : (l'.groups v).auxCyclic = [] := by
  -- Every auxiliary of the other form is accessible along its dependencies.
  let M (_ name' : Atom) : Prop :=
    name' ∈ l'.auxNames v → Acc (fun w u => (u, w) ∈ l'.auxEdges v) name'
  have hreference : ∀ name rhs k k', s.get? name = some rhs → l.LeadsTo rhs name k →
      l'.LeadsTo rhs name k' → M k k' → M name name := by
    intro name rhs k k' _ _ hleads' hk
    rcases hleads' with halias | ⟨rfl, -⟩
    · exact fun _ => l'.acc_of_get?_var v halias hk
    · exact hk
  have hshows : ∀ {a : Arg} {name name' : Atom}, s.IsPart a → l.Shows n a (.node name []) →
      l'.Shows n' a (.node name' []) → M name name' :=
    h.shows_induction h' hacyclic hbound
      (fun _ _ _ _ hpart hne hget hget' => h.acc_of_get?_flat₂ h' hpart hne hget hget') hreference
  refine l'.auxCyclic_eq_nil_of_acc v fun u hu => ?_
  obtain ⟨t, ht⟩ := Option.isSome_iff_exists.mp (h'.bound_iff.mpr hbound u
    ((l'.mem_auxNames v).mp hu).1)
  by_cases hcompound : t.isCompound = true
  · obtain ⟨head, tail, hpart, hne, rfl⟩ := h'.eq_flat_of_get? ht hcompound
    obtain ⟨k, hk⟩ := h.exists_get?_flat hpart hne
    exact hshows hpart (.name hne hk) (.name hne ht) hu
  · rcases h'.get?_cases ht with ⟨rhs, hrhs, -⟩ | hfresh
    · obtain ⟨k, hk, hleads⟩ := h.exists_shows hrhs
      obtain ⟨k', hk', hleads'⟩ := h'.exists_shows hrhs
      exact hreference u rhs k k' hrhs hleads hleads' (hshows (.whole hrhs) hk hk') hu
    · exact absurd (h'.isSound.isLinear u t hfresh).isCompound hcompound

end IsLinearization

end EquationSet

end DiffAnalyzer
