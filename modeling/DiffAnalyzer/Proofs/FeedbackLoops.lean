import DiffAnalyzer.Proofs.StrictNaming
import Mathlib

/-!
# Feedback loops

A circuit has a loop when the value of some variable enters its own right-hand side with no
integrator, differentiator or constant around it (`EquationSet.HasLoop`).  Linear forms name
applications and share them, which adds steps to the ways between variables but neither opens
nor closes a loop (`IsLinearization.auxCyclic_ne_nil_iff`).  So loops are reported for what
the source says, however its applications are named (`Circuit.reports_loop_iff`).
-/

namespace DiffAnalyzer

/-- A relation that leads only to finitely many things, and from none of them back to itself,
is well-founded. -/
theorem wellFounded_of_not_transGen {α : Type} [DecidableEq α] {R : α → α → Prop}
    (nodes : List α) (hnodes : ∀ w u, R w u → w ∈ nodes) (h : ∀ u, ¬ Relation.TransGen R u u) :
    WellFounded R := by
  let Below (w u : { u // u ∈ nodes }) : Prop := Relation.TransGen R w.1 u.1
  have htrans : IsTrans _ Below := ⟨fun _ _ _ hwu hux => hwu.trans hux⟩
  have hirrefl : Std.Irrefl Below := ⟨fun u => h u.1⟩
  have hwf : WellFounded Below := Finite.wellFounded_of_trans_of_irrefl Below
  have hacc : ∀ u : { u // u ∈ nodes }, Acc R u.1 := by
    intro u
    induction u using hwf.induction with
    | _ u ih => exact .intro _ fun w hw => ih ⟨w, hnodes w u.1 hw⟩ (.single hw)
  exact ⟨fun u => .intro u fun w hw => hacc ⟨w, hnodes w u hw⟩⟩

/-- The variable occurs in the argument with no integrator, differentiator or constant around
it. -/
inductive Arg.Exposes (v : Vocabulary) : Arg → Atom → Prop where
  | reference (name : Atom) : Exposes v (.node name []) name
  | argument {head name : Atom} {tail : List Arg} {a : Arg} (ha : a ∈ tail)
    (he : ¬ (v.resolve head).isEvolving = true) (hc : ¬ (v.resolve head).isConstant = true)
    (h : Exposes v a name) : Exposes v (.node head tail) name

namespace EquationSet

/-- The right-hand side of `u` takes the value of `w` without delay. -/
def Reads (s : EquationSet) (v : Vocabulary) (u w : Atom) : Prop :=
  ∃ rhs, s.get? u = some rhs ∧ rhs.toArg.Exposes v w

/-- Some variable depends on itself without delay. -/
def HasLoop (s : EquationSet) (v : Vocabulary) : Prop :=
  ∃ u, Relation.TransGen (s.Reads v) u u

variable {strict : Bool} {s l : EquationSet} {n : Naming} {v : Vocabulary} {a : Arg}
  {name u w : Atom}

theorem mem_vars_of_exposes (hpart : s.IsPart a) (h : a.Exposes v name) : name ∈ s.vars := by
  induction h with
  | reference name => exact mem_vars_iff.mpr (.inr hpart)
  | argument ha _ _ _ ih => exact ih (.argument hpart ha)

/-- Going from a variable to one that it reads comes to an end where there are no loops. -/
theorem wellFounded_reads (h : ¬ s.HasLoop v) : WellFounded fun w u => s.Reads v u w := by
  refine wellFounded_of_not_transGen s.vars ?_ ?_
  · rintro w u ⟨rhs, hrhs, hexposes⟩
    exact mem_vars_of_exposes (.whole hrhs) hexposes
  · intro u hu
    exact h ⟨u, Relation.transGen_swap.mp hu⟩

namespace IsLinearization

variable (h : IsLinearization strict s l n)
include h

section Measure

variable {μ : Atom → Nat}
  (hμ : ∀ u w, u ∈ l.auxNames v → (u, w) ∈ l.dependencyGraph → μ w < μ u)
include hμ

/-- A measure that falls along the dependencies of the linear form falls from the name of a
part to each variable that the part exposes. -/
theorem lt_of_exposes (hpart : s.IsPart a) (hname : l.Shows n a (.node name []))
    (hw : a.Exposes v w) : a = .node w [] ∧ name = w ∨ μ w < μ name := by
  -- Inwards from the application: its name depends on the names of its arguments.
  induction hw generalizing name with
  | reference w =>
    rcases shows_name_cases hname with heq | ⟨head, tail, heq, hne, -⟩
    · cases heq
      exact .inl ⟨rfl, rfl⟩
    · cases heq
      exact absurd rfl hne
  | @argument head w tail b hb he hc hexposes ih =>
    have hne : tail ≠ [] := List.ne_nil_of_mem hb
    have hget := get?_of_shows hne hname
    have haux : name ∈ l.auxNames v := l.mem_auxNames_of_get? v hget he hc
    rcases h.replace_cases hpart hb with ⟨x, rfl⟩ | ⟨k, hk, hshows⟩
    · cases hexposes
    · have hlt : μ k < μ name :=
        hμ name k haux ((h.mem_dependencyGraph_flat_iff hpart hne hget).mpr ⟨b, hb, hk⟩)
      rcases ih (.argument hpart hb) hshows with ⟨-, rfl⟩ | hlt'
      · exact .inr hlt
      · exact .inr (hlt'.trans hlt)

theorem lt_of_reads (hreads : s.Reads v u w) : μ w < μ u := by
  obtain ⟨rhs, hrhs, hexposes⟩ := hreads
  obtain ⟨k, hk, hleads⟩ := h.exists_shows hrhs
  have hcases := h.lt_of_exposes hμ (.whole hrhs) hk hexposes
  rcases hleads with halias | ⟨rfl, hcompound⟩
  · have hlt : μ k < μ u := hμ u k (l.mem_auxNames_of_get?_var v halias)
      ((mem_dependencyGraph_iff halias).mpr List.mem_cons_self)
    rcases hcases with ⟨-, rfl⟩ | hlt'
    · exact hlt
    · exact hlt'.trans hlt
  · rcases hcases with ⟨heq, -⟩ | hlt
    · exact absurd (Arg.node.inj heq).2 (Term.isCompound_iff_ne_nil.mp hcompound)
    · exact hlt

end Measure

/-- A loop of the source leaves auxiliaries of the linear form that cannot be sorted. -/
theorem not_hasLoop (hacyclic : (l.groups v).auxCyclic = []) : ¬ s.HasLoop v := by
  obtain ⟨μ, hμ⟩ := l.exists_measure v hacyclic
  have hlt : ∀ u w, Relation.TransGen (s.Reads v) u w → μ w < μ u := by
    intro u w huw
    induction huw with
    | single hreads => exact h.lt_of_reads hμ hreads
    | tail _ hreads ih => exact (h.lt_of_reads hμ hreads).trans ih
  rintro ⟨u, hu⟩
  exact Nat.lt_irrefl _ (hlt u u hu)

/-- The name of a part is accessible along the dependencies of the linear form if the
variables are that the part exposes. -/
theorem acc_of_shows (hpart : s.IsPart a) (hname : l.Shows n a (.node name []))
    (hexposed : ∀ w, a.Exposes v w → w ∈ l.auxNames v →
      Acc (fun w u => (u, w) ∈ l.auxEdges v) w)
    (haux : name ∈ l.auxNames v) : Acc (fun w u => (u, w) ∈ l.auxEdges v) name := by
  induction a using Arg.induct generalizing name with
  | number x => cases hname
  | node head tail ih =>
    rcases shows_name_cases hname with heq | ⟨_, _, heq, hne, hget⟩
    · cases heq
      exact hexposed _ (.reference _) haux
    · cases heq
      obtain ⟨he, hc⟩ :=
        (l.mem_auxNames_of_isCompound v hget (n.isCompound_flat head hne)).mp haux
      refine h.acc_of_get?_flat hpart hne hget fun b hb w hbw hwaux => ?_
      rcases h.replace_cases hpart hb with ⟨x, rfl⟩ | ⟨k, hk, hshows⟩
      · cases hbw
      · cases hk.symm.trans hbw
        exact ih b hb (.argument hpart hb) hshows
          (fun x hx => hexposed x (.argument hb he hc hx)) hwaux

/-- Names that are not fresh are accessible, by induction on what the source reads. -/
theorem acc_of_not_fresh (hsource : Acc (fun w u => s.Reads v u w) u)
    (hfresh : n.fresh.get? u = none) (haux : u ∈ l.auxNames v) :
    Acc (fun w u => (u, w) ∈ l.auxEdges v) u := by
  induction hsource with
  | intro u _ ih =>
    cases hl : l.get? u with
    | none =>
      refine .intro _ fun w hw => ?_
      obtain ⟨t, ht, -⟩ := mem_dependencyGraph.mp ((l.mem_auxEdges v).mp hw).1
      cases hl.symm.trans (SortedMap.get?_eq_some_iff.mpr ht)
    | some t =>
      rcases h.get?_cases hl with ⟨rhs, hrhs, -⟩ | hfresh'
      · obtain ⟨k, hk, hleads⟩ := h.exists_shows hrhs
        have hacc : k ∈ l.auxNames v → Acc (fun w u => (u, w) ∈ l.auxEdges v) k := by
          refine h.acc_of_shows (.whole hrhs) hk fun w hw hwaux => ?_
          refine ih w ⟨rhs, hrhs, hw⟩ ?_ hwaux
          refine Option.eq_none_iff_forall_ne_some.mpr fun t ht => ?_
          exact h.isSound.not_used w t ht (mem_vars_of_exposes (.whole hrhs) hw)
        rcases hleads with halias | ⟨rfl, -⟩
        · exact l.acc_of_get?_var v halias hacc
        · exact hacc haux
      · cases hfresh.symm.trans hfresh'

/-- Without loops in the source all auxiliaries of the linear form can be sorted. -/
theorem auxCyclic_eq_nil_of_not_hasLoop (hloop : ¬ s.HasLoop v) :
    (l.groups v).auxCyclic = [] := by
  have hwf := wellFounded_reads hloop
  have hnone : ∀ {w}, w ∈ s.vars → n.fresh.get? w = none := fun hw =>
    Option.eq_none_iff_forall_ne_some.mpr fun t ht => h.isSound.not_used _ t ht hw
  refine l.auxCyclic_eq_nil_of_acc v fun u haux => ?_
  cases hfresh : n.fresh.get? u with
  | none => exact h.acc_of_not_fresh (hwf.apply u) hfresh haux
  | some t =>
    -- A fresh name states a part of the source, and the variables in it are not fresh.
    have hget := h.get?_of_fresh hfresh
    obtain ⟨head, tail, hpart, hne, rfl⟩ :=
      h.eq_flat_of_get? hget (h.isSound.isLinear u t hfresh).isCompound
    refine h.acc_of_shows hpart (.name hne hget) (fun w hw hwaux => ?_) haux
    exact h.acc_of_not_fresh (hwf.apply w) (hnone (mem_vars_of_exposes hpart hw)) hwaux

/-- Auxiliaries are left over exactly when the source has a loop. -/
theorem auxCyclic_ne_nil_iff : (l.groups v).auxCyclic ≠ [] ↔ s.HasLoop v := by
  constructor
  · intro hcyclic
    by_contra hloop
    exact hcyclic (h.auxCyclic_eq_nil_of_not_hasLoop hloop)
  · intro hloop hcyclic
    exact h.not_hasLoop hcyclic hloop

end IsLinearization

end EquationSet

namespace Circuit

variable {c : Circuit} {o : CompileOptions} {l : EquationSet}

/-- A compilation is refused for a loop when loops are to be refused and the source has
one. -/
theorem exists_compile_cyclic_iff (hl : c.equations.linearize o.strictNaming = .ok l) :
    (∃ names, c.compile o = .error (.cyclicAuxiliary names)) ↔
      o.denyCyclic = true ∧ c.equations.HasLoop o.vocabulary := by
  obtain ⟨n, hn⟩ := EquationSet.exists_isLinearization hl
  rw [← hn.auxCyclic_ne_nil_iff, compile_of_linearize hl]
  split
  case isTrue hrefused => exact ⟨fun _ => hrefused, fun _ => ⟨_, rfl⟩⟩
  case isFalse hallowed =>
    refine ⟨fun ⟨names, hnames⟩ => ?_, fun hrefused => absurd hrefused hallowed⟩
    exact ((Program.failsOnly_assemble _ _ _).map _ _ hnames).elim

/-- Whether loops are reported, and whether a circuit is refused for them, depends on its
source alone. -/
theorem reports_loop_iff (hl : c.equations.linearize o.strictNaming = .ok l) :
    (∃ g, l.classify o.vocabulary = .ok g ∧
      (g.auxCyclic ≠ [] ↔ c.equations.HasLoop o.vocabulary)) ∧
    ((∃ names, c.compile o = .error (.cyclicAuxiliary names)) ↔
      o.denyCyclic = true ∧ c.equations.HasLoop o.vocabulary) ∧
    ∀ strict' l', c.equations.linearize strict' = .ok l' →
      ((∃ names, c.compile o = .error (.cyclicAuxiliary names)) ↔
        ∃ names, c.compile { o with strictNaming := strict' } = .error (.cyclicAuxiliary names)) ∧
      ((∃ r, c.compile o = .ok r) ↔
        ∃ r, c.compile { o with strictNaming := strict' } = .ok r) := by
  obtain ⟨n, hn⟩ := EquationSet.exists_isLinearization hl
  refine ⟨⟨_, l.classify_eq o.vocabulary, hn.auxCyclic_ne_nil_iff⟩,
    exists_compile_cyclic_iff hl, fun strict' l' hl' => ?_⟩
  obtain ⟨n', hn'⟩ := EquationSet.exists_isLinearization hl'
  have hcyclic : (l.groups o.vocabulary).auxCyclic = [] ↔
      (l'.groups o.vocabulary).auxCyclic = [] :=
    not_iff_not.mp (hn.auxCyclic_ne_nil_iff.trans hn'.auxCyclic_ne_nil_iff.symm)
  constructor
  · rw [exists_compile_cyclic_iff hl,
      exists_compile_cyclic_iff (o := { o with strictNaming := strict' }) hl']
  · rw [exists_compile_iff hl,
      exists_compile_iff (o := { o with strictNaming := strict' }) hl', hcyclic]

theorem reports_loop_iff_nestedLoop :
    let c : Circuit := ⟨EquationSet.nestedLoop, ∅⟩
    let o : CompileOptions := { strictNaming := true, denyCyclic := true }
    c.equations.linearize true = .ok EquationSet.linearLoop ∧ c.equations.HasLoop .standard ∧
      (∃ names, c.compile o = .error (.cyclicAuxiliary names)) ∧
      ∃ names, c.compile { o with strictNaming := false } = .error (.cyclicAuxiliary names) := by
  intro c o
  have hl : EquationSet.nestedLoop.linearize true = .ok EquationSet.linearLoop := rfl
  have hloop : c.equations.HasLoop .standard := by
    let product : Arg := .node Element.mult.name
      [.node ⟨['y'], by decide⟩ [], .node ⟨['x'], by decide⟩ []]
    refine ⟨⟨['x'], by decide⟩, .single ⟨_, rfl, ?_⟩⟩
    refine .argument (a := product) (by simp [product]) (by decide) (by decide) ?_
    exact .argument (by simp) (by decide) (by decide) (.reference _)
  obtain ⟨-, hreject, hnaming⟩ := reports_loop_iff (c := c) (o := o) hl
  have hrefused : ∃ names, c.compile o = .error (.cyclicAuxiliary names) :=
    hreject.mpr ⟨rfl, hloop⟩
  exact ⟨hl, hloop, hrefused, (hnaming false _ rfl).1.mp hrefused⟩

end Circuit

end DiffAnalyzer
