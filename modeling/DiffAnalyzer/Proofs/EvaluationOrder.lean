import DiffAnalyzer.Proofs.FixedPoints
import DiffAnalyzer.Proofs.StrictNaming
import Mathlib

/-!
# The order of auxiliaries in an evaluation

The statement of an auxiliary comes after those of the auxiliaries that it reads, unless these
are on or below a feedback loop: they are left over by the sort and run behind all that is
sorted, what reads them from above included (`Program.IsOrdered`).  So the equations that
read nothing that is left over hold after an evaluation (`Circuit.isOrdered_of_compile`).
-/

namespace DiffAnalyzer

open Simulator

namespace Program

variable (p : Program)

/-- The field of an auxiliary. -/
def auxSlot? (name : Atom) : Option Slot := (p.layout.aux.indexOf? name).map (Slot.mk .aux)

/-- The statement of the auxiliary `u` has the auxiliary `w` among its operands. -/
def AuxReads (u w : Atom) : Prop :=
  ∃ st ∈ p.statements, st.target ∈ p.auxSlot? u ∧
    ∃ slot ∈ p.auxSlot? w, .slot slot ∈ st.expr.operands

instance : DecidableRel p.AuxReads := fun u w =>
  inferInstanceAs (Decidable (∃ st ∈ p.statements, st.target ∈ p.auxSlot? u ∧
    ∃ slot ∈ p.auxSlot? w, .slot slot ∈ st.expr.operands))

/-- The statement of the auxiliary `w` comes before that of the auxiliary `u`. -/
def RunsBefore (w u : Atom) : Prop :=
  ∃ a ∈ p.auxSlot? w, ∃ b ∈ p.auxSlot? u, [a, b].Sublist (p.statements.map Statement.target)

instance : DecidableRel p.RunsBefore := fun w u =>
  inferInstanceAs (Decidable (∃ a ∈ p.auxSlot? w, ∃ b ∈ p.auxSlot? u,
    [a, b].Sublist (p.statements.map Statement.target)))

/-- Where the statement of an auxiliary stands among those of the auxiliaries that it reads. -/
structure IsOrdered : Prop where
  nodup : (p.statements.map Statement.target).Nodup
  /-- What is on no loop and needed by none comes before what reads it. -/
  before : ∀ u w, p.AuxReads u w → ¬ IsBelowLoop p.AuxReads w → p.RunsBefore w u
  /-- What is on a loop or needed by one comes after what reads it from above. -/
  after : ∀ u w, p.AuxReads u w → IsBelowLoop p.AuxReads w → ¬ IsBelowLoop p.AuxReads u →
    p.RunsBefore u w

end Program

/-- In a list with one `u` the members that come before `u` stand in front of it. -/
theorem mem_of_pair_sublist {α : Type} {w u : α} {before behind : List α}
    (h : [w, u].Sublist (before ++ u :: behind)) (hu : u ∉ behind) : w ∈ before := by
  obtain ⟨front, rest, heq, hfront, hrest⟩ := List.sublist_append_iff.mp h
  cases front with
  | nil =>
    obtain rfl : [w, u] = rest := heq
    exact absurd (List.singleton_sublist.mp hrest.tail) hu
  | cons a front =>
    obtain ⟨rfl, -⟩ := List.cons.inj heq
    exact hfront.subset List.mem_cons_self

/-- The fields that an evaluation computes are different. -/
theorem Layout.nodup_computed (l : Layout) : l.computed.Nodup := by
  have hslots : ∀ (g : Group) n, ((List.range n).map (Slot.mk g)).Nodup := fun g n =>
    List.nodup_range.map fun i j hij => (Slot.mk.inj hij).2
  refine List.nodup_append.mpr ⟨hslots _ _, hslots _ _, fun a ha b hb hab => ?_⟩
  obtain ⟨i, -, rfl⟩ := List.mem_map.mp ha
  obtain ⟨j, -, rfl⟩ := List.mem_map.mp hb
  cases hab

theorem Record.eq_of_indexOf? {r : Record} {a b : Atom} {i : Nat} (ha : r.indexOf? a = some i)
    (hb : r.indexOf? b = some i) : a = b := by
  rw [indexOf?_eq_some_iff] at ha hb
  exact Option.some.inj (ha.symm.trans hb)

namespace Assembly

variable {a : Assembly} {name : Atom} {rhs : Term}

theorem operand_eq_slot_iff {x : Arg} (hx : x.isSimple = true) {slot : Slot} :
    a.operand name x = .ok (.slot slot) ↔ ∃ w ∈ x.references, a.layout.slot? w = some slot := by
  cases x with
  | number y => exact ⟨nofun, nofun⟩
  | node head tail =>
    rw [Arg.isSimple_node, List.isEmpty_iff] at hx
    subst hx
    change a.variableOperand head = _ ↔ _
    rw [variableOperand_eq_ok_iff]
    simp [Arg.references]

/-- The expression of a flat right-hand side has the slots of its variables as operands. -/
theorem slot_mem_operands_iff {e : Expr} {slot : Slot} (hflat : rhs.isFlat = true)
    (he : a.expression name rhs = .ok e) :
    .slot slot ∈ e.operands ↔ ∃ w ∈ rhs.toArg.references, a.layout.slot? w = some slot := by
  rcases expression_eq_ok_iff.mp he with ⟨hvar, slot', hslot, rfl⟩ | ⟨hvar, -, os, hos, rfl⟩
  · rw [Term.eq_var_of_isVariable hvar]
    simp [Expr.operands, Term.var, Term.toArg, Arg.references, hslot, eq_comm]
  · have hne : rhs.tail ≠ [] := List.isEmpty_eq_false_iff.mp hvar
    have hmem : ∀ w, w ∈ rhs.toArg.references ↔ ∃ x ∈ rhs.tail, w ∈ x.references := fun w => by
      rw [Term.toArg, Arg.mem_references_node, or_iff_right fun h => hne h.1]
    rw [Expr.operands, mem_iff_of_forall₂ hos]
    simp only [hmem]
    constructor
    · rintro ⟨x, hx, hoperand⟩
      obtain ⟨w, hw, hslot⟩ := (operand_eq_slot_iff (Term.isFlat_iff.mp hflat x hx)).mp hoperand
      exact ⟨w, ⟨x, hx, hw⟩, hslot⟩
    · rintro ⟨w, ⟨x, hx, hw⟩, hslot⟩
      exact ⟨x, hx, (operand_eq_slot_iff (Term.isFlat_iff.mp hflat x hx)).mpr ⟨w, hw, hslot⟩⟩

end Assembly

namespace EquationSet

variable {s : EquationSet} {v : Vocabulary} {u w : Atom}

/-- What is read and not left over comes before what reads it. -/
theorem sublist_sweep_of_not_mem_auxCyclic (hedge : (u, w) ∈ s.auxEdges v)
    (hu : u ∈ s.auxNames v) (hw : w ∉ (s.groups v).auxCyclic) :
    [w, u].Sublist (s.sweep v) := by
  have haux := ((s.mem_auxEdges v).mp hedge).2
  have hordered : w ∈ (topologicalSort (s.auxEdges v)).ordered := by
    by_contra hordered
    exact hw ((s.mem_auxCyclic v).mpr
      ⟨haux, (Sorted.mem_cyclic_iff _).mpr ⟨TopologicalOrder.isNode_snd hedge, hordered⟩⟩)
  have hsorted : w ∈ (s.groups v).auxSorted := (s.mem_auxSorted v).mpr ⟨haux, hordered⟩
  exact (s.pair_sublist_auxSorted v hedge hu hsorted).trans (List.sublist_append_left _ _)

/-- What is left over comes after what reads it from above. -/
theorem sublist_sweep_of_mem_auxCyclic (hedge : (u, w) ∈ s.auxEdges v) (hu : u ∈ s.auxNames v)
    (hu' : u ∉ (s.groups v).auxCyclic) (hw : w ∈ (s.groups v).auxCyclic) :
    [u, w].Sublist (s.sweep v) := by
  have hsorted : u ∈ (s.groups v).auxSorted := by
    refine ((s.mem_auxNames_iff v).mp hu).resolve_right fun hrest => ?_
    have hunneeded := hrest.resolve_left hu'
    exact ((s.mem_auxUnneeded v).mp hunneeded).2 (TopologicalOrder.isNode_fst hedge)
  exact (List.singleton_sublist.mpr hsorted).append
    (List.singleton_sublist.mpr (List.mem_append_left _ hw))

end EquationSet

namespace Program.IsAssembled

variable {s : EquationSet} {v : Vocabulary} {p : Program} {evolutions : List Assembly.Evolution}
  {sorted cyclic unneeded : List Statement} {u w : Atom}
  (h : p.IsAssembled v s (s.groups v) evolutions sorted cyclic unneeded)
include h

theorem auxSlot?_of_mem (hw : w ∈ s.auxNames v) :
    p.auxSlot? w = some ⟨.aux, p.layout.aux.fields.idxOf w⟩ := by
  obtain ⟨i, hi⟩ := Record.exists_indexOf?_iff.mpr ((s.mem_aux v).mpr hw)
  rw [← h.layout] at hi
  rw [auxSlot?, hi, Option.map_some, Record.idxOf_of_indexOf? hi]

/-- The auxiliaries that a statement reads are those that the equation mentions. -/
theorem auxReads_iff (hflat : ∀ name rhs, s.get? name = some rhs → rhs.isFlat = true) :
    p.AuxReads u w ↔ u ∈ s.auxNames v ∧ (u, w) ∈ s.auxEdges v := by
  have hslot : ∀ {name slot}, p.auxSlot? name = some slot ↔
      ∃ i, (s.groups v).layout.aux.indexOf? name = some i ∧ ⟨.aux, i⟩ = slot := by
    intro name slot
    rw [auxSlot?, h.layout, Option.map_eq_some_iff]
  constructor
  · rintro ⟨st, hst, hu, slot, hw, hmem⟩
    obtain ⟨i, hi, htarget⟩ := hslot.mp hu
    obtain ⟨j, hj, rfl⟩ := hslot.mp hw
    rcases h.mem_statements_iff.mp hst with ⟨name, haux, hst⟩ | ⟨e, ⟨name, -, he⟩, rfl⟩
    · obtain ⟨rhs, expr, i', hrhs, hexpr, hi', rfl⟩ := Assembly.auxiliary_eq_ok_iff.mp hst
      cases htarget
      obtain rfl : name = u := Record.eq_of_indexOf? hi' hi
      obtain ⟨w', hw', hslot'⟩ :=
        (Assembly.slot_mem_operands_iff (hflat name rhs hrhs) hexpr).mp hmem
      obtain rfl : w' = w := Record.eq_of_indexOf? (Layout.indexOf?_of_slot?_aux hslot') hj
      refine ⟨haux, (s.mem_auxEdges v).mpr
        ⟨(EquationSet.mem_dependencyGraph_iff hrhs).mpr hw', ?_⟩⟩
      exact (s.mem_aux v).mp (Record.exists_indexOf?_iff.mp ⟨j, hj⟩)
    · obtain ⟨_, _, _, _, _, _, -, -, -, -, -, -, -, -, hderivative⟩ :=
        Assembly.evolution_eq_ok_iff.mp he
      rw [hderivative] at htarget
      cases htarget
  · rintro ⟨hu, hedge⟩
    obtain ⟨hgraph, hw⟩ := (s.mem_auxEdges v).mp hedge
    obtain ⟨st, hst⟩ := h.exists_auxiliary hu
    obtain ⟨rhs, expr, i, hrhs, hexpr, hi, hstatement⟩ := Assembly.auxiliary_eq_ok_iff.mp hst
    obtain ⟨j, hj⟩ := Record.exists_indexOf?_iff.mpr ((s.mem_aux v).mpr hw)
    refine ⟨st, h.mem_statements_iff.mpr (.inl ⟨u, hu, hst⟩), ?_, ⟨.aux, j⟩, ?_, ?_⟩
    · rw [hstatement]
      exact hslot.mpr ⟨i, hi, rfl⟩
    · exact hslot.mpr ⟨j, hj, rfl⟩
    · rw [hstatement]
      exact (Assembly.slot_mem_operands_iff (hflat u rhs hrhs) hexpr).mpr
        ⟨w, (EquationSet.mem_dependencyGraph_iff hrhs).mp hgraph, s.slot?_auxiliary v hj⟩

/-- The auxiliaries on or below loops are those that are left over by the sort. -/
theorem isBelowLoop_iff (hflat : ∀ name rhs, s.get? name = some rhs → rhs.isFlat = true) :
    IsBelowLoop p.AuxReads w ↔ w ∈ (s.groups v).auxCyclic := by
  have hreads : p.AuxReads = fun u w => u ∈ s.auxNames v ∧ (u, w) ∈ s.auxEdges v :=
    funext₂ fun _ _ => propext (h.auxReads_iff hflat)
  have htarget : ∀ u w, (u, w) ∈ s.auxEdges v → w ∈ s.auxNames v :=
    fun u w hedge => ((s.mem_auxEdges v).mp hedge).2
  rw [hreads, isBelowLoop_restrict_iff htarget, s.mem_auxCyclic v,
    Sorted.mem_cyclic_iff_isBelowLoop, iff_and_self]
  intro hbelow
  obtain ⟨u, hedge⟩ := hbelow.exists_edge
  exact htarget u w hedge

/-- The fields of the auxiliaries are assigned in the order of the sweep. -/
theorem sublist_targets : ((s.sweep v).map fun name =>
    (⟨.aux, p.layout.aux.fields.idxOf name⟩ : Slot)).Sublist
      (p.statements.map Statement.target) := by
  rw [h.statements_eq, List.map_append, List.map_append, List.map_append,
    Assembly.map_target_auxiliaries h.auxSorted, Assembly.map_target_auxiliaries h.auxCyclic,
    Assembly.map_target_auxiliaries h.auxUnneeded, EquationSet.sweep, List.map_append,
    List.map_append, h.layout]
  exact ((List.sublist_append_right _ _).append_left _).append_left _

theorem runsBefore_of_sublist (hsub : [w, u].Sublist (s.sweep v)) : p.RunsBefore w u := by
  have hw := EquationSet.mem_sweep.mp (hsub.subset List.mem_cons_self)
  have hu := EquationSet.mem_sweep.mp (hsub.subset (List.mem_cons_of_mem _ List.mem_cons_self))
  exact ⟨_, h.auxSlot?_of_mem hw, _, h.auxSlot?_of_mem hu, (hsub.map _).trans h.sublist_targets⟩

theorem isOrdered (hflat : ∀ name rhs, s.get? name = some rhs → rhs.isFlat = true) :
    p.IsOrdered where
  nodup := h.perm_targets.nodup_iff.mpr p.layout.nodup_computed
  before u w hreads hw := by
    obtain ⟨hu, hedge⟩ := (h.auxReads_iff hflat).mp hreads
    rw [h.isBelowLoop_iff hflat] at hw
    exact h.runsBefore_of_sublist (EquationSet.sublist_sweep_of_not_mem_auxCyclic hedge hu hw)
  after u w hreads hw hu' := by
    obtain ⟨hu, hedge⟩ := (h.auxReads_iff hflat).mp hreads
    rw [h.isBelowLoop_iff hflat] at hw hu'
    exact h.runsBefore_of_sublist (EquationSet.sublist_sweep_of_mem_auxCyclic hedge hu hu' hw)

/-- The settled equations hold of the auxiliaries that read nothing on or below a loop. -/
theorem settle_eq {V : Type} (M : Meaning V) (σ : Atom → V)
    (hflat : ∀ name rhs, s.get? name = some rhs → rhs.isFlat = true) {rhs : Term}
    (hu : u ∈ s.auxNames v) (hrhs : s.get? u = some rhs)
    (hreads : ∀ w, p.AuxReads u w → ¬ IsBelowLoop p.AuxReads w) :
    s.settle M (s.sweep v) σ u = rhs.eval M (s.settle M (s.sweep v) σ) := by
  obtain ⟨before, behind, hsplit⟩ := List.append_of_mem (EquationSet.mem_sweep.mpr hu)
  have hnodup := s.nodup_sweep v
  rw [hsplit, List.nodup_append] at hnodup
  obtain ⟨-, hnodup, hdisjoint⟩ := hnodup
  refine EquationSet.settle_eq_of_split hsplit (List.nodup_cons.mp hnodup).1 hrhs fun w hw hmem => ?_
  -- What is read and still to come would be an auxiliary, and those come before.
  have hsweep : w ∈ s.sweep v := by
    rw [hsplit]
    exact List.mem_append_right _ hmem
  have hedge : (u, w) ∈ s.auxEdges v := (s.mem_auxEdges v).mpr
    ⟨(EquationSet.mem_dependencyGraph_iff hrhs).mpr hw, EquationSet.mem_sweep.mp hsweep⟩
  have hbelow := hreads w ((h.auxReads_iff hflat).mpr ⟨hu, hedge⟩)
  rw [h.isBelowLoop_iff hflat] at hbelow
  have hsub := EquationSet.sublist_sweep_of_not_mem_auxCyclic hedge hu hbelow
  rw [hsplit] at hsub
  exact hdisjoint w (mem_of_pair_sublist hsub (List.nodup_cons.mp hnodup).1) w hmem rfl

end Program.IsAssembled

namespace Circuit

variable {c : Circuit} {o : CompileOptions} {r : Compilation}

/-- The auxiliaries on or below loops are the cyclic ones of the classification. -/
theorem isBelowLoop_iff_mem_auxCyclic (hcompile : c.compile o = .ok r) {w : Atom} :
    IsBelowLoop r.program.AuxReads w ↔ w ∈ r.classification.auxCyclic := by
  obtain ⟨l, p, hlinear, -, hassemble, rfl⟩ := compile_eq_ok_iff.mp hcompile
  obtain ⟨n, hn⟩ := EquationSet.exists_isLinearization hlinear
  obtain ⟨_, _, _, _, h⟩ := Program.assemble_eq_ok_iff.mp hassemble
  exact h.isBelowLoop_iff fun _ _ => hn.isFlat

/-- Compiled programs compute an auxiliary before what reads it, unless it is on a loop or
needed by one.  After an evaluation the equations hold that read no such auxiliary. -/
theorem isOrdered_of_compile (hcompile : c.compile o = .ok r) :
    r.program.IsOrdered ∧
    ∀ {V : Type} (I : Interpretation V) (sim sim' : Simulator V) (state slopes : List V),
      sim.program = r.program → sim.aux.length = r.program.layout.aux.size →
      (evaluate I state).run sim = (.ok slopes, sim') →
        let σ := r.program.layout.valuation I sim.constants state sim'.aux
        ∀ u ∈ r.classification.auxiliaries,
          (∀ w, r.program.AuxReads u w → ¬ IsBelowLoop r.program.AuxReads w) →
            ∃ rhs, r.linearized.get? u = some rhs ∧ σ u = rhs.eval (I.meaning o.vocabulary) σ := by
  obtain ⟨l, p, hlinear, -, hassemble, rfl⟩ := compile_eq_ok_iff.mp hcompile
  obtain ⟨n, hn⟩ := EquationSet.exists_isLinearization hlinear
  obtain ⟨evolutions, sorted, cyclic, unneeded, h⟩ := Program.assemble_eq_ok_iff.mp hassemble
  have hflat : ∀ name rhs, l.get? name = some rhs → rhs.isFlat = true := fun _ _ => hn.isFlat
  refine ⟨h.isOrdered hflat, ?_⟩
  intro V I sim sim' state slopes hprogram haux hrun σ u hu hreads
  obtain ⟨-, -, hσ⟩ := h.settles_of_evaluate hflat hprogram haux hrun
  obtain ⟨rhs, hrhs⟩ := Option.isSome_iff_exists.mp (h.bound u hu)
  refine ⟨rhs, hrhs, ?_⟩
  rw [show σ = _ from hσ]
  exact h.settle_eq _ _ hflat ((l.mem_auxiliaries o.vocabulary).mp hu) hrhs hreads

/-- The circuit `a = sum(a, 1)`, `b = neg(a)`, `d = neg(y)`, `e = neg(d)`,
`y = int(b, e, 0.1, 1)`. -/
def underLoop : Circuit :=
  let a : Atom := ⟨['a'], .refl true⟩
  let b : Atom := ⟨['b'], .refl true⟩
  let d : Atom := ⟨['d'], .refl true⟩
  let e : Atom := ⟨['e'], .refl true⟩
  let y : Atom := ⟨['y'], .refl true⟩
  let one : Number := ⟨0x3ff0000000000000⟩
  ⟨.ofList [(a, ⟨Element.sum.name, [.node a [], .number one]⟩),
    (b, ⟨Element.neg.name, [.node a []]⟩), (d, ⟨Element.neg.name, [.node y []]⟩),
    (e, ⟨Element.neg.name, [.node d []]⟩),
    (y, ⟨Element.int.name, [.node b [], .node e [], .number ⟨0x3fb999999999999a⟩, .number one]⟩)],
    ∅⟩

theorem isOrdered_of_compile_underLoop : ∃ r, underLoop.compile {} = .ok r ∧
    let a : Atom := ⟨['a'], .refl true⟩
    let b : Atom := ⟨['b'], .refl true⟩
    let d : Atom := ⟨['d'], .refl true⟩
    let e : Atom := ⟨['e'], .refl true⟩
    let sim := ofProgram additiveIntegers r.program
    r.program.RunsBefore d e ∧ r.program.RunsBefore b a ∧
      ∃ slopes sim', (evaluate additiveIntegers sim.state).run sim = (.ok slopes, sim') ∧
        let σ := r.program.layout.valuation additiveIntegers sim.constants sim.state sim'.aux
        ∃ rhs, r.linearized.get? e = some rhs ∧
          σ e = rhs.eval (additiveIntegers.meaning .standard) σ := by
  refine ⟨_, rfl, ?_⟩
  intro a b d e sim
  have hcompile : underLoop.compile {} = .ok _ := rfl
  have hbelow : ∀ w, IsBelowLoop _ w ↔ w ∈ [a] := fun w => isBelowLoop_iff_mem_auxCyclic hcompile
  obtain ⟨hordered, hholds⟩ := isOrdered_of_compile hcompile
  refine ⟨hordered.before e d (by decide +kernel) ((hbelow d).not.mpr (by decide)),
    hordered.after b a (by decide +kernel) ((hbelow a).mpr (by decide))
      ((hbelow b).not.mpr (by decide)), _, _, rfl, ?_⟩
  refine hholds additiveIntegers sim _ _ _ rfl rfl rfl e (by decide +kernel) fun w hw hloop => ?_
  obtain rfl := List.mem_singleton.mp ((hbelow w).mp hloop)
  revert hw
  decide +kernel

/-- The auxiliary `b` is on no loop, and yet reads what `a` was before the evaluation. -/
theorem underLoop_reads_old_value : ∃ r, underLoop.compile {} = .ok r ∧
    let a : Atom := ⟨['a'], .refl true⟩
    let b : Atom := ⟨['b'], .refl true⟩
    let sim := ofProgram additiveIntegers r.program
    r.program.AuxReads b a ∧ ¬ Relation.TransGen r.program.AuxReads b b ∧
      ¬ r.program.RunsBefore a b ∧
      ∃ slopes sim', (evaluate additiveIntegers sim.state).run sim = (.ok slopes, sim') ∧
        let σ := r.program.layout.valuation additiveIntegers sim.constants sim.state sim'.aux
        ∃ rhs, r.linearized.get? b = some rhs ∧
          σ b ≠ rhs.eval (additiveIntegers.meaning .standard) σ := by
  refine ⟨_, rfl, ?_, ?_, ?_, _, _, rfl, _, rfl, ?_⟩
  · decide +kernel
  · intro hloop
    have hcompile : underLoop.compile {} = .ok _ := rfl
    have hcyclic := (isBelowLoop_iff_mem_auxCyclic hcompile).mp ⟨_, hloop, .refl⟩
    revert hcyclic
    decide +kernel
  · decide +kernel
  · decide +kernel

end Circuit

end DiffAnalyzer
