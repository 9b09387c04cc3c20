import DiffAnalyzer.Circuit
import DiffAnalyzer.Proofs.Compilation
import DiffAnalyzer.Proofs.Consistency
import DiffAnalyzer.Proofs.FieldNames
import DiffAnalyzer.Proofs.Reachability
import DiffAnalyzer.Proofs.Writing
import Mathlib

/-!
# Emission of C programs

Slots, operands and parameters of a consistent program have names once its layout has
(`Program.IsConsistent.exists_toC`), so that turning them into C cannot fail after output
has begun, and nothing of the program is left out (`Program.IsConsistent.covers`).  Of the
elements that C lacks, an assembled program applies at most `funcgen`
(`Program.IsAssembled.obstacle?_eq_some_iff`).  Hence its C program is written as a whole or
not at all (`Target.run_write_c`).
-/

namespace DiffAnalyzer

/-- The statement applies the element. -/
def Statement.Applies (element : Element) (st : Statement) : Prop :=
  ∃ args, st.expr = .apply element args

/-- What a parameter reads. -/
def Parameter.operand : Parameter → Operand
  | .number x => .number x
  | .constant index => .slot ⟨.constant, index⟩

namespace CSource

theorem isRealisable_eq_false_iff {e : Element} :
    isRealisable e = false ↔ e = .funcgen ∨ ∃ head, e = .unknown head := by
  cases e <;> simp [isRealisable]

theorem obstacle?_eq_some_iff {st : Statement} {e : Element} :
    obstacle? st = some e ↔ st.Applies e ∧ isRealisable e = false := by
  unfold obstacle? Statement.Applies
  split
  · rename_i x hx
    rw [hx]
    exact ⟨nofun, fun h => nomatch h.1⟩
  · rename_i element args hargs
    rw [hargs]
    constructor
    · intro h
      split at h
      · cases h
      · rename_i hrealisable
        cases h
        exact ⟨⟨args, rfl⟩, Bool.not_eq_true _ ▸ hrealisable⟩
    · rintro ⟨⟨args', h⟩, hrealisable⟩
      cases h
      rw [hrealisable]
      rfl

namespace Fields

variable {f : Fields}

/-- The field of a slot. -/
def Holds (f : Fields) (slot : Slot) (name : Atom) : Prop :=
  ∃ field, (f.group slot.group)[slot.index]? = some field ∧ name = field.name

/-- The value in C is what the operand is: the same literal, or the member for its slot. -/
inductive Reads (f : Fields) : Operand → Value → Prop where
  | number (x : Number) : Reads f (.number x) (.number x)
  | slot {slot : Slot} {name : Atom} (h : f.Holds slot name) :
    Reads f (.slot slot) (.member slot.group name)

/-- The expression in C is the one for the element and its operands, in their order. -/
inductive Realises (f : Fields) : DiffAnalyzer.Expr → Expr → Prop where
  | copy {o : Operand} {x : Value} (h : f.Reads o x) : Realises f (.copy o) (.value x)
  | sum {element : Element} {os : List Operand} {xs : List Value}
    (helement : element = .sum ∨ element.isEvolving = true) (h : List.Forall₂ f.Reads os xs) :
    Realises f (.apply element os) (.negatedSum xs)
  | mult {os : List Operand} {xs : List Value} (h : List.Forall₂ f.Reads os xs) :
    Realises f (.apply .mult os) (.product xs)
  | const {os : List Operand} {xs : List Value} (h : List.Forall₂ f.Reads os xs) :
    Realises f (.apply .const os) (.sequence xs)
  | call {element : Element} {os : List Operand} {xs : List Value}
    (helement : element ≠ .sum ∧ element ≠ .mult ∧ element ≠ .const)
    (hevolving : element.isEvolving = false) (h : List.Forall₂ f.Reads os xs) :
    Realises f (.apply element os) (.call element xs)

/-- The assignment in C does what the statement does. -/
structure Assigns (f : Fields) (st : Statement) (a : Assignment) : Prop where
  group : a.group = st.target.group
  name : f.Holds st.target a.name
  expr : f.Realises st.expr a.expr
  comment : a.comment = st.description

theorem holds_of_name {slot : Slot} {name : Atom} (h : f.name slot = .ok name) :
    f.Holds slot name := by
  unfold Fields.name at h
  split at h
  · rename_i field hfield
    cases h
    exact ⟨field, hfield, rfl⟩
  · cases h

theorem reads_of_operand {o : Operand} {x : Value} (h : f.operand o = .ok x) : f.Reads o x := by
  cases o with
  | number value =>
    cases h
    exact .number value
  | slot slot =>
    obtain ⟨name, hname, rfl⟩ := map_eq_ok_iff.mp h
    exact .slot (holds_of_name hname)

theorem realises_application (element : Element) {os : List Operand} {xs : List Value}
    (h : List.Forall₂ f.Reads os xs) :
    f.Realises (.apply element os) (application element xs) := by
  cases element with
  | int | diff => exact .sum (.inr rfl) h
  | sum => exact .sum (.inl rfl) h
  | mult => exact .mult h
  | const => exact .const h
  | _ => exact .call (by simp) rfl h

theorem realises_of_expr {e : DiffAnalyzer.Expr} {e' : Expr} (h : f.expr e = .ok e') :
    f.Realises e e' := by
  cases e with
  | copy o =>
    obtain ⟨x, hx, rfl⟩ := expr_copy_eq_ok_iff.mp h
    exact .copy (reads_of_operand hx)
  | apply element os =>
    obtain ⟨-, xs, hxs, rfl⟩ := expr_apply_eq_ok_iff.mp h
    exact realises_application element (hxs.imp fun _ _ => reads_of_operand)

theorem assigns_of_assignment {st : Statement} {a : Assignment} (h : f.assignment st = .ok a) :
    f.Assigns st a := by
  obtain ⟨hgroup, hcomment, hname, hexpr⟩ := assignment_eq_ok_iff.mp h
  exact ⟨hgroup, holds_of_name hname, realises_of_expr hexpr, hcomment⟩

theorem reads_of_parameter {y : Parameter} {x : Value} (h : f.parameter y = .ok x) :
    f.Reads y.operand x := by
  cases y with
  | number value =>
    cases h
    exact .number value
  | constant index => exact reads_of_operand (o := .slot ⟨.constant, index⟩) h

/-- The parameters of a field are those with its number. -/
theorem parametersOf_eq_ok_iff {p : Program} {entry : Field × Nat} {initial step : Parameter} :
    parametersOf p entry = .ok (initial, step) ↔
      p.initial[entry.2]? = some initial ∧ p.steps[entry.2]? = some step := by
  unfold parametersOf
  cases p.initial[entry.2]? with
  | none => simp
  | some x =>
    cases p.steps[entry.2]? with
    | none => simp
    | some y => simp

section Layouts

variable {l : Layout} (hf : ofLayout l = .ok f)
include hf

theorem exists_name (slot : Slot) (hslot : slot.index < (l.record slot.group).size) :
    ∃ name, f.name slot = .ok name := by
  rw [← length_group hf] at hslot
  unfold name
  rw [List.getElem?_eq_getElem hslot]
  exact ⟨_, rfl⟩

theorem exists_operand {o : Operand} (ho : o.IsReadable l) : ∃ x, f.operand o = .ok x := by
  cases o with
  | number x => exact ⟨_, rfl⟩
  | slot slot =>
    obtain ⟨name, hname⟩ := exists_name hf slot ho.2
    exact ⟨_, map_eq_ok_iff.mpr ⟨name, hname, rfl⟩⟩

theorem exists_parameter {x : Parameter} (hx : x.IsDefined l) : ∃ y, f.parameter x = .ok y := by
  cases x with
  | number x => exact ⟨_, rfl⟩
  | constant index =>
    obtain ⟨name, hname⟩ := exists_name hf ⟨.constant, index⟩ hx
    exact ⟨_, map_eq_ok_iff.mpr ⟨name, hname, rfl⟩⟩

theorem exists_expr {st : Statement} (hoperands : ∀ o ∈ st.expr.operands, o.IsReadable l)
    (hobstacle : obstacle? st = none) : ∃ e, f.expr st.expr = .ok e := by
  unfold obstacle? at hobstacle
  split at hobstacle
  · rename_i x hx
    rw [hx] at hoperands ⊢
    obtain ⟨y, hy⟩ := exists_operand hf (hoperands x (List.mem_singleton_self x))
    exact ⟨_, expr_copy_eq_ok_iff.mpr ⟨y, hy, rfl⟩⟩
  · rename_i element args hargs
    rw [hargs] at hoperands ⊢
    obtain ⟨ys, hys⟩ := exists_mapM_eq_ok_iff.mpr fun o ho => exists_operand hf (hoperands o ho)
    split at hobstacle
    · rename_i hrealisable
      exact ⟨_, expr_apply_eq_ok_iff.mpr ⟨hrealisable, ys, mapM_eq_ok_iff.mp hys, rfl⟩⟩
    · cases hobstacle

theorem exists_assignment {st : Statement}
    (htarget : st.target.index < (l.record st.target.group).size)
    (hoperands : ∀ o ∈ st.expr.operands, o.IsReadable l) (hobstacle : obstacle? st = none) :
    ∃ a, f.assignment st = .ok a := by
  obtain ⟨name, hname⟩ := exists_name hf st.target htarget
  obtain ⟨e, he⟩ := exists_expr hf hoperands hobstacle
  exact ⟨⟨_, name, e, _⟩, assignment_eq_ok_iff.mpr ⟨rfl, rfl, hname, he⟩⟩

end Layouts

end Fields

end CSource

/-- Expressions apply known elements. -/
theorem Assembly.isUnknown_of_expression {a : Assembly} {name : Atom} {rhs : Term} {e : Element}
    {args : List Operand} (h : a.expression name rhs = .ok (.apply e args)) :
    e.isUnknown = false := by
  rcases expression_eq_ok_iff.mp h with ⟨-, slot, -, h⟩ | ⟨-, haccepts, operands, -, h⟩
  · cases h
  · cases h
    exact haccepts.1

open CSource

/-- A list that is read by the numbers of another one's members is gone through with it. -/
theorem forall₂_of_zipIdx {α β γ : Type} {R : α × Nat → β → Prop} {S : γ → β → Prop}
    {l : List α} {m : List γ} {r : List β} (h : List.Forall₂ R l.zipIdx r)
    (hlength : m.length = l.length) (hR : ∀ e b, R e b → ∃ a, m[e.2]? = some a ∧ S a b) :
    List.Forall₂ S m r := by
  have hzip : l.zipIdx.length = r.length := h.length_eq
  rw [List.length_zipIdx] at hzip
  refine List.forall₂_iff_get.mpr ⟨hlength.trans hzip, fun i hi hi' => ?_⟩
  have hi'' : i < l.zipIdx.length := by rwa [List.length_zipIdx, ← hlength]
  obtain ⟨a, ha, hS⟩ := hR _ _ ((List.forall₂_iff_get.mp h).2 i hi'' hi')
  rw [List.get_eq_getElem, List.getElem_zipIdx, Nat.zero_add, List.getElem?_eq_getElem hi] at ha
  cases ha
  exact hS

/-- The C program has all that the program has: a member for each variable, a value for each
constant, both parameters of each evolved variable, and an assignment for each statement, to
the member for its target and with the expression for what it computes. -/
structure CProgram.Covers (q : CProgram) (p : Program) : Prop where
  fields : ∀ g, (q.fields.group g).map Field.variableName = (p.layout.record g).fields
  constants : q.constantInits.map Prod.fst = q.fields.constants.map Field.name
  constantValues : q.constantInits.map Prod.snd = p.constantValues
  parameters : q.parameterInits.map ParameterInit.name = q.fields.state.map Field.name
  initial : List.Forall₂ (fun x e => q.fields.Reads x.operand e.initial)
    p.initial q.parameterInits
  steps : List.Forall₂ (fun x e => q.fields.Reads x.operand e.step) p.steps q.parameterInits
  blocks : List.Forall₂ (fun b c => c.part = b.part ∧
    List.Forall₂ q.fields.Assigns b.statements c.assignments) p.blocks q.blocks
  vars : q.vars = p.vars

namespace Program

variable {p : Program} {f : Fields}

theorem checkElements_eq_ok_iff :
    p.checkElements = .ok () ↔ ∀ st ∈ p.statements, obstacle? st = none := by
  unfold checkElements
  split
  · rename_i element hsome
    obtain ⟨st, hst, hobstacle⟩ := List.exists_of_findSome?_eq_some hsome
    exact ⟨nofun, fun h => nomatch hobstacle.symm.trans (h st hst)⟩
  · rename_i hnone
    exact iff_of_true rfl (List.findSome?_eq_none_iff.mp hnone)

namespace IsConsistent

variable (h : p.IsConsistent) (hf : Fields.ofLayout p.layout = .ok f)
include h hf

theorem exists_parameterInit {entry : Field × Nat} (hentry : entry ∈ f.state.zipIdx) :
    ∃ e, f.parameterInit p entry = .ok e := by
  have hindex : entry.2 < p.layout.state.size := by
    have hlength : f.state.length = p.layout.state.size := Fields.length_group hf .state
    rw [← hlength]
    exact List.snd_lt_of_mem_zipIdx hentry
  have hinitial : entry.2 < p.initial.length := h.length_initial ▸ hindex
  have hstep : entry.2 < p.steps.length := h.length_steps ▸ hindex
  obtain ⟨x, hx⟩ := Fields.exists_parameter hf
    (h.parameters _ (List.mem_append_left _ (List.getElem_mem hinitial)))
  obtain ⟨y, hy⟩ := Fields.exists_parameter hf
    (h.parameters _ (List.mem_append_right _ (List.getElem_mem hstep)))
  refine ⟨⟨_, x, y⟩, Fields.parameterInit_eq_ok_iff.mpr ⟨rfl, _, _, ?_, hx, hy⟩⟩
  rw [Fields.parametersOf, List.getElem?_eq_getElem hinitial, List.getElem?_eq_getElem hstep]

theorem exists_block (hcheck : p.checkElements = .ok ()) {b : Block} (hb : b ∈ p.blocks) :
    ∃ c, f.block b = .ok c := by
  have hassignments : ∃ as, b.statements.mapM f.assignment = .ok as := by
    refine exists_mapM_eq_ok_iff.mpr fun st hst => ?_
    have hmem : st ∈ p.statements := List.mem_flatMap.mpr ⟨b, hb, hst⟩
    refine Fields.exists_assignment hf ?target (h.operands st hmem)
      (checkElements_eq_ok_iff.mp hcheck st hmem)
    have htarget := h.targets.subset (List.mem_map_of_mem hmem)
    rw [Layout.computed, List.mem_append, List.mem_map, List.mem_map] at htarget
    obtain ⟨i, hi, htarget⟩ | ⟨i, hi, htarget⟩ := htarget
    · rw [← htarget]
      exact List.mem_range.mp hi
    · rw [← htarget]
      exact List.mem_range.mp hi
  obtain ⟨as, has⟩ := hassignments
  exact ⟨_, bind_eq_ok_iff.mpr ⟨as, has, rfl⟩⟩

/-- A consistent program has a counterpart in C when its elements and its names have. -/
theorem exists_toC (hcheck : p.checkElements = .ok ()) (precision : Option Nat) :
    ∃ q, p.toC precision = .ok q := by
  obtain ⟨inits, hinits⟩ := exists_mapM_eq_ok_iff.mpr fun e he => h.exists_parameterInit hf he
  obtain ⟨blocks, hblocks⟩ := exists_mapM_eq_ok_iff.mpr fun b hb => h.exists_block hf hcheck hb
  exact ⟨⟨precision.getD defaultPrecision, f, p.vars, f.constantInits p, inits, blocks⟩,
    toC_eq_ok_iff.mpr ⟨hcheck, hf, hinits, hblocks, rfl, rfl, rfl⟩⟩

omit hf in
/-- The counterpart of a consistent program leaves nothing out. -/
theorem covers {precision : Option Nat} {q : CProgram} (hq : p.toC precision = .ok q) :
    q.Covers p := by
  obtain ⟨-, hfields, hinits, hblocks, -, hvars, hconstants⟩ := toC_eq_ok_iff.mp hq
  have hlength : (q.fields.constants.map Field.name).length = p.constantValues.length := by
    rw [List.length_map, h.length_constantValues]
    exact Fields.length_group hfields .constant
  have hstate : q.fields.state.length = p.layout.state.size := Fields.length_group hfields .state
  refine ⟨Fields.map_variableName_group hfields, ?constants, ?constantValues, ?parameters,
    ?initial, ?steps, ?blocks, hvars⟩
  case constants => rw [hconstants, Fields.constantInits, List.map_fst_zip hlength.le]
  case constantValues => rw [hconstants, Fields.constantInits, List.map_snd_zip hlength.ge]
  case parameters =>
    have hnames : List.Forall₂ (· = ·) (q.fields.state.zipIdx.map fun entry => entry.1.name)
        (q.parameterInits.map ParameterInit.name) := by
      rw [List.forall₂_map_left_iff, List.forall₂_map_right_iff]
      exact (mapM_eq_ok_iff.mp hinits).imp fun _ _ he =>
        (Fields.parameterInit_eq_ok_iff.mp he).1.symm
    rw [List.forall₂_eq_eq_eq] at hnames
    rw [← hnames, ← Function.comp_def Field.name, ← List.map_map, List.zipIdx_map_fst]
  case initial =>
    refine forall₂_of_zipIdx (mapM_eq_ok_iff.mp hinits) (h.length_initial.trans hstate.symm)
      fun entry e he => ?_
    obtain ⟨-, initial, step, hentry, hinitial, -⟩ := Fields.parameterInit_eq_ok_iff.mp he
    exact ⟨initial, (Fields.parametersOf_eq_ok_iff.mp hentry).1, Fields.reads_of_parameter hinitial⟩
  case steps =>
    refine forall₂_of_zipIdx (mapM_eq_ok_iff.mp hinits) (h.length_steps.trans hstate.symm)
      fun entry e he => ?_
    obtain ⟨-, initial, step, hentry, -, hstep⟩ := Fields.parameterInit_eq_ok_iff.mp he
    exact ⟨step, (Fields.parametersOf_eq_ok_iff.mp hentry).2, Fields.reads_of_parameter hstep⟩
  case blocks =>
    refine (mapM_eq_ok_iff.mp hblocks).imp fun b c hc => ?_
    obtain ⟨hpart, has⟩ := Fields.block_eq_ok_iff.mp hc
    exact ⟨hpart, has.imp fun st a => Fields.assigns_of_assignment⟩

end IsConsistent

namespace IsAssembled

variable {s : EquationSet} {v : Vocabulary} {evolutions : List Assembly.Evolution}
  {sorted cyclic unneeded : List Statement} {st : Statement}
  (h : p.IsAssembled v s (s.groups v) evolutions sorted cyclic unneeded)
include h

/-- Elements that are applied are known. -/
theorem not_applies_unknown (hst : st ∈ p.statements) (head : Atom) :
    ¬st.Applies (.unknown head) := by
  rintro ⟨args, hargs⟩
  obtain ⟨name, -, hst⟩ | ⟨e, ⟨name, -, he⟩, rfl⟩ := h.mem_statements_iff.mp hst
  · obtain ⟨rhs, expr, i, -, hexpr, -, rfl⟩ := Assembly.auxiliary_eq_ok_iff.mp hst
    rw [show expr = _ from hargs] at hexpr
    exact Element.isUnknown_eq_false_iff.mp (Assembly.isUnknown_of_expression hexpr) head rfl
  · obtain ⟨rhs, _, _, _, _, _, -, haccepts, -, -, -, -, -, -, hderivative⟩ :=
      Assembly.evolution_eq_ok_iff.mp he
    rw [hderivative] at hargs
    exact Element.isUnknown_eq_false_iff.mp haccepts.1 head (Expr.apply.inj hargs).1

/-- The only element that is applied although C lacks it. -/
theorem obstacle?_eq_some_iff (hst : st ∈ p.statements) {e : Element} :
    obstacle? st = some e ↔ e = .funcgen ∧ st.Applies .funcgen := by
  rw [CSource.obstacle?_eq_some_iff, isRealisable_eq_false_iff]
  constructor
  · rintro ⟨happlies, rfl | ⟨head, rfl⟩⟩
    · exact ⟨rfl, happlies⟩
    · exact absurd happlies (h.not_applies_unknown hst head)
  · rintro ⟨rfl, happlies⟩
    exact ⟨happlies, .inl rfl⟩

theorem obstacle?_eq_none_iff (hst : st ∈ p.statements) :
    obstacle? st = none ↔ ¬st.Applies .funcgen := by
  rw [Option.eq_none_iff_forall_ne_some]
  simp only [ne_eq, h.obstacle?_eq_some_iff hst, not_and]
  exact forall_eq

end IsAssembled

end Program

/-- The C program of an assembled program is written as a whole, or the attempt fails before
anything is written: at the first statement that applies `funcgen` or, if there is none, at
a name without a free variant. -/
theorem Target.run_write_c {s : EquationSet} {v : Vocabulary} {c : Classification} {p : Program}
    (hclassify : s.classify v = .ok c) (hassemble : Program.assemble v s c = .ok p)
    (o : CompileOptions) (out : String) :
    (∃ before st after, p.statements = before ++ st :: after ∧ st.Applies .funcgen ∧
      (∀ st' ∈ before, ¬st'.Applies .funcgen) ∧
      (Target.c.write o p).run out = (.error (.compile (.unsupported .funcgen .c)), out)) ∨
    (∀ st ∈ p.statements, ¬st.Applies .funcgen) ∧
      ((∃ base, Fields.ofLayout p.layout = .error (.nameExhaustion base) ∧
        (Target.c.write o p).run out = (.error (.compile (.nameExhaustion base)), out)) ∨
      ∃ q, p.toC o.precision = .ok q ∧ q.Covers p ∧
        (Target.c.write o p).run out = (.ok (), out ++ q.text)) := by
  have hconsistent := Program.isConsistent_of_assemble hclassify hassemble
  obtain rfl := s.groups_of_classify v hclassify
  obtain ⟨evolutions, sorted, cyclic, unneeded, hp⟩ := Program.assemble_eq_ok_iff.mp hassemble
  cases hobstacle : p.statements.findSome? obstacle? with
  | some element =>
    obtain ⟨before, st, after, hsplit, hst, hbefore⟩ := List.findSome?_eq_some_iff.mp hobstacle
    have hmem : ∀ st', st' ∈ before ∨ st' = st → st' ∈ p.statements := fun st' h => by
      rw [hsplit, List.mem_append, List.mem_cons]
      exact h.imp_right .inl
    obtain ⟨rfl, happlies⟩ := (hp.obstacle?_eq_some_iff (hmem st (.inr rfl))).mp hst
    have hcheck : p.checkElements = .error (.compile (.unsupported .funcgen .c)) := by
      rw [Program.checkElements, hobstacle]
    exact .inl ⟨before, st, after, hsplit, happlies,
      fun st' hst' => (hp.obstacle?_eq_none_iff (hmem st' (.inl hst'))).mp (hbefore st' hst'),
      OutputM.require_bind_run_error hcheck out⟩
  | none =>
    have hnone := List.findSome?_eq_none_iff.mp hobstacle
    have hcheck := Program.checkElements_eq_ok_iff.mpr hnone
    refine .inr ⟨fun st hst => (hp.obstacle?_eq_none_iff hst).mp (hnone st hst), ?_⟩
    cases hfields : Fields.ofLayout p.layout with
    | error e =>
      obtain ⟨base, rfl⟩ := Fields.failsOnly_ofLayout p.layout e hfields
      refine .inl ⟨base, rfl, (OutputM.require_bind_run_ok hcheck out).trans ?_⟩
      exact OutputM.require_bind_run_error (by rw [hfields]; rfl) out
    | ok f =>
      obtain ⟨q, hq⟩ := hconsistent.exists_toC hfields hcheck o.precision
      exact .inr ⟨q, hq, hconsistent.covers hq, Program.writes_of_toC hq out⟩

/-- A curve over its own integral. -/
def drivenCurve : EquationSet :=
  let a : Atom := ⟨['a'], .refl true⟩
  let y : Atom := ⟨['y'], .refl true⟩
  let one : Number := ⟨0x3ff0000000000000⟩
  .ofList [(a, ⟨Element.funcgen.name, [.node y []]⟩),
    (y, ⟨Element.int.name, [.node a [], .number one, .number one]⟩)]

theorem run_write_c_drivenCurve_scaledLoop :
    (∃ c p, drivenCurve.classify .standard = .ok c ∧
      Program.assemble .standard drivenCurve c = .ok p ∧
      (Target.c.write {} p).run "" = (.error (.compile (.unsupported .funcgen .c)), "")) ∧
    ∃ c p q, scaledLoop.classify .standard = .ok c ∧
      Program.assemble .standard scaledLoop c = .ok p ∧ p.toC none = .ok q ∧ q.Covers p ∧
      (Target.c.write {} p).run "" = (.ok (), q.text) := by
  constructor
  · obtain ⟨c, hclassify⟩ : ∃ c, drivenCurve.classify .standard = .ok c := ⟨_, rfl⟩
    obtain ⟨p, hassemble⟩ : ∃ p, Program.assemble .standard drivenCurve c = .ok p := by
      cases hclassify
      exact ⟨_, rfl⟩
    refine ⟨c, p, hclassify, hassemble, ?_⟩
    obtain ⟨_, _, _, -, -, -, hrun⟩ | ⟨hnone, -⟩ := Target.run_write_c hclassify hassemble {} ""
    · exact hrun
    · cases hclassify
      cases hassemble
      exact absurd ⟨_, rfl⟩ (hnone _ List.mem_cons_self)
  · obtain ⟨c, hclassify⟩ : ∃ c, scaledLoop.classify .standard = .ok c := ⟨_, rfl⟩
    obtain ⟨p, hassemble, hcheck, hfields⟩ : ∃ p, Program.assemble .standard scaledLoop c = .ok p ∧
        p.statements.findSome? obstacle? = none ∧ (Fields.ofLayout p.layout).isOk = true := by
      cases hclassify
      exact ⟨_, rfl, rfl, by decide⟩
    obtain ⟨_, st, _, hsplit, ⟨args, hst⟩, -⟩ | ⟨-, ⟨base, herror, -⟩ | ⟨q, hq, hcovers, hrun⟩⟩ :=
      Target.run_write_c hclassify hassemble {} ""
    · have hnone := List.findSome?_eq_none_iff.mp hcheck st (by simp [hsplit])
      rw [obstacle?, hst] at hnone
      cases hnone
    · rw [herror] at hfields
      cases hfields
    · exact ⟨c, p, q, hclassify, hassemble, hq, hcovers, hrun.trans (by rw [String.empty_append])⟩

end DiffAnalyzer
