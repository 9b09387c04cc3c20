import DiffAnalyzer.Proofs.Emission
import DiffAnalyzer.Proofs.Renaming
import Mathlib

/-!
# Scoping of C programs

What a C program refers to is there (`CProgram.IsWellScoped`).  Members come from slots, so they
are declared (`CSource.Fields.declares_of_name`).  Operands are counted when a program is
assembled (`Program.IsAssembled.isCounted`), and the functions a C program starts with have as
many parameters as the standard vocabulary asks for (`Vocabulary.exists_elementFunction`).
-/

namespace DiffAnalyzer

namespace CSource

/-- The members that a value refers to. -/
def Value.members : Value → List (Group × Atom)
  | .number _ => []
  | .member group name => [(group, name)]

/-- The operands of an expression. -/
def Expr.values : Expr → List Value
  | .value v => [v]
  | .negatedSum args | .product args | .sequence args | .call _ args => args

/-- The member that is assigned, and those that are read. -/
def Assignment.members (a : Assignment) : List (Group × Atom) :=
  (a.group, a.name) :: a.expr.values.flatMap Value.members

/-- Initial values and step sizes are laid out like the state. -/
def ParameterInit.members (e : ParameterInit) : List (Group × Atom) :=
  (.state, e.name) :: (e.initial.members ++ e.step.members)

/-- The record of the group has the member. -/
def Fields.Declares (f : Fields) (m : Group × Atom) : Prop :=
  toString m.2 ∈ memberNames (f.group m.1)

/-- Programs start with a definition of the function, with so many parameters. -/
def ElementFunction.IsDefined (name : String) (count : Nat) : Prop :=
  ∃ f ∈ ElementFunction.all,
    nameOf f.element = name ∧ (parameterNames.take f.parameters).length = count

/-- Sums and products have operands, what is taken as it is is a single operand, and calls
have an argument for each parameter. -/
def Expr.IsWellFormed : Expr → Prop
  | .value _ => True
  | .sequence args => args.length = 1
  | .negatedSum args | .product args => args ≠ []
  | .call element args => ElementFunction.IsDefined (ElementFunction.nameOf element) args.length

end CSource

open CSource

/-- Fields have different names that C allows, and whatever is referred to is declared. -/
structure CProgram.IsWellScoped (q : CProgram) : Prop where
  nodup : (q.fields.all.map Field.name).Nodup
  plain : ∀ field ∈ q.fields.all, field.name.isPlain = true
  usable : ∀ field ∈ q.fields.all, toString field.name ∉ unusableNames
  constants : ∀ e ∈ q.constantInits, q.fields.Declares (.constant, e.1)
  parameters : ∀ e ∈ q.parameterInits, ∀ m ∈ e.members, q.fields.Declares m
  assignments : ∀ b ∈ q.blocks, ∀ a ∈ b.assignments, ∀ m ∈ a.members, q.fields.Declares m
  exprs : ∀ b ∈ q.blocks, ∀ a ∈ b.assignments, a.expr.IsWellFormed

namespace CSource.Fields

variable {f : Fields} {m : Group × Atom}

theorem declares_of_mem {g : Group} {field : Field} (h : field ∈ f.group g) :
    f.Declares (g, field.name) := by
  have hne : (f.group g).isEmpty = false := List.isEmpty_eq_false_iff_exists_mem.mpr ⟨field, h⟩
  rw [Declares, memberNames, hne]
  exact List.mem_map_of_mem h

theorem declares_of_name {slot : Slot} {name : Atom} (h : f.name slot = .ok name) :
    f.Declares (slot.group, name) := by
  unfold Fields.name at h
  split at h
  · rename_i field hfield
    cases h
    exact declares_of_mem (List.mem_of_getElem? hfield)
  · cases h

theorem declares_of_slotValue {slot : Slot} {x : Value} (h : f.slotValue slot = .ok x)
    (hm : m ∈ x.members) : f.Declares m := by
  obtain ⟨name, hname, rfl⟩ := map_eq_ok_iff.mp h
  cases List.mem_singleton.mp hm
  exact declares_of_name hname

theorem declares_of_operand {o : Operand} {x : Value} (h : f.operand o = .ok x)
    (hm : m ∈ x.members) : f.Declares m := by
  cases o with
  | number value =>
    cases h
    cases hm
  | slot slot => exact declares_of_slotValue h hm

theorem declares_of_parameter {y : Parameter} {x : Value} (h : f.parameter y = .ok x)
    (hm : m ∈ x.members) : f.Declares m := by
  cases y with
  | number value =>
    cases h
    cases hm
  | constant index => exact declares_of_slotValue h hm

theorem values_application (element : Element) (args : List Value) :
    (application element args).values = args := by
  cases element <;> rfl

/-- What an expression refers to comes from its operands. -/
theorem declares_of_expr {e : DiffAnalyzer.Expr} {e' : Expr} (h : f.expr e = .ok e')
    (hm : m ∈ e'.values.flatMap Value.members) : f.Declares m := by
  obtain ⟨x, hx, hmx⟩ := List.mem_flatMap.mp hm
  cases e with
  | copy o =>
    obtain ⟨y, hy, rfl⟩ := expr_copy_eq_ok_iff.mp h
    cases List.mem_singleton.mp hx
    exact declares_of_operand hy hmx
  | apply element os =>
    obtain ⟨-, args, hargs, rfl⟩ := expr_apply_eq_ok_iff.mp h
    rw [values_application] at hx
    obtain ⟨o, -, ho⟩ := exists_of_forall₂ hargs.flip hx
    exact declares_of_operand ho hmx

theorem declares_of_assignment {st : Statement} {a : Assignment} (h : f.assignment st = .ok a)
    (hm : m ∈ a.members) : f.Declares m := by
  obtain ⟨hgroup, -, hname, hexpr⟩ := assignment_eq_ok_iff.mp h
  rcases List.mem_cons.mp hm with rfl | hm
  · rw [hgroup]
    exact declares_of_name hname
  · exact declares_of_expr hexpr hm

theorem declares_of_parameterInit {p : Program} {entry : Field × Nat} {e : ParameterInit}
    (hentry : entry ∈ f.state.zipIdx) (h : f.parameterInit p entry = .ok e)
    (hm : m ∈ e.members) : f.Declares m := by
  obtain ⟨hname, initial, step, -, hinitial, hstep⟩ := parameterInit_eq_ok_iff.mp h
  rw [ParameterInit.members, List.mem_cons, List.mem_append] at hm
  rcases hm with rfl | hm | hm
  · rw [hname]
    exact declares_of_mem (List.fst_mem_of_mem_zipIdx hentry)
  · exact declares_of_parameter hinitial hm
  · exact declares_of_parameter hstep hm

theorem declares_of_constantInits {p : Program} {e : Atom × Number}
    (h : e ∈ f.constantInits p) : f.Declares (.constant, e.1) := by
  obtain ⟨field, hfield, hname⟩ := List.mem_map.mp (List.of_mem_zip h).1
  rw [← hname]
  exact declares_of_mem hfield

end CSource.Fields

/-- C has an operator for the element, or takes its operands as they are. -/
def Element.isOperator : Element → Bool
  | .int | .diff | .sum | .mult | .const => true
  | _ => false

theorem Element.isOperator_of_isEvolving {e : Element} (h : e.isEvolving = true) :
    e.isOperator = true := by
  cases e with
  | int | diff => rfl
  | _ => cases h

/-- The vocabulary allows so many operands; evolving elements have been checked with their
parameters and have at least one operand without. -/
def Expr.IsCounted (v : Vocabulary) : Expr → Prop
  | .copy _ => True
  | .apply element args => element.isEvolving = true ∧ args ≠ [] ∨
      ∃ arity, (element, arity) ∈ v.entries ∧ arity.accepts args.length = true

namespace Vocabulary

/-- What is accepted is an entry. -/
theorem Accepts.exists_entry {v : Vocabulary} {head : Atom} {count : Nat}
    (h : v.Accepts head count) :
    ∃ arity, (v.resolve head, arity) ∈ v.entries ∧ arity.accepts count = true := by
  obtain ⟨hknown, haccepts⟩ := h
  rw [arity?, v.name_resolve] at haccepts
  unfold resolve at hknown ⊢
  split at hknown
  · rename_i element arity hentry
    rw [hentry] at haccepts
    exact ⟨arity, List.mem_of_find?_eq_some hentry, haccepts arity rfl⟩
  · cases hknown

variable {element : Element} {arity : Arity} (h : (element, arity) ∈ standard.entries)
include h

/-- Operators are never without operands. -/
theorem accepts_zero_of_isOperator (hoperator : element.isOperator = true) :
    arity.accepts 0 = false := by
  have htable : ∀ e ∈ standard.entries, e.1.isOperator = true → e.2.accepts 0 = false := by
    decide
  exact htable _ h hoperator

/-- A constant has its value as the only operand. -/
theorem eq_exactly_one_of_const (hconst : element = .const) : arity = .exactly 1 := by
  have htable : ∀ e ∈ standard.entries, e.1 = .const → e.2 = .exactly 1 := by decide
  exact htable _ h hconst

/-- Other elements that C has are functions with as many parameters. -/
theorem exists_elementFunction (hoperator : element.isOperator = false)
    (hrealisable : isRealisable element = true) : ∃ f ∈ ElementFunction.all,
      f.element = element ∧
        arity = .exactly (ElementFunction.parameterNames.take f.parameters).length := by
  have htable : ∀ e ∈ standard.entries, e.1.isOperator = false → isRealisable e.1 = true →
      ∃ f ∈ ElementFunction.all, f.element = e.1 ∧
        e.2 = .exactly (ElementFunction.parameterNames.take f.parameters).length := by
    decide
  exact htable _ h hoperator hrealisable

end Vocabulary

namespace CSource.Fields

variable {element : Element} {args : List Value}

theorem isWellFormed_of_isOperator (h : element.isOperator = true) (hconst : element ≠ .const)
    (hargs : args ≠ []) : (application element args).IsWellFormed := by
  cases element with
  | int | diff | sum | mult => exact hargs
  | const => exact absurd rfl hconst
  | _ => cases h

theorem application_of_not_isOperator (h : element.isOperator = false) :
    application element args = .call element args := by
  cases element with
  | int | diff | sum | mult | const => cases h
  | _ => rfl

/-- Applications are well formed when the standard vocabulary allows them. -/
theorem isWellFormed_of_entry {arity : Arity}
    (h : (element, arity) ∈ Vocabulary.standard.entries)
    (haccepts : arity.accepts args.length = true) (hrealisable : isRealisable element = true) :
    (application element args).IsWellFormed := by
  cases hoperator : element.isOperator with
  | true =>
    by_cases hconst : element = .const
    · rw [Vocabulary.eq_exactly_one_of_const h hconst] at haccepts
      rw [hconst]
      exact beq_iff_eq.mp haccepts
    · refine isWellFormed_of_isOperator hoperator hconst ?_
      rintro rfl
      cases haccepts.symm.trans (Vocabulary.accepts_zero_of_isOperator h hoperator)
  | false =>
    obtain ⟨f, hf, rfl, rfl⟩ := Vocabulary.exists_elementFunction h hoperator hrealisable
    rw [application_of_not_isOperator hoperator]
    exact ⟨f, hf, rfl, (beq_iff_eq.mp haccepts).symm⟩

theorem isWellFormed_of_isCounted {f : Fields} {e : DiffAnalyzer.Expr} {e' : Expr}
    (hcounted : e.IsCounted .standard) (h : f.expr e = .ok e') : e'.IsWellFormed := by
  cases e with
  | copy o =>
    obtain ⟨x, -, rfl⟩ := expr_copy_eq_ok_iff.mp h
    trivial
  | apply element os =>
    obtain ⟨hrealisable, args, hargs, rfl⟩ := expr_apply_eq_ok_iff.mp h
    obtain ⟨hevolving, hne⟩ | ⟨arity, hentry, haccepts⟩ := hcounted
    · refine isWellFormed_of_isOperator (Element.isOperator_of_isEvolving hevolving) ?_ ?_
      · rintro rfl
        cases hevolving
      rintro rfl
      exact hne (List.forall₂_nil_right_iff.mp hargs)
    · rw [hargs.length_eq] at haccepts
      exact isWellFormed_of_entry hentry haccepts hrealisable

end CSource.Fields

namespace Assembly

variable {a : Assembly} {name : Atom}

theorem isCounted_of_expression {rhs : Term} {e : Expr} (h : a.expression name rhs = .ok e) :
    e.IsCounted a.vocabulary := by
  rcases expression_eq_ok_iff.mp h with ⟨-, slot, -, rfl⟩ | ⟨-, haccepts, args, hargs, rfl⟩
  · trivial
  · rw [hargs.length_eq] at haccepts
    exact .inr haccepts.exists_entry

end Assembly

namespace EquationSet

variable (s : EquationSet) (v : Vocabulary)

/-- No variable is in two records. -/
theorem nodup_names_layout : (s.groups v).layout.names.Nodup := by
  have haux : ∀ name ∈ (s.groups v).layout.aux.fields, ¬ s.Binds v Element.isEvolving name ∧
      ¬ s.Binds v Element.isConstant name := fun name hname =>
    ((s.mem_auxNames v).mp ((s.mem_aux v).mp hname)).2
  rw [Layout.names, List.append_assoc, List.nodup_append', List.nodup_append',
    List.disjoint_append_right]
  refine ⟨Record.nodup _, ⟨Record.nodup _, Record.nodup _, ?auxConstants⟩, ?stateAux,
    ?stateConstants⟩
  case auxConstants =>
    exact fun name hname hconstant => (haux name hname).2 ((s.mem_constantFields v).mp hconstant)
  case stateAux =>
    exact fun name hevolved hname => (haux name hname).1 ((s.mem_state v).mp hevolved)
  case stateConstants =>
    exact fun name hevolved hconstant =>
      s.not_binds_both v ((s.mem_constantFields v).mp hconstant) ((s.mem_state v).mp hevolved)

end EquationSet

namespace Program

variable {p : Program}

/-- Operands are counted in all statements. -/
theorem IsAssembled.isCounted {s : EquationSet} {v : Vocabulary}
    {evolutions : List Assembly.Evolution} {sorted cyclic unneeded : List Statement}
    (h : p.IsAssembled v s (s.groups v) evolutions sorted cyclic unneeded) {st : Statement}
    (hst : st ∈ p.statements) : st.expr.IsCounted v := by
  obtain ⟨name, -, hst⟩ | ⟨e, ⟨name, hbinds, he⟩, rfl⟩ := h.mem_statements_iff.mp hst
  · obtain ⟨rhs, expr, i, -, hexpr, -, rfl⟩ := Assembly.auxiliary_eq_ok_iff.mp hst
    exact Assembly.isCounted_of_expression hexpr
  · obtain ⟨rhs, _, _, inputs, _, args, hrhs, -, -, hne, -, -, -, hargs, hderivative⟩ :=
      Assembly.evolution_eq_ok_iff.mp he
    obtain ⟨rhs', hrhs', -, hevolving⟩ := hbinds
    cases hrhs.symm.trans hrhs'
    rw [hderivative]
    refine .inl ⟨hevolving, ?_⟩
    rintro rfl
    exact hne (List.reverse_eq_nil_iff.mp (List.forall₂_nil_right_iff.mp hargs))

/-- Writing succeeds only for a program with a counterpart in C. -/
theorem IsConsistent.exists_toC_of_run (h : p.IsConsistent) {precision : Option Nat}
    {out out' : String} (hrun : (p.writeC precision).run out = (.ok (), out')) :
    ∃ q, p.toC precision = .ok q ∧ out' = out ++ q.text := by
  cases hcheck : p.checkElements with
  | error e =>
    cases hrun.symm.trans (OutputM.require_bind_run_error hcheck out)
  | ok =>
    cases hfields : Fields.ofLayout p.layout with
    | error e =>
      have hmissing : (Fields.ofLayout p.layout).mapError Fault.compile = .error (.compile e) := by
        rw [hfields]
        rfl
      cases hrun.symm.trans ((OutputM.require_bind_run_ok hcheck out).trans
        (OutputM.require_bind_run_error hmissing out))
    | ok f =>
      obtain ⟨q, hq⟩ := h.exists_toC hfields hcheck precision
      refine ⟨q, hq, ?_⟩
      exact congrArg Prod.snd (hrun.symm.trans (writes_of_toC hq out))

/-- Assignments come from statements. -/
theorem exists_statement_of_toC {precision : Option Nat} {q : CProgram}
    (hq : p.toC precision = .ok q) {c : CSource.Block} (hc : c ∈ q.blocks) {a : Assignment}
    (ha : a ∈ c.assignments) : ∃ st ∈ p.statements, q.fields.assignment st = .ok a := by
  obtain ⟨-, -, -, hblocks, -⟩ := toC_eq_ok_iff.mp hq
  obtain ⟨b, hb, hblock⟩ := exists_of_forall₂ (mapM_eq_ok_iff.mp hblocks).flip hc
  obtain ⟨st, hst, hassignment⟩ :=
    exists_of_forall₂ (Fields.block_eq_ok_iff.mp hblock).2.flip ha
  exact ⟨st, List.mem_flatMap.mpr ⟨b, hb, hst⟩, hassignment⟩

/-- Counterparts in C of assembled programs are well scoped. -/
theorem IsAssembled.isWellScoped {s : EquationSet} {evolutions : List Assembly.Evolution}
    {sorted cyclic unneeded : List Statement} {precision : Option Nat} {q : CProgram}
    (h : p.IsAssembled .standard s (s.groups .standard) evolutions sorted cyclic unneeded)
    (hq : p.toC precision = .ok q) : q.IsWellScoped := by
  obtain ⟨-, hfields, hinits, -, -, -, hconstants⟩ := toC_eq_ok_iff.mp hq
  constructor
  case nodup =>
    refine Fields.nodup_names hfields ?_
    rw [h.layout]
    exact s.nodup_names_layout .standard
  case plain => exact fun field hfield => (Fields.isPlain_of_mem_all hfields hfield).1
  case usable => exact fun field hfield => (Fields.isPlain_of_mem_all hfields hfield).2
  case constants =>
    rw [hconstants]
    exact fun e => Fields.declares_of_constantInits
  case parameters =>
    intro e he m hm
    obtain ⟨entry, hentry, hinit⟩ := exists_of_forall₂ (mapM_eq_ok_iff.mp hinits).flip he
    exact Fields.declares_of_parameterInit hentry hinit hm
  case assignments =>
    intro c hc a ha m hm
    obtain ⟨st, -, hassignment⟩ := exists_statement_of_toC hq hc ha
    exact Fields.declares_of_assignment hassignment hm
  case exprs =>
    intro c hc a ha
    obtain ⟨st, hst, hassignment⟩ := exists_statement_of_toC hq hc ha
    obtain ⟨-, -, -, hexpr⟩ := Fields.assignment_eq_ok_iff.mp hassignment
    exact Fields.isWellFormed_of_isCounted (h.isCounted hst) hexpr

end Program

end DiffAnalyzer
