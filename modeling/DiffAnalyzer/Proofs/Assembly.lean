import DiffAnalyzer.Program.Assembly
import DiffAnalyzer.Proofs.Classification
import DiffAnalyzer.Proofs.Failure
import Mathlib

/-!
# What assembling yields

Each check of an assembly has one lemma that says when it succeeds and with what
result.  `Program.assemble_eq_ok_iff` puts them together.  What fails is always a
definition (`Program.failsOnly_assemble`).
-/

namespace DiffAnalyzer

namespace Record

theorem indexOf?_eq_some_iff {r : Record} {name : Atom} {i : Nat} :
    r.indexOf? name = some i ↔ r.fields[i]? = some name := by
  rw [indexOf?, List.idxOf?_eq_some_iff, List.getElem?_eq_some_iff]
  refine exists_congr fun hi => and_iff_left_of_imp fun hname j hj heq => ?_
  have := (List.Nodup.getElem_inj_iff r.nodup).mp (heq.trans hname.symm)
  omega

theorem indexOf?_eq_none_iff {r : Record} {name : Atom} :
    r.indexOf? name = none ↔ name ∉ r.fields := List.idxOf?_eq_none_iff

theorem fields_ofList_of_nodup {names : List Atom} (h : names.Nodup) :
    (ofList names).fields = names := by
  change names.eraseDups = names
  induction names with
  | nil => rfl
  | cons a rest ih =>
    obtain ⟨ha, hrest⟩ := List.nodup_cons.mp h
    have hfilter : (rest.filter fun b => !b == a) = rest :=
      List.filter_eq_self.mpr fun b hb => by
        rw [Bool.not_eq_true', beq_eq_false_iff_ne]
        exact fun heq => ha (heq ▸ hb)
    rw [List.eraseDups_cons, hfilter, ih hrest]

theorem exists_indexOf?_iff {r : Record} {name : Atom} :
    (∃ i, r.indexOf? name = some i) ↔ name ∈ r.fields := by
  simp only [indexOf?_eq_some_iff]
  exact List.mem_iff_getElem?.symm

end Record

theorem Element.isUnknown_eq_false_iff {e : Element} :
    e.isUnknown = false ↔ ∀ head, e ≠ .unknown head := by
  cases e <;> simp [Element.isUnknown]

/-- The head is known and may have so many arguments. -/
def Vocabulary.Accepts (v : Vocabulary) (head : Atom) (count : Nat) : Prop :=
  (v.resolve head).isUnknown = false ∧
    ∀ arity, v.arity? (v.resolve head) = some arity → arity.accepts count = true

namespace Assembly

variable {a : Assembly} {name : Atom}

theorem rhs_eq_ok_iff {rhs : Term} : a.rhs name = .ok rhs ↔ a.equations.get? name = some rhs := by
  unfold Assembly.rhs
  split
  · rename_i t ht
    rw [ht, Except.ok.injEq, Option.some.injEq]
  · rename_i ht
    rw [ht]
    exact ⟨nofun, nofun⟩

theorem element_eq_ok_iff {t : Term} {e : Element} :
    a.element name t = .ok e ↔
      a.vocabulary.Accepts t.head t.tail.length ∧ e = a.vocabulary.resolve t.head := by
  unfold Assembly.element Vocabulary.Accepts
  rw [Element.isUnknown_eq_false_iff]
  split
  · rename_i head hhead
    rw [hhead]
    exact ⟨nofun, fun h => absurd rfl (h.1.1 head)⟩
  · rename_i hknown
    split
    · rename_i arity harity
      rw [harity]
      split
      · rename_i haccepts
        rw [Except.ok.injEq, eq_comm]
        refine (and_iff_right ⟨fun head hhead => hknown head hhead, fun other hother => ?_⟩).symm
        rw [← Option.some.inj hother, haccepts]
      · rename_i haccepts
        exact ⟨nofun, fun h => absurd (h.1.2 arity rfl) haccepts⟩
    · rename_i harity
      rw [harity, Except.ok.injEq, eq_comm]
      exact (and_iff_right ⟨fun head hhead => hknown head hhead, nofun⟩).symm

theorem fieldIndex_eq_ok_iff {r : Record} {i : Nat} :
    fieldIndex r name = .ok i ↔ r.indexOf? name = some i := by
  unfold fieldIndex
  split
  · rename_i j hj
    rw [hj, Except.ok.injEq, Option.some.injEq]
  · rename_i hj
    rw [hj]
    exact ⟨nofun, nofun⟩

theorem variableOperand_eq_ok_iff {o : Operand} :
    a.variableOperand name = .ok o ↔ ∃ slot, a.layout.slot? name = some slot ∧ o = .slot slot := by
  unfold variableOperand
  split
  · rename_i slot hslot
    rw [hslot, Except.ok.injEq]
    constructor
    · rintro rfl
      exact ⟨slot, rfl, rfl⟩
    · rintro ⟨_, h, rfl⟩
      rw [Option.some.inj h]
  · rename_i hslot
    rw [hslot]
    exact ⟨nofun, nofun⟩

theorem constantValue_eq_ok_iff {x : Number} :
    a.constantValue name = .ok x ↔ ∃ rhs, a.equations.get? name = some rhs ∧
      a.vocabulary.Accepts rhs.head rhs.tail.length ∧ rhs.tail = [.number x] := by
  unfold constantValue
  constructor
  · intro h
    obtain ⟨rhs, hrhs, h⟩ := bind_eq_ok_iff.mp h
    obtain ⟨e, he, h⟩ := bind_eq_ok_iff.mp h
    split at h
    · rename_i y htail
      cases h
      exact ⟨rhs, rhs_eq_ok_iff.mp hrhs, (element_eq_ok_iff.mp he).1, htail⟩
    · cases h
  · rintro ⟨rhs, hrhs, haccepts, htail⟩
    refine bind_eq_ok_iff.mpr ⟨rhs, rhs_eq_ok_iff.mpr hrhs, bind_eq_ok_iff.mpr
      ⟨_, element_eq_ok_iff.mpr ⟨haccepts, rfl⟩, ?_⟩⟩
    rw [htail]
    rfl

theorem operand_number {x : Number} : a.operand name (.number x) = .ok (.number x) := rfl

/-- The expression of an auxiliary. -/
def expression (a : Assembly) (name : Atom) (rhs : Term) : Except CompileError Expr :=
  if rhs.isVariable then Expr.copy <$> a.variableOperand rhs.head
  else do
    let element ← a.element name rhs
    let args ← rhs.tail.mapM (a.operand name)
    pure (.apply element args)

/-- An expression copies the variable, or applies the element to its operands. -/
theorem expression_eq_ok_iff {rhs : Term} {e : Expr} :
    a.expression name rhs = .ok e ↔
      (rhs.isVariable = true ∧ ∃ slot, a.layout.slot? rhs.head = some slot ∧
        e = .copy (.slot slot)) ∨
      (rhs.isVariable = false ∧ a.vocabulary.Accepts rhs.head rhs.tail.length ∧
        ∃ args, List.Forall₂ (fun x o => a.operand name x = .ok o) rhs.tail args ∧
          e = .apply (a.vocabulary.resolve rhs.head) args) := by
  unfold expression
  cases hvar : rhs.isVariable with
  | true =>
    rw [if_pos rfl, map_eq_ok_iff]
    constructor
    · rintro ⟨o, ho, rfl⟩
      obtain ⟨slot, hslot, rfl⟩ := variableOperand_eq_ok_iff.mp ho
      exact .inl ⟨rfl, slot, hslot, rfl⟩
    · rintro (⟨-, slot, hslot, rfl⟩ | ⟨h, -⟩)
      · exact ⟨_, variableOperand_eq_ok_iff.mpr ⟨slot, hslot, rfl⟩, rfl⟩
      · cases h
  | false =>
    rw [if_neg Bool.false_ne_true]
    constructor
    · intro h
      obtain ⟨element, helement, h⟩ := bind_eq_ok_iff.mp h
      obtain ⟨haccepts, rfl⟩ := element_eq_ok_iff.mp helement
      obtain ⟨args, hargs, h⟩ := bind_eq_ok_iff.mp h
      exact .inr ⟨rfl, haccepts, args, mapM_eq_ok_iff.mp hargs, (Except.ok.inj h).symm⟩
    · rintro (⟨h, -⟩ | ⟨-, haccepts, args, hargs, rfl⟩)
      · cases h
      · exact bind_eq_ok_iff.mpr ⟨_, element_eq_ok_iff.mpr ⟨haccepts, rfl⟩,
          bind_eq_ok_iff.mpr ⟨args, mapM_eq_ok_iff.mpr hargs, rfl⟩⟩

/-- The statement of an auxiliary, by its expression. -/
theorem auxiliary_eq (a : Assembly) (name : Atom) :
    a.auxiliary name = (a.rhs name >>= fun rhs => a.expression name rhs >>= fun expr =>
      fieldIndex a.layout.aux name >>= fun index =>
        pure ⟨⟨.aux, index⟩, expr, describe name rhs⟩) := by
  unfold auxiliary expression
  refine bind_congr fun rhs => ?_
  split
  · rfl
  · simp only [bind_assoc, pure_bind]

theorem auxiliary_eq_ok_iff {st : Statement} :
    a.auxiliary name = .ok st ↔ ∃ rhs expr index, a.equations.get? name = some rhs ∧
      a.expression name rhs = .ok expr ∧ a.layout.aux.indexOf? name = some index ∧
      st = ⟨⟨.aux, index⟩, expr, describe name rhs⟩ := by
  rw [auxiliary_eq]
  constructor
  · intro h
    obtain ⟨rhs, hrhs, h⟩ := bind_eq_ok_iff.mp h
    obtain ⟨expr, hexpr, h⟩ := bind_eq_ok_iff.mp h
    obtain ⟨index, hindex, h⟩ := bind_eq_ok_iff.mp h
    exact ⟨rhs, expr, index, rhs_eq_ok_iff.mp hrhs, hexpr, fieldIndex_eq_ok_iff.mp hindex,
      (Except.ok.inj h).symm⟩
  · rintro ⟨rhs, expr, index, hrhs, hexpr, hindex, rfl⟩
    exact bind_eq_ok_iff.mpr ⟨rhs, rhs_eq_ok_iff.mpr hrhs, bind_eq_ok_iff.mpr ⟨expr, hexpr,
      bind_eq_ok_iff.mpr ⟨index, fieldIndex_eq_ok_iff.mpr hindex, rfl⟩⟩⟩

/-- The parts of an evolution that succeeds. -/
theorem evolution_eq_ok_iff {e : Evolution} :
    a.evolution name = .ok e ↔ ∃ rhs initial step inputs index args,
      a.equations.get? name = some rhs ∧ a.vocabulary.Accepts rhs.head rhs.tail.length ∧
        rhs.tail.reverse = initial :: step :: inputs ∧ inputs ≠ [] ∧
        a.parameter name .stepSize step = .ok e.step ∧
        a.parameter name .initialValue initial = .ok e.initial ∧
        a.layout.state.indexOf? name = some index ∧
        List.Forall₂ (fun x o => a.operand name x = .ok o) inputs.reverse args ∧
        e.derivative = ⟨⟨.derivative, index⟩, .apply (a.vocabulary.resolve rhs.head) args,
          describe name rhs⟩ := by
  unfold evolution
  constructor
  · intro h
    obtain ⟨rhs, hrhs, h⟩ := bind_eq_ok_iff.mp h
    obtain ⟨element, helement, h⟩ := bind_eq_ok_iff.mp h
    obtain ⟨haccepts, rfl⟩ := element_eq_ok_iff.mp helement
    split at h
    case h_1 initial step input inputs htail =>
      obtain ⟨step', hstep, h⟩ := bind_eq_ok_iff.mp h
      obtain ⟨initial', hinitial, h⟩ := bind_eq_ok_iff.mp h
      obtain ⟨index, hindex, h⟩ := bind_eq_ok_iff.mp h
      obtain ⟨args, hargs, h⟩ := bind_eq_ok_iff.mp h
      cases h
      exact ⟨rhs, initial, step, input :: inputs, index, args, rhs_eq_ok_iff.mp hrhs, haccepts,
        htail, List.cons_ne_nil _ _, hstep, hinitial, fieldIndex_eq_ok_iff.mp hindex,
        mapM_eq_ok_iff.mp hargs, rfl⟩
    case h_2 => cases h
  · rintro ⟨rhs, initial, step, inputs, index, args, hrhs, haccepts, htail, hne, hstep, hinitial,
      hindex, hargs, hderivative⟩
    obtain ⟨input, inputs, rfl⟩ := List.exists_cons_of_ne_nil hne
    refine bind_eq_ok_iff.mpr ⟨rhs, rhs_eq_ok_iff.mpr hrhs, bind_eq_ok_iff.mpr
      ⟨_, element_eq_ok_iff.mpr ⟨haccepts, rfl⟩, ?_⟩⟩
    rw [htail]
    refine bind_eq_ok_iff.mpr ⟨e.step, hstep, bind_eq_ok_iff.mpr ⟨e.initial, hinitial,
      bind_eq_ok_iff.mpr ⟨index, fieldIndex_eq_ok_iff.mpr hindex, bind_eq_ok_iff.mpr
        ⟨args, mapM_eq_ok_iff.mpr hargs, ?_⟩⟩⟩⟩
    rw [← hderivative]
    rfl

theorem auxBlock_eq_ok_iff {part : Section} {names : List Atom} {b : Block} :
    a.auxBlock part names = .ok b ↔ b.part = part ∧
      List.Forall₂ (fun n st => a.auxiliary n = .ok st) names b.statements := by
  unfold auxBlock
  constructor
  · intro h
    obtain ⟨statements, hstatements, h⟩ := bind_eq_ok_iff.mp h
    cases h
    exact ⟨rfl, mapM_eq_ok_iff.mp hstatements⟩
  · rintro ⟨rfl, h⟩
    exact bind_eq_ok_iff.mpr ⟨b.statements, mapM_eq_ok_iff.mpr h, rfl⟩

end Assembly

section Failures

/-- The fault is in a definition: an unknown element, a malformed application, or a
variable that nothing defines. -/
def CompileError.IsDefect : CompileError → Prop
  | .unknownElement _ _ | .shape _ _ | .undefinedVariable _ => True
  | _ => False

namespace Assembly

variable (a : Assembly) (name : Atom)

theorem failsOnly_rhs : FailsOnly CompileError.IsDefect (a.rhs name) := by
  unfold Assembly.rhs
  split
  · exact .ok _
  · exact .error trivial

theorem failsOnly_element (t : Term) : FailsOnly CompileError.IsDefect (a.element name t) := by
  unfold Assembly.element
  split
  · exact .error trivial
  · split
    · split
      · exact .ok _
      · exact .error trivial
    · exact .ok _

theorem failsOnly_constantValue : FailsOnly CompileError.IsDefect (a.constantValue name) := by
  refine (a.failsOnly_rhs name).bind fun rhs => (a.failsOnly_element name rhs).bind fun _ => ?_
  split
  · exact .ok _
  · exact .error trivial

theorem failsOnly_fieldIndex (r : Record) :
    FailsOnly CompileError.IsDefect (fieldIndex r name) := by
  unfold fieldIndex
  split
  · exact .ok _
  · exact .error trivial

theorem failsOnly_variableOperand :
    FailsOnly CompileError.IsDefect (a.variableOperand name) := by
  unfold variableOperand
  split
  · exact .ok _
  · exact .error trivial

theorem failsOnly_operand (x : Arg) : FailsOnly CompileError.IsDefect (a.operand name x) := by
  unfold operand
  split
  · exact .ok _
  · exact a.failsOnly_variableOperand _
  · split
    · exact .ok _
    · exact .error trivial

theorem failsOnly_parameter (role : ParameterRole) (x : Arg) :
    FailsOnly CompileError.IsDefect (a.parameter name role x) := by
  unfold parameter
  split
  · exact .ok _
  · split
    · exact .ok _
    · split
      · exact .error trivial
      · split
        · exact .ok _
        · exact .error trivial

theorem failsOnly_evolution : FailsOnly CompileError.IsDefect (a.evolution name) := by
  refine (a.failsOnly_rhs name).bind fun rhs => (a.failsOnly_element name rhs).bind fun _ => ?_
  split
  · exact (a.failsOnly_parameter name _ _).bind fun _ => (a.failsOnly_parameter name _ _).bind
      fun _ => (failsOnly_fieldIndex name _).bind fun _ =>
        (FailsOnly.mapM (a.failsOnly_operand name) _).bind fun _ => .ok _
  · exact .error trivial

theorem failsOnly_expression (rhs : Term) :
    FailsOnly CompileError.IsDefect (a.expression name rhs) := by
  unfold expression
  split
  · exact (a.failsOnly_variableOperand rhs.head).map Expr.copy
  · exact (a.failsOnly_element name rhs).bind fun _ =>
      (FailsOnly.mapM (a.failsOnly_operand name) rhs.tail).bind fun _ => .ok _

theorem failsOnly_auxiliary : FailsOnly CompileError.IsDefect (a.auxiliary name) := by
  rw [auxiliary_eq]
  exact (a.failsOnly_rhs name).bind fun rhs => (a.failsOnly_expression name rhs).bind fun _ =>
    (failsOnly_fieldIndex name _).bind fun _ => .ok _

theorem failsOnly_auxBlock (part : Section) (names : List Atom) :
    FailsOnly CompileError.IsDefect (a.auxBlock part names) :=
  (FailsOnly.mapM a.failsOnly_auxiliary names).bind fun _ => .ok _

end Assembly

theorem Program.failsOnly_assemble (v : Vocabulary) (s : EquationSet) (c : Classification) :
    FailsOnly CompileError.IsDefect (Program.assemble v s c) := by
  unfold Program.assemble
  split
  · exact .error trivial
  · exact (FailsOnly.mapM (Assembly.failsOnly_constantValue _) _).bind fun _ =>
      (FailsOnly.mapM (Assembly.failsOnly_evolution _) _).bind fun _ =>
        (Assembly.failsOnly_auxBlock _ _ _).bind fun _ =>
          (Assembly.failsOnly_auxBlock _ _ _).bind fun _ =>
            (Assembly.failsOnly_auxBlock _ _ _).bind fun _ => .ok _

end Failures

section Slots

theorem Layout.slot?_of_state {l : Layout} {name : Atom} {i : Nat}
    (h : l.state.indexOf? name = some i) : l.slot? name = some ⟨.state, i⟩ := by
  rw [slot?, h]
  rfl

theorem Layout.slot?_of_aux {l : Layout} {name : Atom} {i : Nat} (hstate : name ∉ l.state.fields)
    (h : l.aux.indexOf? name = some i) : l.slot? name = some ⟨.aux, i⟩ := by
  rw [slot?, Record.indexOf?_eq_none_iff.mpr hstate, h]
  rfl

theorem Layout.slot?_of_constants {l : Layout} {name : Atom} {i : Nat}
    (hstate : name ∉ l.state.fields) (haux : name ∉ l.aux.fields)
    (h : l.constants.indexOf? name = some i) : l.slot? name = some ⟨.constant, i⟩ := by
  rw [slot?, Record.indexOf?_eq_none_iff.mpr hstate, Record.indexOf?_eq_none_iff.mpr haux, h]
  rfl

theorem Layout.indexOf?_of_slot?_aux {l : Layout} {name : Atom} {i : Nat}
    (h : l.slot? name = some ⟨.aux, i⟩) : l.aux.indexOf? name = some i := by
  simp only [slot?, Option.or_eq_some_iff, Option.map_eq_some_iff] at h
  rcases h with ⟨_, -, h⟩ | ⟨-, ⟨j, hj, h⟩ | ⟨-, _, -, h⟩⟩
  · cases h
  · cases h
    exact hj
  · cases h

variable (s : EquationSet) (v : Vocabulary) {name : Atom} {i : Nat}

theorem EquationSet.mem_state : name ∈ (s.groups v).layout.state.fields ↔
    s.Binds v Element.isEvolving name :=
  Record.mem_fields_ofList.trans (s.mem_evolved v)

theorem EquationSet.mem_aux : name ∈ (s.groups v).layout.aux.fields ↔ name ∈ s.auxNames v :=
  Record.mem_fields_ofList.trans (s.mem_auxiliaries v)

theorem EquationSet.mem_constantFields : name ∈ (s.groups v).layout.constants.fields ↔
    s.Binds v Element.isConstant name :=
  Record.mem_fields_ofList.trans (s.mem_constants v)

/-- The state has the evolved variables in their order. -/
theorem EquationSet.fields_state : (s.groups v).layout.state.fields = (s.groups v).evolved :=
  Record.fields_ofList_of_nodup (s.nodup_namesWhere v _)

theorem EquationSet.fields_constants :
    (s.groups v).layout.constants.fields = (s.groups v).constants :=
  Record.fields_ofList_of_nodup (s.nodup_namesWhere v _)

/-- Every other variable is an auxiliary. -/
theorem EquationSet.fields_aux : (s.groups v).layout.aux.fields = (s.groups v).auxiliaries :=
  Record.fields_ofList_of_nodup (s.nodup_vars.filter _)

theorem EquationSet.slot?_auxiliary (h : (s.groups v).layout.aux.indexOf? name = some i) :
    (s.groups v).layout.slot? name = some ⟨.aux, i⟩ := by
  refine Layout.slot?_of_aux (fun hstate => ?_) h
  have haux := (s.mem_aux v).mp (Record.exists_indexOf?_iff.mp ⟨i, h⟩)
  exact ((s.mem_auxNames v).mp haux).2.1 ((s.mem_state v).mp hstate)

theorem EquationSet.slot?_constant (h : (s.groups v).layout.constants.indexOf? name = some i) :
    (s.groups v).layout.slot? name = some ⟨.constant, i⟩ := by
  have hconstant := (s.mem_constantFields v).mp (Record.exists_indexOf?_iff.mp ⟨i, h⟩)
  refine Layout.slot?_of_constants (fun hstate => ?_) (fun haux => ?_) h
  · exact s.not_binds_both v hconstant ((s.mem_state v).mp hstate)
  · exact ((s.mem_auxNames v).mp ((s.mem_aux v).mp haux)).2.2 hconstant

/-- Every variable has a slot, in the record of its group. -/
theorem EquationSet.slot?_cases (h : name ∈ s.vars) :
    (s.Binds v Element.isEvolving name ∧
      ∃ i, (s.groups v).layout.state.indexOf? name = some i) ∨
    (name ∈ s.auxNames v ∧ ∃ i, (s.groups v).layout.aux.indexOf? name = some i) ∨
    (s.Binds v Element.isConstant name ∧
      ∃ i, (s.groups v).layout.constants.indexOf? name = some i) := by
  simp only [Record.exists_indexOf?_iff, mem_state, mem_aux, mem_constantFields, and_self,
    mem_auxNames, h, true_and]
  by_cases hevolving : s.Binds v Element.isEvolving name
  · exact .inl hevolving
  · by_cases hconstant : s.Binds v Element.isConstant name
    · exact .inr (.inr hconstant)
    · exact .inr (.inl ⟨hevolving, hconstant⟩)

theorem EquationSet.exists_slot? (h : name ∈ s.vars) :
    ∃ slot, (s.groups v).layout.slot? name = some slot := by
  rcases s.slot?_cases v h with ⟨-, i, hi⟩ | ⟨-, i, hi⟩ | ⟨-, i, hi⟩
  · exact ⟨_, Layout.slot?_of_state hi⟩
  · exact ⟨_, s.slot?_auxiliary v hi⟩
  · exact ⟨_, s.slot?_constant v hi⟩

end Slots

variable {v : Vocabulary} {s : EquationSet} {c : Classification}

/-- The parts of a program that is assembled. -/
structure Program.IsAssembled (v : Vocabulary) (s : EquationSet) (c : Classification)
    (p : Program) (evolutions : List Assembly.Evolution) (sorted cyclic unneeded : List Statement) :
    Prop where
  bound : ∀ name ∈ c.auxiliaries, s.contains name = true
  constantValues : List.Forall₂ (fun n x => Assembly.constantValue ⟨v, s, c.layout⟩ n = .ok x)
    c.constants p.constantValues
  evolution : List.Forall₂ (fun n e => Assembly.evolution ⟨v, s, c.layout⟩ n = .ok e)
    c.evolved evolutions
  auxSorted : List.Forall₂ (fun n st => Assembly.auxiliary ⟨v, s, c.layout⟩ n = .ok st)
    c.auxSorted sorted
  auxCyclic : List.Forall₂ (fun n st => Assembly.auxiliary ⟨v, s, c.layout⟩ n = .ok st)
    c.auxCyclic cyclic
  auxUnneeded : List.Forall₂ (fun n st => Assembly.auxiliary ⟨v, s, c.layout⟩ n = .ok st)
    c.auxUnneeded unneeded
  layout : p.layout = c.layout
  initial : p.initial = evolutions.map Assembly.Evolution.initial
  steps : p.steps = evolutions.map Assembly.Evolution.step
  blocks : p.blocks = [⟨.auxSorted, sorted⟩, ⟨.auxCyclic, cyclic⟩,
    ⟨.derivatives, evolutions.map Assembly.Evolution.derivative⟩, ⟨.auxUnneeded, unneeded⟩]
  vars : p.vars = c.all

theorem Program.assemble_eq_ok_iff {p : Program} :
    Program.assemble v s c = .ok p ↔
      ∃ evolutions sorted cyclic unneeded,
        p.IsAssembled v s c evolutions sorted cyclic unneeded := by
  unfold Program.assemble
  split
  · rename_i name hname
    refine ⟨nofun, fun ⟨_, _, _, _, h⟩ => ?_⟩
    have hbound := h.bound name (List.mem_of_find?_eq_some hname)
    have := List.find?_some hname
    rw [hbound] at this
    cases this
  · rename_i hnone
    have hbound : ∀ name ∈ c.auxiliaries, s.contains name = true := fun name hname => by
      simpa using List.find?_eq_none.mp hnone name hname
    constructor
    · intro h
      obtain ⟨constantValues, hconstants, h⟩ := bind_eq_ok_iff.mp h
      obtain ⟨evolutions, hevolutions, h⟩ := bind_eq_ok_iff.mp h
      obtain ⟨⟨_, sorted⟩, hsorted, h⟩ := bind_eq_ok_iff.mp h
      obtain ⟨⟨_, cyclic⟩, hcyclic, h⟩ := bind_eq_ok_iff.mp h
      obtain ⟨⟨_, unneeded⟩, hunneeded, h⟩ := bind_eq_ok_iff.mp h
      obtain ⟨rfl, hsorted⟩ := Assembly.auxBlock_eq_ok_iff.mp hsorted
      obtain ⟨rfl, hcyclic⟩ := Assembly.auxBlock_eq_ok_iff.mp hcyclic
      obtain ⟨rfl, hunneeded⟩ := Assembly.auxBlock_eq_ok_iff.mp hunneeded
      cases h
      exact ⟨evolutions, sorted, cyclic, unneeded, hbound, mapM_eq_ok_iff.mp hconstants,
        mapM_eq_ok_iff.mp hevolutions, hsorted, hcyclic, hunneeded, rfl, rfl, rfl, rfl, rfl⟩
    · rintro ⟨evolutions, sorted, cyclic, unneeded, h⟩
      refine bind_eq_ok_iff.mpr ⟨p.constantValues, mapM_eq_ok_iff.mpr h.constantValues,
        bind_eq_ok_iff.mpr ⟨evolutions, mapM_eq_ok_iff.mpr h.evolution, bind_eq_ok_iff.mpr
          ⟨⟨_, sorted⟩, Assembly.auxBlock_eq_ok_iff.mpr ⟨rfl, h.auxSorted⟩, bind_eq_ok_iff.mpr
            ⟨⟨_, cyclic⟩, Assembly.auxBlock_eq_ok_iff.mpr ⟨rfl, h.auxCyclic⟩, bind_eq_ok_iff.mpr
              ⟨⟨_, unneeded⟩, Assembly.auxBlock_eq_ok_iff.mpr ⟨rfl, h.auxUnneeded⟩, ?_⟩⟩⟩⟩⟩
      rw [← h.layout, ← h.initial, ← h.steps, ← h.blocks, ← h.vars]
      rfl

end DiffAnalyzer
