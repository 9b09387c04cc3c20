import DiffAnalyzer.Proofs.Evaluation
import DiffAnalyzer.Proofs.WellFormedness
import Mathlib

/-!
# Consistency of programs

The fields of a program that assembling yields are the variables of the classification
(`Program.HasVariables`), and its parts fit together (`Program.IsConsistent`): there is a
value for each field, what statements and parameters refer to exists, an evaluation
assigns each auxiliary and each derivative once, and look-up knows the variables and no
other name.
-/

namespace DiffAnalyzer

/-- The slot is a field that statements may read. -/
def Layout.IsReadable (l : Layout) (slot : Slot) : Prop :=
  slot.group ≠ .derivative ∧ slot.index < (l.record slot.group).size

/-- The fields that an evaluation computes. -/
def Layout.computed (l : Layout) : List Slot :=
  (List.range l.aux.size).map (Slot.mk .aux) ++
    (List.range l.state.size).map (Slot.mk .derivative)

def Operand.IsReadable (l : Layout) : Operand → Prop
  | .number _ => True
  | .slot field => l.IsReadable field

def Expr.operands : Expr → List Operand
  | .copy operand => [operand]
  | .apply _ args => args

def Parameter.IsDefined (l : Layout) : Parameter → Prop
  | .number _ => True
  | .constant index => index < l.constants.size

/-- The program has a field for each classified variable, in the record of its group. -/
structure Program.HasVariables (p : Program) (c : Classification) : Prop where
  state : p.layout.state.fields = c.evolved
  aux : p.layout.aux.fields =
    c.all.filter fun name => decide (name ∉ c.constants) && decide (name ∉ c.evolved)
  constants : p.layout.constants.fields = c.constants
  vars : p.vars = c.all

/-- The parts of a program fit together. -/
structure Program.IsConsistent (p : Program) : Prop where
  length_constantValues : p.constantValues.length = p.layout.constants.size
  length_initial : p.initial.length = p.layout.state.size
  length_steps : p.steps.length = p.layout.state.size
  parameters : ∀ x ∈ p.initial ++ p.steps, x.IsDefined p.layout
  operands : ∀ st ∈ p.statements, ∀ o ∈ st.expr.operands, o.IsReadable p.layout
  /-- Every computed field is the target of one statement, and nothing else is a target. -/
  targets : (p.statements.map Statement.target).Perm p.layout.computed
  lookup : ∀ name, (p.lookup? name).isSome ↔ name ∈ p.vars.map toString
  name_lookup : ∀ name slot, p.lookup? name = some slot →
    (p.layout.name? slot).map toString = some name

namespace Atom

theorem ofChars?_toString (name : Atom) : ofChars? (toString name).toList = some name := by
  rw [toList_toString, ofChars?_chars]

theorem toString_of_ofChars? {text : String} {name : Atom} (h : ofChars? text.toList = some name) :
    toString name = text := by
  change String.ofList name.chars = text
  rw [chars_of_ofChars? h, String.ofList_toList]

end Atom

namespace Layout

variable {l : Layout} {slot : Slot} {name : Atom}

theorem index_lt_of_name? (h : l.name? slot = some name) :
    slot.index < (l.record slot.group).size :=
  (List.getElem?_eq_some_iff.mp h).1

/-- The slot of a name is a field of that name. -/
theorem name?_of_slot? (h : l.slot? name = some slot) :
    slot.group ≠ .derivative ∧ l.name? slot = some name := by
  simp only [slot?, Option.or_eq_some_iff, Option.map_eq_some_iff] at h
  rcases h with ⟨i, hi, rfl⟩ | ⟨-, ⟨i, hi, rfl⟩ | ⟨-, i, hi, rfl⟩⟩
  · exact ⟨by simp, Record.indexOf?_eq_some_iff.mp hi⟩
  · exact ⟨by simp, Record.indexOf?_eq_some_iff.mp hi⟩
  · exact ⟨by simp, Record.indexOf?_eq_some_iff.mp hi⟩

theorem isReadable_of_slot? (h : l.slot? name = some slot) : l.IsReadable slot :=
  ⟨(name?_of_slot? h).1, index_lt_of_name? (name?_of_slot? h).2⟩

end Layout

/-- The field that a name is looked up to has that name. -/
theorem Program.name?_of_lookup? {p : Program} {name : String} {slot : Slot}
    (h : p.lookup? name = some slot) : (p.layout.name? slot).map toString = some name := by
  obtain ⟨a, ha, hslot⟩ := Option.bind_eq_some_iff.mp h
  rw [(Layout.name?_of_slot? hslot).2, Option.map_some, Atom.toString_of_ofChars? ha]

namespace Record

variable {r : Record} {names : List Atom}

/-- The fields are numbered in their order. -/
theorem map_idxOf_fields (r : Record) : r.fields.map r.fields.idxOf = List.range r.size := by
  refine List.ext_getElem (by simp [size]) fun i hi hi' => ?_
  rw [List.getElem_map, List.getElem_range]
  exact r.nodup.idxOf_getElem i (by simpa using hi)

theorem idxOf_of_indexOf? {name : Atom} {i : Nat} (h : r.indexOf? name = some i) :
    r.fields.idxOf name = i := by
  obtain ⟨hi, rfl⟩ := List.getElem?_eq_some_iff.mp (indexOf?_eq_some_iff.mp h)
  exact r.nodup.idxOf_getElem i hi

/-- When the names are those of the fields, so are their numbers. -/
theorem perm_map_idxOf (h : names.Perm r.fields) (f : Nat → Slot) :
    (names.map fun name => f (r.fields.idxOf name)).Perm ((List.range r.size).map f) := by
  rw [← map_idxOf_fields, List.map_map]
  exact h.map _

end Record

namespace Assembly

variable {a : Assembly} {name : Atom}

theorem isReadable_of_operand {x : Arg} {o : Operand} (h : a.operand name x = .ok o) :
    o.IsReadable a.layout := by
  unfold operand at h
  split at h
  · cases h
    trivial
  · obtain ⟨slot, hslot, rfl⟩ := variableOperand_eq_ok_iff.mp h
    exact Layout.isReadable_of_slot? hslot
  · split at h
    · cases h
      trivial
    · cases h

theorem isReadable_of_operands {args : List Arg} {os : List Operand}
    (h : List.Forall₂ (fun x o => a.operand name x = .ok o) args os) :
    ∀ o ∈ os, o.IsReadable a.layout := by
  induction h with
  | nil => exact List.forall_mem_nil _
  | cons ho _ ih => exact List.forall_mem_cons.mpr ⟨isReadable_of_operand ho, ih⟩

theorem isReadable_of_expression {rhs : Term} {e : Expr} (h : a.expression name rhs = .ok e) :
    ∀ o ∈ e.operands, o.IsReadable a.layout := by
  rcases expression_eq_ok_iff.mp h with ⟨-, slot, hslot, rfl⟩ | ⟨-, -, os, hos, rfl⟩
  · exact List.forall_mem_singleton.mpr (Layout.isReadable_of_slot? hslot)
  · exact isReadable_of_operands hos

/-- Statements of auxiliaries have the places of their names as targets. -/
theorem map_target_auxiliaries {names : List Atom} {statements : List Statement}
    (h : List.Forall₂ (fun n st => a.auxiliary n = .ok st) names statements) :
    statements.map Statement.target =
      names.map fun name => ⟨.aux, a.layout.aux.fields.idxOf name⟩ := by
  induction h with
  | nil => rfl
  | cons hst _ ih =>
    obtain ⟨rhs, expr, i, -, -, hi, rfl⟩ := auxiliary_eq_ok_iff.mp hst
    rw [List.map_cons, List.map_cons, ih, Record.idxOf_of_indexOf? hi]

theorem map_target_evolutions {names : List Atom} {evolutions : List Evolution}
    (h : List.Forall₂ (fun n e => a.evolution n = .ok e) names evolutions) :
    (evolutions.map Evolution.derivative).map Statement.target =
      names.map fun name => ⟨.derivative, a.layout.state.fields.idxOf name⟩ := by
  induction h with
  | nil => rfl
  | cons he _ ih =>
    obtain ⟨rhs, initial, step, inputs, i, args, -, -, -, -, -, -, hi, -, hderivative⟩ :=
      evolution_eq_ok_iff.mp he
    rw [List.map_cons, List.map_cons, List.map_cons, ih, hderivative, Record.idxOf_of_indexOf? hi]

theorem operands_auxiliaries {names : List Atom} {statements : List Statement}
    (h : List.Forall₂ (fun n st => a.auxiliary n = .ok st) names statements) :
    ∀ st ∈ statements, ∀ o ∈ st.expr.operands, o.IsReadable a.layout := by
  induction h with
  | nil => exact List.forall_mem_nil _
  | cons hst _ ih =>
    obtain ⟨rhs, expr, i, -, hexpr, -, rfl⟩ := auxiliary_eq_ok_iff.mp hst
    exact List.forall_mem_cons.mpr ⟨isReadable_of_expression hexpr, ih⟩

section Groups

variable {s : EquationSet} {v : Vocabulary}

theorem isDefined_of_parameter {role : ParameterRole} {x : Arg} {q : Parameter}
    (h : parameter ⟨v, s, (s.groups v).layout⟩ name role x = .ok q) :
    q.IsDefined (s.groups v).layout := by
  unfold parameter at h
  split at h
  · cases h
    trivial
  · split at h
    · cases h
      trivial
    · split at h
      · cases h
      · split at h
        · rename_i i hi
          cases h
          obtain ⟨c, hc, -⟩ := isParameter_of_constantBehind? hi
          exact (List.getElem?_eq_some_iff.mp (Record.indexOf?_eq_some_iff.mp hc)).1
        · cases h

theorem operands_evolutions {names : List Atom} {evolutions : List Evolution}
    (h : List.Forall₂ (fun n e => evolution ⟨v, s, (s.groups v).layout⟩ n = .ok e)
      names evolutions) :
    ∀ e ∈ evolutions, (∀ o ∈ e.derivative.expr.operands, o.IsReadable (s.groups v).layout) ∧
      e.initial.IsDefined (s.groups v).layout ∧ e.step.IsDefined (s.groups v).layout := by
  induction h with
  | nil => exact List.forall_mem_nil _
  | cons he _ ih =>
    obtain ⟨rhs, initial, step, inputs, i, args, -, -, -, -, hstep, hinitial, -, hargs,
      hderivative⟩ := evolution_eq_ok_iff.mp he
    refine List.forall_mem_cons.mpr ⟨⟨?_, ?_, ?_⟩, ih⟩
    · rw [hderivative]
      exact isReadable_of_operands hargs
    · exact isDefined_of_parameter hinitial
    · exact isDefined_of_parameter hstep

end Groups

end Assembly

namespace Program.IsAssembled

variable {s : EquationSet} {v : Vocabulary} {p : Program} {evolutions : List Assembly.Evolution}
  {sorted cyclic unneeded : List Statement}
  (h : p.IsAssembled v s (s.groups v) evolutions sorted cyclic unneeded)
include h

/-- Each auxiliary and each derivative is assigned once. -/
theorem perm_targets : (p.statements.map Statement.target).Perm p.layout.computed := by
  have haux : (s.sweep v).Perm p.layout.aux.fields := by
    refine (List.perm_ext_iff_of_nodup (s.nodup_sweep v) p.layout.aux.nodup).mpr fun name => ?_
    rw [h.layout, s.mem_aux, EquationSet.mem_sweep]
  have hstate : (s.groups v).evolved.Perm p.layout.state.fields := by
    rw [h.layout, s.fields_state]
  rw [h.statements_eq, List.map_append, List.map_append, List.map_append,
    Assembly.map_target_auxiliaries h.auxSorted, Assembly.map_target_auxiliaries h.auxCyclic,
    Assembly.map_target_evolutions h.evolution, Assembly.map_target_auxiliaries h.auxUnneeded]
  have hauxTargets := Record.perm_map_idxOf haux (Slot.mk .aux)
  have hstateTargets := Record.perm_map_idxOf hstate (Slot.mk .derivative)
  rw [EquationSet.sweep, List.map_append, List.map_append] at hauxTargets
  rw [← h.layout]
  refine List.Perm.trans ?_ (hauxTargets.append hstateTargets)
  -- only the derivatives change places with the auxiliaries that run after them
  rw [List.append_assoc, List.append_assoc]
  exact (List.perm_append_comm.append_left _).append_left _

theorem isReadable_operands :
    ∀ st ∈ p.statements, ∀ o ∈ st.expr.operands, o.IsReadable p.layout := by
  rw [h.statements_eq, h.layout]
  simp only [List.forall_mem_append, List.forall_mem_map]
  exact ⟨Assembly.operands_auxiliaries h.auxSorted, Assembly.operands_auxiliaries h.auxCyclic,
    fun e he => (Assembly.operands_evolutions h.evolution e he).1,
    Assembly.operands_auxiliaries h.auxUnneeded⟩

theorem isDefined_parameters : ∀ x ∈ p.initial ++ p.steps, x.IsDefined p.layout := by
  rw [h.initial, h.steps, h.layout]
  simp only [List.forall_mem_append, List.forall_mem_map]
  exact ⟨fun e he => (Assembly.operands_evolutions h.evolution e he).2.1,
    fun e he => (Assembly.operands_evolutions h.evolution e he).2.2⟩

theorem isSome_lookup?_iff {name : String} :
    (p.lookup? name).isSome ↔ name ∈ p.vars.map toString := by
  rw [List.mem_map, h.vars, lookup?, h.layout]
  constructor
  · intro hname
    obtain ⟨slot, hslot⟩ := Option.isSome_iff_exists.mp hname
    obtain ⟨a, ha, hslot⟩ := Option.bind_eq_some_iff.mp hslot
    refine ⟨a, ?_, Atom.toString_of_ofChars? ha⟩
    obtain ⟨hderivative, hfield⟩ := Layout.name?_of_slot? hslot
    have hmem := List.mem_of_getElem? hfield
    cases hgroup : slot.group with
    | state =>
      rw [hgroup] at hmem
      obtain ⟨rhs, hrhs, -⟩ := (s.mem_state v).mp hmem
      exact EquationSet.mem_vars_of_get? hrhs
    | derivative => exact absurd hgroup hderivative
    | aux =>
      rw [hgroup] at hmem
      exact ((s.mem_auxNames v).mp ((s.mem_aux v).mp hmem)).1
    | constant =>
      rw [hgroup] at hmem
      obtain ⟨rhs, hrhs, -⟩ := (s.mem_constantFields v).mp hmem
      exact EquationSet.mem_vars_of_get? hrhs
  · rintro ⟨a, ha, rfl⟩
    obtain ⟨slot, hslot⟩ := s.exists_slot? v ha
    rw [Atom.ofChars?_toString, Option.bind_some, hslot]
    rfl

end Program.IsAssembled

theorem Program.hasVariables_of_assemble {s : EquationSet} {v : Vocabulary} {c : Classification}
    {p : Program} (hclassify : s.classify v = .ok c) (hassemble : Program.assemble v s c = .ok p) :
    p.HasVariables c := by
  obtain rfl := s.groups_of_classify v hclassify
  obtain ⟨evolutions, sorted, cyclic, unneeded, h⟩ := Program.assemble_eq_ok_iff.mp hassemble
  have haux : p.layout.aux.fields = (s.groups v).auxiliaries := by rw [h.layout, s.fields_aux]
  exact {
    state := by rw [h.layout, s.fields_state]
    aux := by simpa only [Classification.auxiliaries, List.contains_eq_mem, decide_not] using haux
    constants := by rw [h.layout, s.fields_constants]
    vars := h.vars }

/-- Programs that are assembled are consistent. -/
theorem Program.isConsistent_of_assemble {s : EquationSet} {v : Vocabulary} {c : Classification}
    {p : Program} (hclassify : s.classify v = .ok c) (hassemble : Program.assemble v s c = .ok p) :
    p.IsConsistent := by
  obtain rfl := s.groups_of_classify v hclassify
  obtain ⟨evolutions, sorted, cyclic, unneeded, h⟩ := Program.assemble_eq_ok_iff.mp hassemble
  have hevolved : evolutions.length = p.layout.state.size := by
    rw [h.layout, Record.size, s.fields_state, h.evolution.length_eq]
  exact {
    length_constantValues := by
      rw [h.layout, Record.size, s.fields_constants, h.constantValues.length_eq]
    length_initial := by rw [h.initial, List.length_map, hevolved]
    length_steps := by rw [h.steps, List.length_map, hevolved]
    parameters := h.isDefined_parameters
    operands := h.isReadable_operands
    targets := h.perm_targets
    lookup := fun _ => h.isSome_lookup?_iff
    name_lookup := fun _ _ => Program.name?_of_lookup? }

end DiffAnalyzer
