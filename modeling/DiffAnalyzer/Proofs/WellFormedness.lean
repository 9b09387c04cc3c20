import DiffAnalyzer.Proofs.Assembly
import DiffAnalyzer.Proofs.Parts
import Mathlib

/-!
# Which circuits can be assembled

A set is well-formed when all variables are bound, all applications have a known element
and enough arguments, and step sizes and initial values come from constants.  For a set
in linear form this is what assembling checks (`EquationSet.exists_assemble_iff`).
-/

namespace DiffAnalyzer

namespace EquationSet

/-- A literal, a constant, or a variable that stands for one of them, with the value. -/
inductive IsParameter (s : EquationSet) (v : Vocabulary) : Arg → Number → Prop where
  | number (x : Number) : s.IsParameter v (.number x) x
  | constant {head : Atom} (x : Number) (h : (v.resolve head).isConstant = true) :
    s.IsParameter v (.node head [.number x]) x
  | reference {name : Atom} {rhs : Term} {x : Number} (hrhs : s.get? name = some rhs)
    (h : s.IsParameter v rhs.toArg x) : s.IsParameter v (.node name []) x

/-- The right-hand side of the name is the bare variable `target`. -/
def IsAlias (s : EquationSet) (name target : Atom) : Prop := s.get? name = some (.var target)

/-- What a circuit must satisfy to be assembled. -/
structure WellFormed (s : EquationSet) (v : Vocabulary) : Prop where
  bound : ∀ name ∈ s.vars, s.contains name = true
  accepts : ∀ head tail, s.IsPart (.node head tail) → tail ≠ [] → v.Accepts head tail.length
  constant : ∀ head tail, s.IsPart (.node head tail) → tail ≠ [] →
    (v.resolve head).isConstant = true → ∃ x, tail = [.number x]
  evolving : ∀ head tail, s.IsPart (.node head tail) → tail ≠ [] →
    (v.resolve head).isEvolving = true → ∃ initial step inputs,
      tail.reverse = initial :: step :: inputs ∧ inputs ≠ [] ∧
        (∃ x, s.IsParameter v step x) ∧ ∃ x, s.IsParameter v initial x

variable {s : EquationSet} {v : Vocabulary} {name c : Atom} {a : Arg} {rhs : Term} {x : Number}

section Chains

/-- Names that lead from a variable to a constant, each bound to the next. -/
def IsChain (s : EquationSet) (v : Vocabulary) : Atom → List Atom → Prop
  | name, [] => s.Binds v Element.isConstant name
  | name, next :: rest => s.get? name = some (.var next) ∧ IsChain s v next rest

variable {path : List Atom}

/-- A variable that is a parameter leads to a constant. -/
theorem IsParameter.exists_isChain (h : s.IsParameter v (.node name []) x) :
    ∃ path, s.IsChain v name path := by
  generalize ha : Arg.node name [] = a at h
  induction h generalizing name with
  | number x => cases ha
  | constant x h => cases ha
  | @reference name' rhs x hrhs h ih =>
    cases ha
    obtain ⟨head, tail⟩ := rhs
    cases tail with
    | nil =>
      obtain ⟨path, hpath⟩ := ih rfl
      exact ⟨head :: path, hrhs, hpath⟩
    | cons b rest =>
      cases h with
      | constant x hconstant => exact ⟨[], ⟨head, [.number x]⟩, hrhs, rfl, hconstant⟩

theorem IsChain.mem_keys (h : s.IsChain v name path) : ∀ u ∈ name :: path, u ∈ s.keys := by
  induction path generalizing name with
  | nil =>
    obtain ⟨rhs, hrhs, -⟩ := h
    intro u hu
    rw [List.mem_singleton.mp hu]
    exact SortedMap.mem_keys_iff.mpr ⟨rhs, hrhs⟩
  | cons next rest ih =>
    intro u hu
    rcases List.mem_cons.mp hu with rfl | hu
    · exact SortedMap.mem_keys_iff.mpr ⟨_, h.1⟩
    · exact ih h.2 u hu

theorem IsChain.exists_suffix (h : s.IsChain v name path) (hc : c ∈ name :: path) :
    ∃ rest, s.IsChain v c rest ∧ (c :: rest) <:+ (name :: path) := by
  induction path generalizing name with
  | nil =>
    rw [List.mem_singleton.mp hc]
    exact ⟨[], h, List.suffix_rfl⟩
  | cons next rest ih =>
    rcases List.mem_cons.mp hc with rfl | hc
    · exact ⟨next :: rest, h, List.suffix_rfl⟩
    · obtain ⟨rest', hrest, hsuffix⟩ := ih h.2 hc
      exact ⟨rest', hrest, hsuffix.trans (List.suffix_cons ..)⟩

/-- Chains need not run in circles. -/
theorem IsChain.exists_nodup (h : s.IsChain v name path) :
    ∃ path, s.IsChain v name path ∧ (name :: path).Nodup := by
  induction path generalizing name with
  | nil => exact ⟨[], h, List.nodup_singleton name⟩
  | cons next rest ih =>
    obtain ⟨path, hpath, hnodup⟩ := ih h.2
    by_cases hmem : name ∈ next :: path
    · obtain ⟨rest', hrest, hsuffix⟩ := hpath.exists_suffix hmem
      exact ⟨rest', hrest, hnodup.sublist hsuffix.sublist⟩
    · exact ⟨next :: path, ⟨h.1, hpath⟩, List.nodup_cons.mpr ⟨hmem, hnodup⟩⟩

/-- The names of a chain without circles are bound, so there are only so many. -/
theorem IsChain.length_lt (h : s.IsChain v name path) (hnodup : (name :: path).Nodup) :
    path.length < s.size := by
  have hlength := (List.subperm_of_subset hnodup h.mem_keys).length_le
  rwa [SortedMap.keys, List.length_map] at hlength

end Chains

end EquationSet

namespace Assembly

variable {s : EquationSet} {v : Vocabulary} {name : Atom} {i steps : Nat}

open EquationSet

/-- Following a chain ends at its constant. -/
theorem exists_constantBehind?_of_isChain {path : List Atom} (h : s.IsChain v name path)
    (hnodup : (name :: path).Nodup) (hsteps : path.length < steps) :
    ∃ i, constantBehind? ⟨v, s, (s.groups v).layout⟩ steps name = some i := by
  induction path generalizing name steps with
  | nil =>
    obtain ⟨steps, rfl⟩ := Nat.exists_eq_succ_of_ne_zero (Nat.ne_of_gt hsteps)
    obtain ⟨i, hi⟩ := Record.exists_indexOf?_iff.mpr ((s.mem_constantFields v).mpr h)
    exact ⟨i, by rw [constantBehind?, hi]⟩
  | cons next rest ih =>
    rw [List.length_cons] at hsteps
    obtain ⟨steps, rfl⟩ := Nat.exists_eq_succ_of_ne_zero (Nat.ne_zero_of_lt hsteps)
    have hne : next ≠ name := fun heq => (List.nodup_cons.mp hnodup).1 (heq ▸ List.mem_cons_self)
    rw [constantBehind?]
    split
    · exact ⟨_, rfl⟩
    · simp only [h.1, Term.isVariable, Term.var, List.isEmpty_nil, Bool.true_and, bne_iff_ne, hne,
        ne_eq, not_false_eq_true, if_true]
      exact ih h.2 hnodup.of_cons (by omega)

/-- The steps suffice for every parameter. -/
theorem exists_constantBehind? {x : Number} (h : s.IsParameter v (.node name []) x) :
    ∃ i, constantBehind? ⟨v, s, (s.groups v).layout⟩ (s.size + 1) name = some i := by
  obtain ⟨path, hpath⟩ := h.exists_isChain
  obtain ⟨path, hpath, hnodup⟩ := hpath.exists_nodup
  exact exists_constantBehind?_of_isChain hpath hnodup (Nat.lt_succ_of_lt (hpath.length_lt hnodup))

/-- The look-up goes along aliases. -/
theorem exists_alias_of_constantBehind?
    (h : constantBehind? ⟨v, s, (s.groups v).layout⟩ steps name = some i) :
    ∃ k, Relation.ReflTransGen s.IsAlias name k ∧
      (s.groups v).layout.constants.indexOf? k = some i := by
  induction steps generalizing name with
  | zero => cases h
  | succ steps ih =>
    rw [constantBehind?] at h
    split at h
    · rename_i j hj
      cases h
      exact ⟨name, .refl, hj⟩
    · split at h
      · rename_i rhs hrhs
        split at h
        · rename_i hvar
          rw [Bool.and_eq_true] at hvar
          obtain ⟨k, hsteps, hk⟩ := ih h
          rw [Term.eq_var_of_isVariable hvar.1] at hrhs
          exact ⟨k, .head hrhs hsteps, hk⟩
        · cases h
      · cases h

/-- What is found stands for a constant. -/
theorem isParameter_of_constantBehind?
    (h : constantBehind? ⟨v, s, (s.groups v).layout⟩ steps name = some i) :
    ∃ c, (s.groups v).layout.constants.indexOf? c = some i ∧
      ∀ x, s.IsParameter v (.node c []) x → s.IsParameter v (.node name []) x := by
  obtain ⟨c, hsteps, hc⟩ := exists_alias_of_constantBehind? h
  refine ⟨c, hc, fun x hx => ?_⟩
  clear h
  induction hsteps using Relation.ReflTransGen.head_induction_on with
  | refl => exact hx
  | head halias _ ih => exact .reference halias ih

variable {a : Arg} {role : ParameterRole} {q : Parameter}

theorem parameter_number {x : Number} {b : Assembly} :
    b.parameter name role (.number x) = .ok (.number x) := rfl

theorem parameter_variable_eq_ok_iff {b : Assembly} {head : Atom} :
    b.parameter name role (.node head []) = .ok q ↔
      ∃ i, b.constantBehind? (b.equations.size + 1) head = some i ∧ q = .constant i := by
  rw [parameter, literal?]
  dsimp only
  cases b.constantBehind? (b.equations.size + 1) head with
  | none => exact ⟨nofun, nofun⟩
  | some i =>
    constructor
    · intro h
      exact ⟨i, rfl, (Except.ok.inj h).symm⟩
    · rintro ⟨j, hj, rfl⟩
      cases hj
      rfl

/-- Step sizes and initial values that are parameters are accepted. -/
theorem exists_parameter (name : Atom) (role : ParameterRole) {x : Number}
    (ha : a.isSimple = true) (h : s.IsParameter v a x) :
    ∃ q, parameter ⟨v, s, (s.groups v).layout⟩ name role a = .ok q := by
  cases a with
  | number y => exact ⟨_, parameter_number⟩
  | node head tail =>
    rw [Arg.isSimple_node, List.isEmpty_iff] at ha
    subst ha
    obtain ⟨i, hi⟩ := exists_constantBehind? h
    exact ⟨_, parameter_variable_eq_ok_iff.mpr ⟨i, hi, rfl⟩⟩

/-- Arguments of flat terms have operands when their variables occur in the set. -/
theorem exists_operand (name : Atom) (ha : a.isSimple = true)
    (hvars : ∀ u ∈ a.references, u ∈ s.vars) :
    ∃ o, operand ⟨v, s, (s.groups v).layout⟩ name a = .ok o := by
  cases a with
  | number y => exact ⟨_, operand_number⟩
  | node head tail =>
    rw [Arg.isSimple_node, List.isEmpty_iff] at ha
    subst ha
    obtain ⟨slot, hslot⟩ := s.exists_slot? v (hvars head List.mem_cons_self)
    exact ⟨_, variableOperand_eq_ok_iff.mpr ⟨slot, hslot, rfl⟩⟩

end Assembly

namespace EquationSet

variable {s : EquationSet} {v : Vocabulary} {name : Atom} {rhs : Term}
  (hflat : ∀ name rhs, s.get? name = some rhs → rhs.isFlat = true)

theorem mem_vars_of_mem_tail {a : Arg} {u : Atom} (hrhs : s.get? name = some rhs)
    (ha : a ∈ rhs.tail) (hu : u ∈ a.references) : u ∈ s.vars :=
  mem_vars_of_mem_dependencies hrhs
    (Term.mem_dependencies.mpr (Arg.mem_references_node.mpr (.inr ⟨a, ha, hu⟩)))

namespace WellFormed

variable (h : s.WellFormed v)
include h

/-- The element of a bound application is accepted. -/
theorem element_eq (hrhs : s.get? name = some rhs) (hcompound : rhs.isCompound = true)
    (layout : Layout) :
    Assembly.element ⟨v, s, layout⟩ name rhs = .ok (v.resolve rhs.head) :=
  Assembly.element_eq_ok_iff.mpr
    ⟨h.accepts rhs.head rhs.tail (.whole hrhs) (Term.isCompound_iff_ne_nil.mp hcompound), rfl⟩

theorem exists_constantValue (hname : s.Binds v Element.isConstant name) (layout : Layout) :
    ∃ x, Assembly.constantValue ⟨v, s, layout⟩ name = .ok x := by
  obtain ⟨rhs, hrhs, hcompound, hconstant⟩ := hname
  have hne := Term.isCompound_iff_ne_nil.mp hcompound
  obtain ⟨x, hx⟩ := h.constant rhs.head rhs.tail (.whole hrhs) hne hconstant
  exact ⟨x, Assembly.constantValue_eq_ok_iff.mpr
    ⟨rhs, hrhs, h.accepts rhs.head rhs.tail (.whole hrhs) hne, hx⟩⟩

include hflat

theorem exists_evolution (hname : s.Binds v Element.isEvolving name) :
    ∃ e, Assembly.evolution ⟨v, s, (s.groups v).layout⟩ name = .ok e := by
  obtain ⟨rhs, hrhs, hcompound, hevolving⟩ := id hname
  have hne := Term.isCompound_iff_ne_nil.mp hcompound
  obtain ⟨initial, step, inputs, htail, hinputs, ⟨x, hx⟩, ⟨y, hy⟩⟩ :=
    h.evolving rhs.head rhs.tail (.whole hrhs) hne hevolving
  have hmem : ∀ a ∈ initial :: step :: inputs, a ∈ rhs.tail := fun a ha => by
    rwa [← List.mem_reverse, htail]
  have hsimple : ∀ a ∈ initial :: step :: inputs, a.isSimple = true := fun a ha =>
    Term.isFlat_iff.mp (hflat name rhs hrhs) a (hmem a ha)
  obtain ⟨q, hq⟩ := Assembly.exists_parameter name .stepSize
    (hsimple step (by simp)) hx
  obtain ⟨q', hq'⟩ := Assembly.exists_parameter name .initialValue
    (hsimple initial (by simp)) hy
  obtain ⟨i, hi⟩ := Record.exists_indexOf?_iff.mpr ((s.mem_state v).mpr hname)
  have hoperands : ∀ a ∈ inputs.reverse, ∃ o,
      Assembly.operand ⟨v, s, (s.groups v).layout⟩ name a = .ok o := fun a ha => by
    have ha := List.mem_cons_of_mem initial (List.mem_cons_of_mem step (List.mem_reverse.mp ha))
    exact Assembly.exists_operand name (hsimple a ha) fun u hu =>
      mem_vars_of_mem_tail hrhs (hmem a ha) hu
  obtain ⟨args, hargs⟩ := exists_mapM_eq_ok_iff.mpr hoperands
  exact ⟨⟨_, q, q'⟩, Assembly.evolution_eq_ok_iff.mpr ⟨rhs, initial, step, inputs, i, args, hrhs,
    h.accepts rhs.head rhs.tail (.whole hrhs) hne, htail, hinputs, hq, hq', hi,
    mapM_eq_ok_iff.mp hargs, rfl⟩⟩

theorem exists_auxiliary (hname : name ∈ s.auxNames v) :
    ∃ st, Assembly.auxiliary ⟨v, s, (s.groups v).layout⟩ name = .ok st := by
  obtain ⟨rhs, hrhs⟩ := Option.isSome_iff_exists.mp
    (h.bound name ((s.mem_auxNames v).mp hname).1)
  obtain ⟨i, hi⟩ := Record.exists_indexOf?_iff.mpr ((s.mem_aux v).mpr hname)
  have hexpression : ∃ e, Assembly.expression ⟨v, s, (s.groups v).layout⟩ name rhs = .ok e := by
    rw [Assembly.expression]
    split
    · rename_i hvar
      have hhead : rhs.head ∈ s.vars := mem_vars_of_mem_dependencies hrhs (by
        rw [Term.dependencies, if_pos hvar]
        exact List.mem_singleton.mpr rfl)
      obtain ⟨slot, hslot⟩ := s.exists_slot? v hhead
      have hoperand := (Assembly.variableOperand_eq_ok_iff
        (a := ⟨v, s, (s.groups v).layout⟩)).mpr ⟨slot, hslot, rfl⟩
      exact ⟨_, map_eq_ok_iff.mpr ⟨_, hoperand, rfl⟩⟩
    · rename_i hvar
      have hcompound : rhs.isCompound = true :=
        Term.isCompound_iff.mpr (Bool.not_eq_true _ ▸ hvar)
      obtain ⟨args, hargs⟩ := exists_mapM_eq_ok_iff.mpr fun a ha =>
        Assembly.exists_operand (v := v) name (Term.isFlat_iff.mp (hflat name rhs hrhs) a ha)
          fun u hu => mem_vars_of_mem_tail hrhs ha hu
      exact ⟨_, bind_eq_ok_iff.mpr ⟨_, h.element_eq hrhs hcompound _,
        bind_eq_ok_iff.mpr ⟨args, hargs, rfl⟩⟩⟩
  obtain ⟨e, he⟩ := hexpression
  exact ⟨_, Assembly.auxiliary_eq_ok_iff.mpr ⟨rhs, e, i, hrhs, he, hi, rfl⟩⟩

theorem exists_assemble : ∃ p, Program.assemble v s (s.groups v) = .ok p := by
  have hauxiliaries : ∀ names : List Atom, (∀ u ∈ names, u ∈ s.auxNames v) → ∃ statements,
      List.Forall₂ (fun n st => Assembly.auxiliary ⟨v, s, (s.groups v).layout⟩ n = .ok st)
        names statements := fun names hnames => by
    simp only [← mapM_eq_ok_iff]
    exact exists_mapM_eq_ok_iff.mpr fun u hu => h.exists_auxiliary hflat (hnames u hu)
  obtain ⟨values, hvalues⟩ := exists_mapM_eq_ok_iff.mpr fun u hu =>
    h.exists_constantValue ((s.mem_constants v).mp hu) (s.groups v).layout
  obtain ⟨evolutions, hevolutions⟩ := exists_mapM_eq_ok_iff.mpr fun u hu =>
    h.exists_evolution hflat ((s.mem_evolved v).mp hu)
  obtain ⟨sorted, hsorted⟩ := hauxiliaries (s.groups v).auxSorted fun u hu =>
    (s.mem_auxNames_iff v).mpr (.inl hu)
  obtain ⟨cyclic, hcyclic⟩ := hauxiliaries (s.groups v).auxCyclic fun u hu =>
    (s.mem_auxNames_iff v).mpr (.inr (.inl hu))
  obtain ⟨unneeded, hunneeded⟩ := hauxiliaries (s.groups v).auxUnneeded fun u hu =>
    (s.mem_auxNames_iff v).mpr (.inr (.inr hu))
  refine ⟨⟨_, values, _, _, _, _⟩, Program.assemble_eq_ok_iff.mpr
    ⟨evolutions, sorted, cyclic, unneeded, fun u hu => ?_, mapM_eq_ok_iff.mp hvalues,
      mapM_eq_ok_iff.mp hevolutions, hsorted, hcyclic, hunneeded, rfl, rfl, rfl, rfl, rfl⟩⟩
  exact h.bound u ((s.mem_auxNames v).mp ((s.mem_auxiliaries v).mp hu)).1

end WellFormed

end EquationSet

namespace Program.IsAssembled

variable {s : EquationSet} {v : Vocabulary} {name : Atom} {rhs : Term} {p : Program}
  {evolutions : List Assembly.Evolution} {sorted cyclic unneeded : List Statement}
  (h : p.IsAssembled v s (s.groups v) evolutions sorted cyclic unneeded)
include h

theorem exists_auxiliary (hname : name ∈ s.auxNames v) :
    ∃ st, Assembly.auxiliary ⟨v, s, (s.groups v).layout⟩ name = .ok st := by
  rcases (s.mem_auxNames_iff v).mp hname with hmem | hmem | hmem
  · obtain ⟨st, -, hst⟩ := exists_of_forall₂ h.auxSorted hmem
    exact ⟨st, hst⟩
  · obtain ⟨st, -, hst⟩ := exists_of_forall₂ h.auxCyclic hmem
    exact ⟨st, hst⟩
  · obtain ⟨st, -, hst⟩ := exists_of_forall₂ h.auxUnneeded hmem
    exact ⟨st, hst⟩

/-- A constant has its value in the record. -/
theorem constantValue_of_indexOf? {i : Nat}
    (hi : (s.groups v).layout.constants.indexOf? name = some i) :
    ∃ rhs x, s.get? name = some rhs ∧ v.Accepts rhs.head rhs.tail.length ∧
      rhs.tail = [.number x] ∧ p.constantValues[i]? = some x := by
  rw [Record.indexOf?_eq_some_iff, s.fields_constants] at hi
  obtain ⟨x, hx, hvalue⟩ := exists_getElem?_of_forall₂ h.constantValues hi
  obtain ⟨rhs, hrhs, haccepts, htail⟩ := Assembly.constantValue_eq_ok_iff.mp hvalue
  exact ⟨rhs, x, hrhs, haccepts, htail, hx⟩

/-- What is accepted as a parameter is one, with the value that the program uses. -/
theorem isParameter_of_parameter {a : Arg} {role : ParameterRole} {q : Parameter}
    (ha : a.isSimple = true)
    (hq : Assembly.parameter ⟨v, s, (s.groups v).layout⟩ name role a = .ok q) :
    ∃ x, s.IsParameter v a x ∧
      (q = .number x ∨ ∃ i, q = .constant i ∧ p.constantValues[i]? = some x) := by
  cases a with
  | number x =>
    cases hq
    exact ⟨x, .number x, .inl rfl⟩
  | node head tail =>
    rw [Arg.isSimple_node, List.isEmpty_iff] at ha
    subst ha
    obtain ⟨i, hi, rfl⟩ := Assembly.parameter_variable_eq_ok_iff.mp hq
    obtain ⟨c, hc, hparameter⟩ := Assembly.isParameter_of_constantBehind? hi
    obtain ⟨rhs, x, hrhs, -, htail, hx⟩ := h.constantValue_of_indexOf? hc
    obtain ⟨rhs', hrhs', -, hconstant⟩ :=
      (s.mem_constantFields v).mp (Record.exists_indexOf?_iff.mp ⟨i, hc⟩)
    cases Option.some.inj (hrhs.symm.trans hrhs')
    refine ⟨x, hparameter x (.reference hrhs ?_), .inr ⟨i, rfl, hx⟩⟩
    rw [Term.toArg, htail]
    exact .constant x hconstant

/-- A name bound to a constant has one literal. -/
theorem exists_literal (hname : s.Binds v Element.isConstant name) : ∃ rhs x,
    s.get? name = some rhs ∧ v.Accepts rhs.head rhs.tail.length ∧ rhs.tail = [.number x] := by
  obtain ⟨i, hi⟩ := Record.exists_indexOf?_iff.mpr ((s.mem_constantFields v).mpr hname)
  obtain ⟨rhs, x, hrhs, haccepts, htail, -⟩ := h.constantValue_of_indexOf? hi
  exact ⟨rhs, x, hrhs, haccepts, htail⟩

theorem exists_evolution (hname : s.Binds v Element.isEvolving name) : ∃ e,
    Assembly.evolution ⟨v, s, (s.groups v).layout⟩ name = .ok e := by
  obtain ⟨e, -, he⟩ := exists_of_forall₂ h.evolution ((s.mem_evolved v).mpr hname)
  exact ⟨e, he⟩

theorem exists_get?_of_mem_vars (hname : name ∈ s.vars) : ∃ rhs, s.get? name = some rhs := by
  by_cases haux : name ∈ s.auxNames v
  · obtain ⟨st, hst⟩ := h.exists_auxiliary haux
    obtain ⟨rhs, _, _, hrhs, -⟩ := Assembly.auxiliary_eq_ok_iff.mp hst
    exact ⟨rhs, hrhs⟩
  · rw [s.mem_auxNames, not_and_or, not_and_or, not_not, not_not] at haux
    rcases haux with hvars | ⟨rhs, hrhs, -⟩ | ⟨rhs, hrhs, -⟩
    · exact absurd hname hvars
    · exact ⟨rhs, hrhs⟩
    · exact ⟨rhs, hrhs⟩

/-- Whatever group a bound application is in, its element is checked. -/
theorem accepts_of_get? (hrhs : s.get? name = some rhs) (hcompound : rhs.isCompound = true) :
    v.Accepts rhs.head rhs.tail.length := by
  by_cases hc : s.Binds v Element.isConstant name
  · obtain ⟨rhs, x, hrhs', haccepts, -⟩ := h.exists_literal hc
    cases Option.some.inj (hrhs.symm.trans hrhs')
    exact haccepts
  · by_cases he : s.Binds v Element.isEvolving name
    · obtain ⟨e, he⟩ := h.exists_evolution he
      obtain ⟨rhs, _, _, _, _, _, hrhs', haccepts, -⟩ := Assembly.evolution_eq_ok_iff.mp he
      cases Option.some.inj (hrhs.symm.trans hrhs')
      exact haccepts
    · obtain ⟨st, hst⟩ := h.exists_auxiliary
        ((s.mem_auxNames v).mpr ⟨EquationSet.mem_vars_of_get? hrhs, he, hc⟩)
      obtain ⟨rhs, e, _, hrhs', hexpression, -⟩ := Assembly.auxiliary_eq_ok_iff.mp hst
      cases Option.some.inj (hrhs.symm.trans hrhs')
      rcases Assembly.expression_eq_ok_iff.mp hexpression with ⟨hvar, -⟩ | ⟨-, haccepts, -⟩
      · cases hvar.symm.trans (Term.isCompound_iff.mp hcompound)
      · exact haccepts

theorem wellFormed (hflat : ∀ name rhs, s.get? name = some rhs → rhs.isFlat = true) :
    s.WellFormed v := by
  constructor
  case bound =>
    exact fun name hname => Option.isSome_iff_exists.mpr (h.exists_get?_of_mem_vars hname)
  case accepts =>
    intro head tail hpart hne
    obtain ⟨name, hrhs, hcompound⟩ := EquationSet.exists_get?_of_isPart hflat hpart hne
    exact h.accepts_of_get? hrhs hcompound
  case constant =>
    intro head tail hpart hne hc
    obtain ⟨name, hrhs, hcompound⟩ := EquationSet.exists_get?_of_isPart hflat hpart hne
    obtain ⟨rhs, x, hrhs', -, htail⟩ := h.exists_literal ⟨_, hrhs, hcompound, hc⟩
    cases Option.some.inj (hrhs.symm.trans hrhs')
    exact ⟨x, htail⟩
  case evolving =>
    intro head tail hpart hne he
    obtain ⟨name, hrhs, hcompound⟩ := EquationSet.exists_get?_of_isPart hflat hpart hne
    obtain ⟨e, he⟩ := h.exists_evolution ⟨_, hrhs, hcompound, he⟩
    obtain ⟨rhs, initial, step, inputs, _, _, hrhs', -, htail, hinputs, hstep, hinitial, -⟩ :=
      Assembly.evolution_eq_ok_iff.mp he
    cases Option.some.inj (hrhs.symm.trans hrhs')
    have hsimple : ∀ a ∈ initial :: step :: inputs, a.isSimple = true := fun a ha => by
      refine Term.isFlat_iff.mp (hflat name _ hrhs) a ?_
      rwa [← List.mem_reverse, htail]
    obtain ⟨x, hx, -⟩ := h.isParameter_of_parameter (hsimple step (by simp)) hstep
    obtain ⟨y, hy, -⟩ := h.isParameter_of_parameter (hsimple initial (by simp)) hinitial
    exact ⟨initial, step, inputs, htail, hinputs, ⟨x, hx⟩, ⟨y, hy⟩⟩

end Program.IsAssembled

/-- Assembling succeeds for well-formed sets in linear form. -/
theorem EquationSet.exists_assemble_iff {s : EquationSet} {v : Vocabulary}
    (hflat : ∀ name rhs, s.get? name = some rhs → rhs.isFlat = true) :
    (∃ p, Program.assemble v s (s.groups v) = .ok p) ↔ s.WellFormed v := by
  constructor
  · rintro ⟨p, hp⟩
    obtain ⟨_, _, _, _, h⟩ := Program.assemble_eq_ok_iff.mp hp
    exact h.wellFormed hflat
  · exact fun h => h.exists_assemble hflat

end DiffAnalyzer
