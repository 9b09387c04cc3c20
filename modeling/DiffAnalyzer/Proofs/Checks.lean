import DiffAnalyzer.Proofs.Assembly
import Mathlib

/-!
# The order of checks

When a program is assembled, checks are made one after the other (`Classification.checks`), and
the first that fails stops it (`Program.assemble_eq_error_iff`).  First all auxiliaries must be
bound.  Then come the constants, the evolved variables with their parameters, and the auxiliaries
in the order of their groups.
-/

namespace DiffAnalyzer

/-- The arguments of an integrator. -/
structure IntegratorArguments where
  inputs : List Arg
  step : Arg
  initial : Arg

def IntegratorArguments.parameter (x : IntegratorArguments) : ParameterRole → Arg
  | .stepSize => x.step
  | .initialValue => x.initial

namespace Assembly

variable (a : Assembly) (name : Atom)

/-- The arguments of the integrator that the name is bound to, if there are enough. -/
def arguments : Except CompileError IntegratorArguments := do
  let rhs ← a.rhs name
  let element ← a.element name rhs
  match rhs.tail.reverse with
  | initial :: step :: input :: inputs => pure ⟨(input :: inputs).reverse, step, initial⟩
  | _ => throw (.shape name (.fewArguments element rhs))

/-- The derivative of the name has a field, and the inputs have operands. -/
def checkInputs (x : IntegratorArguments) : Except CompileError Unit := do
  let _ ← fieldIndex a.layout.state name
  discard (x.inputs.mapM (a.operand name))

variable {a name}

theorem arguments_eq_ok {x : IntegratorArguments} (h : a.arguments name = .ok x) :
    ∃ rhs, a.equations.get? name = some rhs ∧
      rhs.tail.reverse = x.initial :: x.step :: x.inputs.reverse := by
  obtain ⟨rhs, hrhs, h⟩ := bind_eq_ok_iff.mp h
  obtain ⟨element, -, h⟩ := bind_eq_ok_iff.mp h
  split at h
  case h_1 initial step input inputs htail =>
    cases h
    rw [List.reverse_reverse]
    exact ⟨rhs, rhs_eq_ok_iff.mp hrhs, htail⟩
  case h_2 => cases h

variable (a name)

/-- An evolved variable fails with the first of its parts that does. -/
theorem discard_evolution : discard (a.evolution name) = a.arguments name >>= fun x =>
    discard (a.parameter name .stepSize x.step) >>= fun _ =>
      discard (a.parameter name .initialValue x.initial) >>= fun _ => a.checkInputs name x := by
  unfold evolution arguments
  cases a.rhs name with
  | error e => rfl
  | ok rhs =>
    change discard (a.element name rhs >>= _) = (a.element name rhs >>= _) >>= _
    cases a.element name rhs with
    | error e => rfl
    | ok element =>
      rcases rhs.tail.reverse with _ | ⟨initial, _ | ⟨step, _ | ⟨input, inputs⟩⟩⟩
      · rfl
      · rfl
      · rfl
      · change discard (a.parameter name .stepSize step >>= _) =
          discard (a.parameter name .stepSize step) >>= _
        refine discard_bind fun _ => discard_bind fun _ => ?_
        unfold checkInputs
        cases fieldIndex a.layout.state name with
        | error e => rfl
        | ok index => exact discard_bind_pure

end Assembly

/-- What is checked when a program is assembled. -/
inductive Check where
  /-- Every auxiliary is bound. -/
  | bound
  /-- The name is bound to a literal. -/
  | constant (name : Atom)
  /-- The name is bound to a known element with enough arguments. -/
  | application (name : Atom)
  | parameter (name : Atom) (role : ParameterRole)
  | inputs (name : Atom)
  | auxiliary (name : Atom)
deriving DecidableEq

namespace Check

/-- The arguments of an integrator are looked at only if there are enough of them. -/
def run (v : Vocabulary) (s : EquationSet) (c : Classification) (check : Check) :
    Except CompileError Unit :=
  let a : Assembly := ⟨v, s, c.layout⟩
  match check with
  | bound =>
    match c.auxiliaries.find? fun name => !s.contains name with
    | some name => throw (.undefinedVariable name)
    | none => pure ()
  | constant name => discard (a.constantValue name)
  | application name => discard (a.arguments name)
  | parameter name role =>
    match a.arguments name with
    | .ok x => discard (a.parameter name role (x.parameter role))
    | .error _ => pure ()
  | inputs name =>
    match a.arguments name with
    | .ok x => a.checkInputs name x
    | .error _ => pure ()
  | auxiliary name => discard (a.auxiliary name)

/-- The checks of an evolved variable. -/
def ofEvolved (name : Atom) : List Check :=
  [application name, parameter name .stepSize, parameter name .initialValue, inputs name]

end Check

namespace Classification

variable (c : Classification) (v : Vocabulary) (s : EquationSet)

/-- The checks in their order. -/
def checks : List Check :=
  .bound :: (c.constants.map .constant ++ (c.evolved.flatMap Check.ofEvolved ++
    (c.auxSorted.map .auxiliary ++ (c.auxCyclic.map .auxiliary ++
      c.auxUnneeded.map .auxiliary))))

/-- The first check that fails. -/
def failing? : Option Check := c.checks.find? fun check => !(check.run v s c).isOk

end Classification

variable (v : Vocabulary) (s : EquationSet) (c : Classification)

namespace Check

theorem forM_constant (names : List Atom) : forM (names.map constant) (run v s c) =
    discard (names.mapM (Assembly.constantValue ⟨v, s, c.layout⟩)) := by
  rw [List.forM_map, discard_mapM]
  rfl

theorem forM_ofEvolved (name : Atom) : forM (ofEvolved name) (run v s c) =
    discard (Assembly.evolution ⟨v, s, c.layout⟩ name) := by
  rw [Assembly.discard_evolution, ofEvolved]
  simp only [List.forM_cons, List.forM_nil, bind_pure_unit, run]
  cases Assembly.arguments ⟨v, s, c.layout⟩ name with
  | error e => rfl
  | ok x => rfl

theorem forM_evolved (names : List Atom) : forM (names.flatMap ofEvolved) (run v s c) =
    discard (names.mapM (Assembly.evolution ⟨v, s, c.layout⟩)) := by
  simp only [forM_flatMap, forM_ofEvolved, discard_mapM]

theorem forM_auxiliary (part : Section) (names : List Atom) :
    forM (names.map auxiliary) (run v s c) =
      discard (Assembly.auxBlock ⟨v, s, c.layout⟩ part names) := by
  rw [List.forM_map, Assembly.auxBlock, discard_bind_pure, discard_mapM]
  rfl

end Check

/-- Assembling makes the checks in their order. -/
theorem Program.discard_assemble :
    discard (Program.assemble v s c) = forM c.checks (Check.run v s c) := by
  rw [Classification.checks, List.forM_cons, assemble, Check.run]
  cases c.auxiliaries.find? fun name => !s.contains name with
  | some name => rfl
  | none =>
    simp only [pure_bind, List.forM_append]
    rw [Check.forM_constant, Check.forM_evolved, Check.forM_auxiliary v s c .auxSorted,
      Check.forM_auxiliary v s c .auxCyclic, Check.forM_auxiliary v s c .auxUnneeded]
    refine discard_bind fun values => discard_bind fun evolutions => ?_
    exact discard_bind fun sorted => discard_bind fun cyclic => discard_bind_pure

theorem Classification.exists_error_of_failing? {check : Check}
    (h : c.failing? v s = some check) : ∃ e, check.run v s c = .error e := by
  have hfails := List.find?_some h
  cases hrun : check.run v s c with
  | error e => exact ⟨e, rfl⟩
  | ok =>
    rw [hrun] at hfails
    cases hfails

/-- Assembling fails with what the first check fails with that does. -/
theorem Program.assemble_eq_error_iff {e : CompileError} : Program.assemble v s c = .error e ↔
    ∃ check, c.failing? v s = some check ∧ check.run v s c = .error e := by
  rw [← discard_eq_error_iff, discard_assemble, forM_eq_error_iff, Classification.failing?]

end DiffAnalyzer
