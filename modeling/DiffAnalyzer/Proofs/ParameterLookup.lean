import DiffAnalyzer.Proofs.Acceptance
import DiffAnalyzer.Proofs.Checks
import Mathlib

/-!
# Step sizes and initial values behind aliases

The look-up of a parameter follows equations between bare variables, for one name more than there
are equations.  The names on the way to a constant are bound and all different, so no way is too
long (`Assembly.constantBehind?_eq_some_iff`), and the bound only ends the ways that run in
circles.  Whether there is a constant decides whether the parameter stops the assembly
(`Program.assemble_parameter_of_aliases`).
-/

namespace DiffAnalyzer

namespace EquationSet

variable {s : EquationSet} {v : Vocabulary} {name k k' : Atom}

theorem LeadsToConstant.exists_isChain (h : s.LeadsToConstant v name) :
    ∃ path, s.IsChain v name path := by
  obtain ⟨k, hsteps, hconstant⟩ := h
  induction hsteps using Relation.ReflTransGen.head_induction_on with
  | refl => exact ⟨[], hconstant⟩
  | head halias _ ih =>
    obtain ⟨path, hpath⟩ := ih
    exact ⟨_ :: path, halias, hpath⟩

/-- A chain of aliases ends at a constant. -/
theorem eq_of_reflTransGen_isAlias (hk : s.Binds v Element.isConstant k)
    (h : Relation.ReflTransGen s.IsAlias k k') : k = k' := by
  rcases Relation.ReflTransGen.cases_head h with heq | ⟨next, halias, -⟩
  · exact heq
  · obtain ⟨rhs, hrhs, hcompound, -⟩ := hk
    cases Option.some.inj (hrhs.symm.trans halias)
    cases hcompound

/-- At most one constant is behind a name. -/
theorem constant_unique (hk : s.Binds v Element.isConstant k)
    (hk' : s.Binds v Element.isConstant k') (h : Relation.ReflTransGen s.IsAlias name k)
    (h' : Relation.ReflTransGen s.IsAlias name k') : k = k' := by
  have hunique : Relator.RightUnique s.IsAlias := fun u w w' hw hw' => by
    cases Option.some.inj (hw.symm.trans hw')
    rfl
  rcases h.total_of_right_unique hunique h' with hsteps | hsteps
  · exact eq_of_reflTransGen_isAlias hk hsteps
  · exact (eq_of_reflTransGen_isAlias hk' hsteps).symm

end EquationSet

namespace Assembly

variable {s : EquationSet} {v : Vocabulary} {name : Atom} {i steps : Nat}

/-- With as many steps as there are equations the look-up finds the constant behind a name. -/
theorem constantBehind?_eq_some_iff (hsteps : s.size ≤ steps) :
    constantBehind? ⟨v, s, (s.groups v).layout⟩ steps name = some i ↔
      ∃ k, Relation.ReflTransGen s.IsAlias name k ∧
        (s.groups v).layout.constants.indexOf? k = some i := by
  constructor
  · exact exists_alias_of_constantBehind?
  · rintro ⟨k, hk, hi⟩
    have hconstant := (s.mem_constantFields v).mp (Record.exists_indexOf?_iff.mp ⟨i, hi⟩)
    obtain ⟨path, hpath⟩ := EquationSet.LeadsToConstant.exists_isChain ⟨k, hk, hconstant⟩
    obtain ⟨path, hpath, hnodup⟩ := hpath.exists_nodup
    obtain ⟨j, hj⟩ := exists_constantBehind?_of_isChain hpath hnodup
      ((hpath.length_lt hnodup).trans_le hsteps)
    obtain ⟨k', hk', hj'⟩ := exists_alias_of_constantBehind? hj
    have hconstant' := (s.mem_constantFields v).mp (Record.exists_indexOf?_iff.mp ⟨j, hj'⟩)
    cases EquationSet.constant_unique hconstant hconstant' hk hk'
    rw [hj, ← hj', hi]

/-- More steps do not change what is found. -/
theorem constantBehind?_eq (hsteps : s.size ≤ steps) :
    constantBehind? ⟨v, s, (s.groups v).layout⟩ steps name =
      constantBehind? ⟨v, s, (s.groups v).layout⟩ s.size name := by
  ext i
  rw [constantBehind?_eq_some_iff hsteps, constantBehind?_eq_some_iff le_rfl]

end Assembly

/-- The argument of an integrator that has the role. -/
def ParameterRole.argument? (tail : List Arg) : ParameterRole → Option Arg
  | .stepSize => tail.reverse[1]?
  | .initialValue => tail.reverse[0]?

/-- The step sizes or the initial values, by evolved variable. -/
def Program.parameters (p : Program) : ParameterRole → List Parameter
  | .stepSize => p.steps
  | .initialValue => p.initial

namespace Assembly

variable {a : Assembly} {name head : Atom} {role : ParameterRole} {rhs : Term}

theorem argument?_eq_parameter {x : IntegratorArguments} (hx : a.arguments name = .ok x)
    (hrhs : a.equations.get? name = some rhs) :
    role.argument? rhs.tail = some (x.parameter role) := by
  obtain ⟨rhs', hrhs', htail⟩ := arguments_eq_ok hx
  cases Option.some.inj (hrhs.symm.trans hrhs')
  cases role with
  | stepSize => rw [ParameterRole.argument?, htail]; rfl
  | initialValue => rw [ParameterRole.argument?, htail]; rfl

theorem parameter_variable_eq_error
    (h : a.constantBehind? (a.equations.size + 1) head = none) :
    a.parameter name role (.node head []) =
      .error (.shape name (.variableParameter role ⟨head, []⟩)) := by
  rw [parameter, literal?]
  dsimp only
  rw [h]
  rfl

variable {s : EquationSet} {v : Vocabulary} {k : Atom} {i : Nat}

/-- A constant behind a variable is found. -/
theorem parameter_of_constant (hk : Relation.ReflTransGen s.IsAlias head k)
    (hi : (s.groups v).constants[i]? = some k) :
    parameter ⟨v, s, (s.groups v).layout⟩ name role (.node head []) = .ok (.constant i) := by
  rw [← s.fields_constants, ← Record.indexOf?_eq_some_iff] at hi
  exact parameter_variable_eq_ok_iff.mpr
    ⟨i, (constantBehind?_eq_some_iff (Nat.le_succ s.size)).mpr ⟨k, hk, hi⟩, rfl⟩

theorem parameter_of_no_constant
    (h : ∀ k ∈ (s.groups v).constants, ¬ Relation.ReflTransGen s.IsAlias head k) :
    parameter ⟨v, s, (s.groups v).layout⟩ name role (.node head []) =
      .error (.shape name (.variableParameter role ⟨head, []⟩)) := by
  refine parameter_variable_eq_error (Option.eq_none_iff_forall_ne_some.mpr fun i hi => ?_)
  obtain ⟨k, hk, hindex⟩ := exists_alias_of_constantBehind? hi
  have hconstant := Record.exists_indexOf?_iff.mp ⟨i, hindex⟩
  rw [s.fields_constants] at hconstant
  exact h k hconstant hk

end Assembly

section Assemble

variable {v : Vocabulary} {s : EquationSet} {c : Classification} {u head : Atom} {rhs : Term}
  {role : ParameterRole} {j : Nat}

theorem Program.IsAssembled.exists_parameter {p : Program}
    {evolutions : List Assembly.Evolution} {sorted cyclic unneeded : List Statement}
    (h : p.IsAssembled v s c evolutions sorted cyclic unneeded) (hu : c.evolved[j]? = some u)
    (role : ParameterRole) : ∃ rhs x q, s.get? u = some rhs ∧
      role.argument? rhs.tail = some x ∧
      Assembly.parameter ⟨v, s, c.layout⟩ u role x = .ok q ∧
      (p.parameters role)[j]? = some q := by
  obtain ⟨e, he, hevolution⟩ := exists_getElem?_of_forall₂ h.evolution hu
  obtain ⟨rhs, initial, step, inputs, -, -, hrhs, -, htail, -, hstep, hinitial, -⟩ :=
    Assembly.evolution_eq_ok_iff.mp hevolution
  cases role with
  | stepSize =>
    refine ⟨rhs, step, e.step, hrhs, ?_, hstep, ?_⟩
    · rw [ParameterRole.argument?, htail]
      rfl
    · rw [parameters, h.steps, List.getElem?_map, he]
      rfl
  | initialValue =>
    refine ⟨rhs, initial, e.initial, hrhs, ?_, hinitial, ?_⟩
    · rw [ParameterRole.argument?, htail]
      rfl
    · rw [parameters, h.initial, List.getElem?_map, he]
      rfl

/-- The arguments of an integrator are counted before its parameters are looked up. -/
theorem Classification.exists_checks_eq (hu : u ∈ c.evolved) (role : ParameterRole) :
    ∃ before behind, c.checks = before ++ .parameter u role :: behind ∧
      .application u ∈ before := by
  obtain ⟨others, rest, hsplit⟩ := List.append_of_mem hu
  let front : List Check := .bound :: (c.constants.map .constant ++ others.flatMap Check.ofEvolved)
  let back : List Check := rest.flatMap Check.ofEvolved ++ (c.auxSorted.map .auxiliary ++
    (c.auxCyclic.map .auxiliary ++ c.auxUnneeded.map .auxiliary))
  have hchecks : c.checks = front ++ (Check.ofEvolved u ++ back) := by
    simp [checks, hsplit, front, back]
  cases role with
  | stepSize =>
    refine ⟨front ++ [.application u], .parameter u .initialValue :: .inputs u :: back, ?_, by simp⟩
    rw [hchecks, Check.ofEvolved]
    simp
  | initialValue =>
    refine ⟨front ++ [.application u, .parameter u .stepSize], .inputs u :: back, ?_, by simp⟩
    rw [hchecks, Check.ofEvolved]
    simp

theorem Check.run_parameter (hrhs : s.get? u = some rhs) {x : Arg}
    (hx : role.argument? rhs.tail = some x) :
    (parameter u role).run v s c =
        discard (Assembly.parameter ⟨v, s, c.layout⟩ u role x) ∨
      (parameter u role).run v s c = .ok () ∧ ((application u).run v s c).isOk = false := by
  simp only [run]
  cases harguments : Assembly.arguments ⟨v, s, c.layout⟩ u with
  | error e => exact .inr ⟨rfl, rfl⟩
  | ok y =>
    cases hx.symm.trans (Assembly.argument?_eq_parameter harguments hrhs)
    exact .inl rfl

theorem Classification.failing?_ne_of_parameter (hrhs : s.get? u = some rhs) {x : Arg}
    (hx : role.argument? rhs.tail = some x) {q : Parameter}
    (hq : Assembly.parameter ⟨v, s, c.layout⟩ u role x = .ok q) :
    c.failing? v s ≠ some (.parameter u role) := by
  intro hfailing
  obtain ⟨e, he⟩ := c.exists_error_of_failing? v s hfailing
  rcases Check.run_parameter hrhs hx with hrun | ⟨hrun, -⟩
  · rw [hrun, hq] at he
    cases he
  · cases hrun.symm.trans he

/-- A parameter that is refused stops the assembly, unless it is stopped before. -/
theorem Classification.failing?_of_parameter (hu : u ∈ c.evolved) (hrhs : s.get? u = some rhs)
    {x : Arg} (hx : role.argument? rhs.tail = some x) {e : CompileError}
    (he : Assembly.parameter ⟨v, s, c.layout⟩ u role x = .error e) :
    ∃ check e', c.failing? v s = some check ∧ check.run v s c = .error e' ∧
      (check = .parameter u role ∧ e' = e ∨ [check, .parameter u role].Sublist c.checks) := by
  obtain ⟨before, behind, hsplit, happlication⟩ := c.exists_checks_eq hu role
  cases hfind : before.find? fun check => !(check.run v s c).isOk with
  | some check =>
    have hfailing : c.failing? v s = some check := by
      rw [failing?, hsplit, List.find?_append, hfind]
      rfl
    obtain ⟨e', he'⟩ := c.exists_error_of_failing? v s hfailing
    refine ⟨check, e', hfailing, he', .inr ?_⟩
    rw [hsplit]
    exact (List.singleton_sublist.mpr (List.mem_of_find?_eq_some hfind)).append
      (List.singleton_sublist.mpr List.mem_cons_self)
  | none =>
    have hok := List.find?_eq_none.mp hfind _ happlication
    rcases Check.run_parameter hrhs hx with hrun | ⟨-, hfails⟩
    · have hfails : (Check.parameter u role).run v s c = .error e := by
        rw [hrun, he]
        rfl
      refine ⟨.parameter u role, e, ?_, hfails, .inl ⟨rfl, rfl⟩⟩
      rw [failing?, hsplit, List.find?_append, hfind, Option.none_or, List.find?_cons, hfails]
      rfl
    · rw [hfails] at hok
      exact absurd rfl hok

/-- A step size or an initial value that is a variable is looked up along aliases, and the bound
on the steps cuts nothing off.  If they lead to a constant, then to only one; however many they
are, the argument does not stop the assembly, and the program has the index of that constant.
If not, the assembly stops at the argument or before. -/
theorem Program.assemble_parameter_of_aliases (role : ParameterRole)
    (hclassify : s.classify v = .ok c) (hu : c.evolved[j]? = some u)
    (hrhs : s.get? u = some rhs) (hvariable : role.argument? rhs.tail = some (.node head [])) :
    (∀ steps, s.size ≤ steps → Assembly.constantBehind? ⟨v, s, c.layout⟩ steps head =
      Assembly.constantBehind? ⟨v, s, c.layout⟩ s.size head) ∧
    (∀ k i, Relation.ReflTransGen s.IsAlias head k → c.constants[i]? = some k →
      (∀ e, Program.assemble v s c = .error e → ∃ check, c.failing? v s = some check ∧
        check.run v s c = .error e ∧ check ≠ .parameter u role) ∧
      ∀ p, Program.assemble v s c = .ok p → (p.parameters role)[j]? = some (.constant i)) ∧
    ((∀ k ∈ c.constants, ¬ Relation.ReflTransGen s.IsAlias head k) →
      ∃ check e, c.failing? v s = some check ∧ Program.assemble v s c = .error e ∧
        (check = .parameter u role ∧ e = .shape u (.variableParameter role ⟨head, []⟩) ∨
          [check, .parameter u role].Sublist c.checks)) := by
  obtain rfl := s.groups_of_classify v hclassify
  refine ⟨fun steps => Assembly.constantBehind?_eq, fun k i hk hi => ⟨?_, ?_⟩, fun hnone => ?_⟩
  · intro e he
    obtain ⟨check, hfailing, hrun⟩ := (Program.assemble_eq_error_iff v s _).mp he
    refine ⟨check, hfailing, hrun, ?_⟩
    rintro rfl
    exact Classification.failing?_ne_of_parameter hrhs hvariable
      (Assembly.parameter_of_constant hk hi) hfailing
  · intro p hp
    obtain ⟨_, _, _, _, h⟩ := Program.assemble_eq_ok_iff.mp hp
    obtain ⟨rhs', x, q, hrhs', hx, hq, hj⟩ := h.exists_parameter hu role
    cases Option.some.inj (hrhs.symm.trans hrhs')
    cases hvariable.symm.trans hx
    cases (Assembly.parameter_of_constant hk hi).symm.trans hq
    exact hj
  · obtain ⟨check, e, hfailing, hrun, hstops⟩ := Classification.failing?_of_parameter
      (List.mem_of_getElem? hu) hrhs hvariable (Assembly.parameter_of_no_constant hnone)
    exact ⟨check, e, hfailing,
      (Program.assemble_eq_error_iff v s _).mpr ⟨check, hfailing, hrun⟩, hstops⟩

end Assemble

namespace EquationSet

/-- The circuit `dt = const(0.5)`, `g = dt`, `h = g`, `y = int(y, h, 1)`. -/
def aliasChain : EquationSet :=
  let dt : Atom := ⟨['d', 't'], .refl true⟩
  let g : Atom := ⟨['g'], .refl true⟩
  let h : Atom := ⟨['h'], .refl true⟩
  let y : Atom := ⟨['y'], .refl true⟩
  .ofList [(dt, ⟨Element.const.name, [.number ⟨0x3fe0000000000000⟩]⟩), (g, .var dt), (h, .var g),
    (y, ⟨Element.int.name, [.node y [], .node h [], .number ⟨0x3ff0000000000000⟩]⟩)]

/-- The circuit `g = h`, `h = g`, `y = int(y, 0.5, g)`. -/
def aliasCircle : EquationSet :=
  let g : Atom := ⟨['g'], .refl true⟩
  let h : Atom := ⟨['h'], .refl true⟩
  let y : Atom := ⟨['y'], .refl true⟩
  .ofList [(g, .var h), (h, .var g),
    (y, ⟨Element.int.name, [.node y [], .number ⟨0x3fe0000000000000⟩, .node g []]⟩)]

theorem assemble_parameter_of_aliases_chain_circle :
    let c := aliasChain.groups .standard
    let d := aliasCircle.groups .standard
    (∃ p, Program.assemble .standard aliasChain c = .ok p ∧
      (p.parameters .stepSize)[0]? = some (.constant 0)) ∧
    ∃ check e, d.failing? .standard aliasCircle = some check ∧
      Program.assemble .standard aliasCircle d = .error e ∧
      (check = .parameter ⟨['y'], .refl true⟩ .initialValue ∧
          e = .shape ⟨['y'], .refl true⟩
            (.variableParameter .initialValue ⟨⟨['g'], .refl true⟩, []⟩) ∨
        [check, .parameter ⟨['y'], .refl true⟩ .initialValue].Sublist d.checks) := by
  intro c d
  have hh : aliasChain.get? ⟨['h'], .refl true⟩ = some (.var ⟨['g'], .refl true⟩) := rfl
  have hg : aliasChain.get? ⟨['g'], .refl true⟩ = some (.var ⟨['d', 't'], .refl true⟩) := rfl
  have hconstants : d.constants = [] := rfl
  obtain ⟨-, hconstant, -⟩ := Program.assemble_parameter_of_aliases .stepSize
    (aliasChain.classify_eq .standard) (u := ⟨['y'], .refl true⟩) (j := 0) rfl rfl rfl
  obtain ⟨-, -, hcircle⟩ := Program.assemble_parameter_of_aliases .initialValue
    (aliasCircle.classify_eq .standard) (u := ⟨['y'], .refl true⟩) (j := 0) rfl rfl rfl
  refine ⟨⟨_, rfl, (hconstant _ 0 (.head hh (.single hg)) rfl).2 _ rfl⟩, hcircle fun k hk => ?_⟩
  rw [hconstants] at hk
  cases hk

end EquationSet

end DiffAnalyzer
