import DiffAnalyzer.Circuit
import DiffAnalyzer.Proofs.Compilation
import DiffAnalyzer.Proofs.Correspondence
import Mathlib

/-!
# Naming does not change a simulation

The linear forms of a circuit differ in which applications have names of their own, and
so in the fields of their programs.  As names that state one application correspond, the
variables of the circuit have the same values in both simulations
(`Circuit.strictNaming_agrees`).
-/

namespace DiffAnalyzer

open Simulator

variable {V : Type}

/-- The variables of the source have the same values after any number of steps. -/
theorem exists_agreeing_runs {s l l' : EquationSet} {v : Vocabulary} {n n' : Naming}
    {p p' : Program} (h : Compiled s v l n p) (h' : Compiled s v l' n' p') (I : Interpretation V)
    (scheme : Scheme) (m : Nat) :
    ∃ sim sim', (settleAfter I scheme m).run (ofProgram I p) = (.ok (), sim) ∧
      (settleAfter I scheme m).run (ofProgram I p') = (.ok (), sim') ∧
      ∀ name ∈ s.vars, ∃ y,
        sim.value? (toString name) = some y ∧ sim'.value? (toString name) = some y := by
  have hsame : EquationSet.SameButConstants v s s l l' n n' fun _ => False :=
    ⟨h.linear, h'.linear, h.wellFormed, fun _ _ => rfl, fun _ _ _ _ _ _ _ => False.elim,
      fun _ _ _ _ _ _ _ => id⟩
  have hmatching : Matching v I l l' p p' (ofProgram I p).constants (ofProgram I p').constants
      (EquationSet.Corresponds s s l l' n n' fun _ => False) :=
    hsame.matching h.isLoopFree h'.isLoopFree (fun _ _ _ _ => rfl) nofun
  obtain ⟨sim, sim', hrun, hrun', hvalue⟩ := hmatching.exists_runs
    (fits_ofProgram h.isLoopFree.isConsistent) (fits_ofProgram h'.isLoopFree.isConsistent) rfl rfl
    h.isSupported h'.isSupported scheme m
  obtain ⟨strict, hn⟩ := h.linear
  obtain ⟨strict', hn'⟩ := h'.linear
  exact ⟨sim, sim', hrun, hrun', fun name hname => hvalue name name (.source hname)
    (hn.mem_vars_of_mem_vars hname) (hn'.mem_vars_of_mem_vars hname)⟩

namespace Circuit

variable {c : Circuit} {o : CompileOptions} {l : EquationSet} {r : Compilation}

/-- What is left of compiling a circuit once it is in linear form. -/
theorem compile_of_linearize (hl : c.equations.linearize o.strictNaming = .ok l) :
    c.compile o =
      if o.denyCyclic = true ∧ (l.groups o.vocabulary).auxCyclic ≠ [] then
        .error (.cyclicAuxiliary (l.groups o.vocabulary).auxCyclic)
      else (fun p => ⟨l, l.groups o.vocabulary, p⟩) <$>
        Program.assemble o.vocabulary l (l.groups o.vocabulary) := by
  have hdeny : (o.denyCyclic && !(l.groups o.vocabulary).auxCyclic.isEmpty) = true ↔
      o.denyCyclic = true ∧ (l.groups o.vocabulary).auxCyclic ≠ [] := by
    rw [Bool.and_eq_true, Bool.not_eq_true', ← Bool.not_eq_true, List.isEmpty_iff]
  unfold compile
  rw [hl]
  dsimp only [bind, Except.bind]
  rw [l.classify_eq]
  dsimp only
  by_cases hrefused : o.denyCyclic = true ∧ (l.groups o.vocabulary).auxCyclic ≠ []
  · rw [if_pos (hdeny.mpr hrefused), if_pos hrefused]
    rfl
  · rw [if_neg (mt hdeny.mp hrefused), if_neg hrefused]
    cases Program.assemble o.vocabulary l (l.groups o.vocabulary) <;> rfl

theorem compile_eq_ok_iff : c.compile o = .ok r ↔ ∃ l p,
    c.equations.linearize o.strictNaming = .ok l ∧
      (o.denyCyclic = true → (l.groups o.vocabulary).auxCyclic = []) ∧
      Program.assemble o.vocabulary l (l.groups o.vocabulary) = .ok p ∧
      r = ⟨l, l.groups o.vocabulary, p⟩ := by
  constructor
  · intro h
    obtain ⟨l, hl, -⟩ := bind_eq_ok_iff.mp h
    rw [compile_of_linearize hl] at h
    split at h
    case isTrue => cases h
    case isFalse hallowed =>
      obtain ⟨p, hp, rfl⟩ := map_eq_ok_iff.mp h
      refine ⟨l, p, hl, fun hdeny => ?_, hp, rfl⟩
      by_contra hcyclic
      exact hallowed ⟨hdeny, hcyclic⟩
  · rintro ⟨l, p, hl, hallowed, hp, rfl⟩
    rw [compile_of_linearize hl, if_neg fun h => h.2 (hallowed h.1), hp]
    rfl

/-- What compiles without loops is a loop-free program of a linear form. -/
theorem exists_isLoopFree (hcompile : c.compile o = .ok r)
    (hcyclic : r.classification.auxCyclic = []) :
    ∃ n, EquationSet.IsLinearization o.strictNaming c.equations r.linearized n ∧
      r.program.IsLoopFree o.vocabulary r.linearized := by
  obtain ⟨l, p, hl, -, hassemble, rfl⟩ := compile_eq_ok_iff.mp hcompile
  obtain ⟨n, hn⟩ := EquationSet.exists_isLinearization hl
  exact ⟨n, hn, fun _ _ => hn.isFlat, Program.assemble_eq_ok_iff.mp hassemble, hcyclic⟩

/-- A circuit that can be linearized compiles when it is well-formed and has no loops that
are refused. -/
theorem exists_compile_iff (hl : c.equations.linearize o.strictNaming = .ok l) :
    (∃ r, c.compile o = .ok r) ↔ c.equations.WellFormed o.vocabulary ∧
      (o.denyCyclic = true → (l.groups o.vocabulary).auxCyclic = []) := by
  obtain ⟨n, hn⟩ := EquationSet.exists_isLinearization hl
  rw [← hn.wellFormed_iff, ← EquationSet.exists_assemble_iff fun _ _ => hn.isFlat]
  constructor
  · rintro ⟨r, hr⟩
    obtain ⟨l', p, hl', hallowed, hp, -⟩ := compile_eq_ok_iff.mp hr
    cases hl.symm.trans hl'
    exact ⟨⟨p, hp⟩, hallowed⟩
  · rintro ⟨⟨p, hp⟩, hallowed⟩
    exact ⟨_, compile_eq_ok_iff.mpr ⟨l, p, hl, hallowed, hp, rfl⟩⟩

/-- Whether outermost applications are named too changes neither whether a circuit
compiles nor the values in a simulation. -/
theorem strictNaming_agrees (c : Circuit) (o : CompileOptions)
    (hlinear : ∀ strict, ∃ l, c.equations.linearize strict = .ok l) :
    ((∃ r, c.compile { o with strictNaming := true } = .ok r) ↔
      ∃ r, c.compile { o with strictNaming := false } = .ok r) ∧
    ∀ r r', c.compile { o with strictNaming := true } = .ok r →
      c.compile { o with strictNaming := false } = .ok r' →
      r.classification.auxCyclic = [] → c.equations.IsSupported o.vocabulary →
      ∀ {V : Type} (I : Interpretation V) (scheme : Scheme) (m : Nat), ∃ sim sim',
        (settleAfter I scheme m).run (ofProgram I r.program) = (.ok (), sim) ∧
        (settleAfter I scheme m).run (ofProgram I r'.program) = (.ok (), sim') ∧
        ∀ name ∈ c.equations.vars, ∃ y,
          sim.value? (toString name) = some y ∧ sim'.value? (toString name) = some y := by
  obtain ⟨l, hl⟩ := hlinear true
  obtain ⟨l', hl'⟩ := hlinear false
  obtain ⟨n, hn⟩ := EquationSet.exists_isLinearization hl
  obtain ⟨n', hn'⟩ := EquationSet.exists_isLinearization hl'
  constructor
  · rw [exists_compile_iff (o := { o with strictNaming := true }) hl,
      exists_compile_iff (o := { o with strictNaming := false }) hl']
    refine and_congr_right fun hwellFormed => imp_congr_right fun _ => ?_
    exact ⟨hn.auxCyclic_eq_nil hn' hwellFormed.bound, hn'.auxCyclic_eq_nil hn hwellFormed.bound⟩
  · intro r r' hr hr' hcyclic hsupported V I scheme m
    obtain ⟨_, p, hlp, -, hp, rfl⟩ := compile_eq_ok_iff.mp hr
    obtain ⟨_, p', hlp', -, hp', rfl⟩ := compile_eq_ok_iff.mp hr'
    cases hl.symm.trans hlp
    cases hl'.symm.trans hlp'
    have h : Compiled c.equations o.vocabulary l n p :=
      ⟨⟨true, hn⟩, Program.assemble_eq_ok_iff.mp hp, hcyclic, hsupported⟩
    have hcyclic' := hn.auxCyclic_eq_nil hn' h.wellFormed.bound hcyclic
    have h' : Compiled c.equations o.vocabulary l' n' p' :=
      ⟨⟨false, hn'⟩, Program.assemble_eq_ok_iff.mp hp', hcyclic', hsupported⟩
    exact exists_agreeing_runs h h' I scheme m

theorem isSupported_decay : decay.IsSupported .standard := by
  have hparts : ∀ a, decay.IsPart a → a = .node Element.int.name [.node Element.neg.name
      [.node ⟨['x'], by decide⟩ []], .number ⟨0x3ff0000000000000⟩, .number ⟨0x3ff0000000000000⟩] ∨
      a = .node Element.neg.name [.node ⟨['x'], by decide⟩ []] ∨ a.isSimple = true := by
    intro a ha
    induction ha with
    | @whole name rhs hrhs =>
      obtain ⟨-, rfl⟩ := Prod.mk.inj (List.mem_singleton.mp (SortedMap.get?_eq_some_iff.mp hrhs))
      exact .inl rfl
    | @argument head tail a _ ha ih =>
      rcases ih with heq | heq | hsimple
      · cases heq
        simp only [List.mem_cons, List.not_mem_nil, or_false] at ha
        rcases ha with rfl | rfl | rfl
        · exact .inr (.inl rfl)
        · exact .inr (.inr rfl)
        · exact .inr (.inr rfl)
      · cases heq
        obtain rfl := List.mem_singleton.mp ha
        exact .inr (.inr rfl)
      · rw [Arg.isSimple_node, List.isEmpty_iff] at hsimple
        exact absurd hsimple (List.ne_nil_of_mem ha)
  intro head tail hpart hne
  rcases hparts _ hpart with heq | heq | hsimple
  · cases heq
    rfl
  · cases heq
    rfl
  · rw [Arg.isSimple_node, List.isEmpty_iff] at hsimple
    exact absurd hsimple hne

theorem strictNaming_agrees_decay :
    let c : Circuit := ⟨decay, ∅⟩
    ∃ r r', c.compile { strictNaming := true } = .ok r ∧ c.compile {} = .ok r' ∧
      r.classification.auxCyclic = [] ∧ decay.IsSupported .standard ∧ ∃ sim sim',
        (settleAfter additiveIntegers .classic4 2).run (ofProgram additiveIntegers r.program) =
          (.ok (), sim) ∧
        (settleAfter additiveIntegers .classic4 2).run (ofProgram additiveIntegers r'.program) =
          (.ok (), sim') ∧
        ∀ name ∈ decay.vars, ∃ y,
          sim.value? (toString name) = some y ∧ sim'.value? (toString name) = some y := by
  have hlinear : ∀ strict, ∃ l, decay.linearize strict = .ok l := by
    rintro (_ | _)
    · exact ⟨_, rfl⟩
    · exact ⟨_, rfl⟩
  refine ⟨_, _, rfl, rfl, rfl, isSupported_decay, ?_⟩
  exact (strictNaming_agrees ⟨decay, ∅⟩ {} hlinear).2 _ _ rfl rfl rfl isSupported_decay
    additiveIntegers .classic4 2

end Circuit

end DiffAnalyzer
