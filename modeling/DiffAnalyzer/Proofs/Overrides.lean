import DiffAnalyzer.Proofs.Runs
import DiffAnalyzer.Proofs.StrictNaming
import Mathlib

/-!
# Overriding a constant

An override replaces the value of a constant in the program, an edit replaces its literal
in the source, before equal applications get one name.  Both have the same effect
(`Circuit.override_eq_redefine`), unless the constant is written out as an argument too
and the overridden equation is the first that states it: the argument then goes by the
name of that equation and follows the override, but not the edit
(`Circuit.override_reaches_argument`).
-/

namespace DiffAnalyzer

open Simulator

/-- A number as an explicit constant. -/
def Term.const (x : Number) : Term := ⟨Element.const.name, [.number x]⟩

namespace EquationSet

variable {s s' l l' : EquationSet} {n n' : Naming} {strict : Bool} {name k : Atom} {t : Term}
  {u x : Number}

/-- An application goes by the first name that states it. -/
theorem not_lt_of_stated (h : (s.statedNames strict).lookup t = some name)
    (hk : s.get? k = some t) (hkeeps : keepsRoot strict k t = true) : compare k name ≠ .lt := by
  obtain ⟨-, hcompound, hflat, -⟩ := stated_of_lookup h
  have hsorted : (s.statedNames strict).Pairwise fun a b => compare a.2 b.2 = .lt :=
    List.pairwise_map.mpr (s.sorted.filter _)
  have hmem : (t, k) ∈ s.statedNames strict := by
    refine List.mem_map.mpr ⟨(k, t), List.mem_filter.mpr ⟨SortedMap.get?_eq_some_iff.mp hk, ?_⟩, rfl⟩
    simp [hcompound, hflat, hkeeps]
  obtain ⟨before, after, hnames, hbefore⟩ := List.lookup_eq_some_iff.mp h
  rw [hnames] at hsorted hmem
  intro hlt
  -- the names come in order, so that `k` can be neither before nor behind the one found
  rcases List.mem_append.mp hmem with hmem | hmem
  · exact bne_iff_ne.mp (hbefore _ hmem) rfl
  · rcases List.mem_cons.mp hmem with heq | hmem
    · cases heq
      exact SortedMap.ne_of_compare_lt hlt rfl
    · have hlt' := (List.pairwise_cons.mp (List.pairwise_append.mp hsorted).2.1).1 _ hmem
      exact SortedMap.ne_of_compare_lt (Std.TransCmp.lt_trans hlt hlt') rfl

namespace IsLinearization

/-- Unless naming is strict, applications keep their equations. -/
theorem get?_eq_flat (h : IsLinearization false s l n) (hname : s.get? name = some t) :
    l.get? name = some (n.flat t.head t.tail) :=
  h.get?_of_keepsRoot hname rfl

/-- What is replaced by a name bound to a constant is that constant, written out. -/
theorem eq_const_of_replace (h : IsLinearization false s l n) (hk : s.get? k = some (.const u))
    {a : Arg} (hne : ∀ w, a ≠ .node w []) (ha : a.replace n.standIn = .node k []) :
    a = (Term.const u).toArg ∧ ∀ j, s.get? j = some (.const u) → compare j k ≠ .lt := by
  cases a with
  | number y => cases ha
  | node head tail =>
    have hnil : tail ≠ [] := fun hnil => hne head (hnil ▸ rfl)
    obtain ⟨w, hw⟩ := n.exists_lookup_of_isSimple hnil (by rw [ha]; rfl)
    have hstand := Naming.standIn_of_lookup (n.isCompound_flat head hnil) hw
    rw [Naming.flat] at hstand
    rw [Arg.replace_node, hstand] at ha
    cases ha
    have hflat : n.flat head tail = .const u :=
      Option.some.inj ((h.get?_of_lookup hw).1.symm.trans (h.get?_eq_flat hk))
    obtain ⟨rfl, htail⟩ := Term.mk.inj hflat
    rw [map_replace_eq_singleton_iff] at htail
    subst htail
    refine ⟨rfl, fun j hj => ?_⟩
    rcases h.isSound.stated_or_fresh _ _ hw with hstated | hfresh
    · exact not_lt_of_stated hstated hj rfl
    · exact absurd (mem_vars_of_get? hk) (h.isSound.not_used _ _ hfresh)

end IsLinearization

/-- Where the constant is written out as an argument, it goes by a name before `k`. -/
def IsNamedBefore (s : EquationSet) (k : Atom) (u : Number) : Prop :=
  ∀ head tail, s.IsPart (.node head tail) → (Term.const u).toArg ∈ tail →
    ∃ j, compare j k = .lt ∧ s.get? j = some (.const u)

/-- Sets in which a name is bound to different constants. -/
structure DiffersInConstant (s s' : EquationSet) (k : Atom) (u x : Number) : Prop where
  left : s.get? k = some (.const u)
  right : s'.get? k = some (.const x)
  get?_eq : ∀ name, name ≠ k → s'.get? name = s.get? name

namespace DiffersInConstant

theorem symm (h : DiffersInConstant s s' k u x) : DiffersInConstant s' s k x u :=
  ⟨h.right, h.left, fun name hname => (h.get?_eq name hname).symm⟩

theorem insert (hk : s.get? k = some (.const u)) (x : Number) :
    DiffersInConstant s (s.insert k (.const x)) k u x where
  left := hk
  right := (SortedMap.get?_insert ..).trans (if_pos rfl)
  get?_eq _ hname := (SortedMap.get?_insert ..).trans (if_neg hname)

variable (h : DiffersInConstant s s' k u x)
include h

theorem isPart {a : Arg} (ha : s.IsPart a) :
    s'.IsPart a ∨ a = (Term.const u).toArg ∨ a = .number u := by
  induction ha with
  | @whole name rhs hrhs =>
    by_cases hname : name = k
    · subst hname
      cases hrhs.symm.trans h.left
      exact .inr (.inl rfl)
    · exact .inl (.whole ((h.get?_eq name hname).trans hrhs))
  | @argument head tail a _ ha ih =>
    rcases ih with hpart | heq | heq
    · exact .inl (.argument hpart ha)
    · cases heq
      exact .inr (.inr (List.mem_singleton.mp ha))
    · cases heq

theorem isSupported (hs : s'.IsSupported .standard) : s.IsSupported .standard := by
  intro head tail hpart hne
  rcases h.isPart hpart with hpart | heq | heq
  · exact hs head tail hpart hne
  · cases heq
    rfl
  · cases heq

theorem mem_vars (hs : s.WellFormed .standard) (hname : name ∈ s.vars) : name ∈ s'.vars := by
  obtain ⟨rhs, hrhs⟩ := Option.isSome_iff_exists.mp (hs.bound name hname)
  by_cases hk : name = k
  · subst hk
    exact mem_vars_of_get? h.right
  · exact mem_vars_of_get? ((h.get?_eq name hk).trans hrhs)

/-- The linear forms correspond in all but the constant, if no argument goes by its name. -/
theorem sameButConstants (hn : IsLinearization false s l n) (hn' : IsLinearization false s' l' n')
    (hs : s.WellFormed .standard) (hnamed : u ≠ x → s.IsNamedBefore k u) :
    SameButConstants .standard s s' l l' n n' fun name => name = k ∧ u ≠ x where
  left := ⟨false, hn⟩
  right := ⟨false, hn'⟩
  wellFormed := hs
  get?_eq name hfree := by
    by_cases hname : name = k
    · obtain rfl := not_not.mp fun hne => hfree ⟨hname, hne⟩
      rw [hname, h.left, h.right]
    · exact h.get?_eq name hname
  argument := by
    rintro head tail a w hpart ha hreplace ⟨rfl, hne⟩
    by_contra hcompound
    have hvariable : ∀ z, a ≠ .node z [] := by
      rintro z rfl
      rw [n.replace_of_isSimple rfl] at hreplace
      exact hcompound hreplace
    obtain ⟨rfl, hfirst⟩ := hn.eq_const_of_replace h.left hvariable hreplace
    obtain ⟨j, hlt, hj⟩ := hnamed hne head tail hpart ha
    exact hfirst j hj hlt
  root := by
    -- an application keeps its equation, so that it leads to no other name
    rintro name rhs w hrhs hcompound hfree hleads ⟨rfl, hne⟩
    rcases hleads with halias | ⟨rfl, -⟩
    · have hflat := n.isCompound_flat rhs.head (Term.isCompound_iff_ne_nil.mp hcompound)
      rw [Option.some.inj ((hn.get?_eq_flat hrhs).symm.trans halias)] at hflat
      cases hflat
    · exact hfree ⟨rfl, hne⟩

/-- With the override in place the names correspond in their values. -/
theorem matching {V : Type} {I : Interpretation V} {p p' : Program} {i : Nat}
    (hn : IsLinearization false s l n) (hn' : IsLinearization false s' l' n')
    (hs : s.WellFormed .standard) (hnamed : u ≠ x → s.IsNamedBefore k u)
    (hp : p.IsLoopFree .standard l) (hp' : p'.IsLoopFree .standard l')
    (hi : (l.groups .standard).layout.constants.indexOf? k = some i) :
    Matching .standard I l l' p p' ((p.constantValues.map I.literal).set i (I.literal x))
      (p'.constantValues.map I.literal)
      (Corresponds s s' l l' n n' fun name => name = k ∧ u ≠ x) := by
  obtain ⟨i', hi', hu⟩ := hp.exists_constant (hn.get?_eq_flat h.left) rfl
  cases hi.symm.trans hi'
  obtain ⟨j, hj, hx⟩ := hp'.exists_constant (hn'.get?_eq_flat h.right) rfl
  have hset : ((p.constantValues.map I.literal).set i (I.literal x))[i]? = some (I.literal x) := by
    rw [List.getElem?_set_self', List.getElem?_map, hu]
    rfl
  refine (h.sameButConstants hn hn' hs hnamed).matching hp hp' ?constants ?exempt
  case constants =>
    intro name m hfree hm
    by_cases hmi : i = m
    · subst hmi
      rw [Record.indexOf?_eq_some_iff] at hi hm
      cases hi.symm.trans hm
      obtain rfl := not_not.mp fun hne => hfree ⟨rfl, hne⟩
      rw [hset, List.getElem?_map, hu]
      rfl
    · exact List.getElem?_set_ne hmi
  case exempt =>
    rintro name ⟨rfl, -⟩
    refine ⟨i, j, hi, hj, ?_⟩
    rw [hset, List.getElem?_map, hx]
    rfl

end DiffersInConstant

end EquationSet

namespace Simulator

variable {V : Type} {I : Interpretation V} {p : Program} {sim : Simulator V}

/-- A run that ends with an evaluation succeeds for supported elements only. -/
theorem isSupported_of_settleAfter {scheme : Scheme} {m : Nat} (hfits : Fits p sim)
    (h : ((settleAfter I scheme m).run sim).1 = .ok ()) :
    ∀ st ∈ p.statements, st.expr.IsSupported := by
  obtain ⟨_, sim', hadvance, h⟩ := exists_of_run_bind_ok h
  have hfits' := keeps_fits_advance (I := I) scheme m sim hfits
  rw [hadvance] at hfits'
  obtain ⟨_, _, hget, h⟩ := exists_of_run_bind_ok h
  cases hget
  obtain ⟨slopes, _, hevaluate, -⟩ := exists_of_run_bind_ok h
  have hsupported : sim'.IsSupported := isSupported_of_evaluate (congrArg Prod.fst hevaluate)
  rw [IsSupported, hfits'.program] at hsupported
  exact hsupported

variable (I) in
/-- An override sets the value of its constant, and then the parameters. -/
theorem exists_withOverrides_constant {name : String} {i : Nat} (x : Number)
    (hlookup : p.lookup? name = some ⟨.constant, i⟩) (hi : i < p.constantValues.length) :
    ∃ sim, withOverrides I p { constants := .ofList [(name, x)] } = .ok sim ∧
      sim.constants = (p.constantValues.map I.literal).set i (I.literal x) ∧
      sim.resetParameters I = sim := by
  have hset : (ofProgram I p).setConstant name (I.literal x) = .ok { ofProgram I p with
      constants := (p.constantValues.map I.literal).set i (I.literal x) } := by
    have hnamed : setNamed p .constant (p.constantValues.map I.literal) name (I.literal x) =
        .ok ((p.constantValues.map I.literal).set i (I.literal x)) := by
      rw [setNamed, Program.index_eq_ok_iff.mpr hlookup]
      exact replaceValue_eq_ok_iff.mpr ⟨by rwa [List.length_map], rfl⟩
    rw [setConstant_eq]
    exact map_eq_ok_iff.mpr ⟨_, hnamed, rfl⟩
  refine ⟨resetParameters I { ofProgram I p with
    constants := (p.constantValues.map I.literal).set i (I.literal x) }, ?_, rfl, rfl⟩
  change ((ofProgram I p).setConstant name (I.literal x) >>= _ >>= _) = _
  rw [hset]
  rfl

end Simulator

namespace Circuit

/-- The circuit with a name bound to a constant. -/
def redefine (c : Circuit) (k : Atom) (x : Number) : Circuit :=
  ⟨c.equations.insert k (.const x), c.origins⟩

variable {V : Type} {c : Circuit} {o : CompileOptions} {r : Compilation}

theorem simulator_eq {I : Interpretation V} (hcompile : c.compile o = .ok r) (run : RunOptions) :
    c.simulator o I run = withOverrides I r.program run := by
  rw [simulator, hcompile]
  rfl

/-- Overriding a constant has the effect of redefining it, unless it is also written out as
an argument that goes by its name: the same runs succeed, and end with the same values. -/
theorem override_eq_redefine {k : Atom} {u x : Number} {r' : Compilation}
    (hk : c.equations.get? k = some (.const u))
    (hnamed : u ≠ x → c.equations.IsNamedBefore k u)
    (hcompile : c.compile {} = .ok r) (hcompile' : (c.redefine k x).compile {} = .ok r')
    (hcyclic : r.classification.auxCyclic = []) (hcyclic' : r'.classification.auxCyclic = [])
    (I : Interpretation V) :
    ∃ sim sim', c.simulator {} I { constants := .ofList [(toString k, x)] } = .ok sim ∧
      (c.redefine k x).simulator {} I {} = .ok sim' ∧
      ∀ (scheme : Scheme) (m : Nat),
        (((settleAfter I scheme m).run sim).1 = .ok () ↔
          ((settleAfter I scheme m).run sim').1 = .ok ()) ∧
        (((settleAfter I scheme m).run sim).1 = .ok () → ∀ name ∈ c.equations.vars, ∃ y,
          ((settleAfter I scheme m).run sim).2.value? (toString name) = some y ∧
          ((settleAfter I scheme m).run sim').2.value? (toString name) = some y) := by
  obtain ⟨n, hn, hp⟩ := exists_isLoopFree hcompile hcyclic
  obtain ⟨n', hn', hp'⟩ := exists_isLoopFree hcompile' hcyclic'
  have hdiffers := EquationSet.DiffersInConstant.insert hk x
  have hwellFormed := hn.wellFormed_iff.mp hp.wellFormed
  obtain ⟨i, hi, hu⟩ := hp.exists_constant (hn.get?_eq_flat hk) rfl
  have hlookup : r.program.lookup? (toString k) = some ⟨.constant, i⟩ :=
    (hp.lookup?_eq k).trans (r.linearized.slot?_constant _ hi)
  obtain ⟨sim, hsim, hconstants, hreset⟩ :=
    exists_withOverrides_constant I x hlookup (List.getElem?_eq_some_iff.mp hu).1
  have hsim' : withOverrides I r'.program {} = .ok (ofProgram I r'.program) := rfl
  have hfits := fits_withOverrides hp.isConsistent hsim
  have hfits' := fits_withOverrides hp'.isConsistent hsim'
  have hmatching := hdiffers.matching (I := I) hn hn' hwellFormed hnamed hp hp' hi
  rw [← hconstants] at hmatching
  have hsupported : (∀ st ∈ r.program.statements, st.expr.IsSupported) ↔
      ∀ st ∈ r'.program.statements, st.expr.IsSupported := by
    rw [hp.isSupported_iff, hp'.isSupported_iff, hn.isSupported_iff, hn'.isSupported_iff]
    exact ⟨hdiffers.symm.isSupported, hdiffers.isSupported⟩
  refine ⟨sim, _, (simulator_eq hcompile _).trans hsim, (simulator_eq hcompile' _).trans hsim',
    fun scheme m => ?_⟩
  have hruns := fun hstatements => hmatching.exists_runs hfits hfits' hreset rfl hstatements
    (hsupported.mp hstatements) scheme m
  refine ⟨⟨fun hrun => ?_, fun hrun => ?_⟩, fun hrun name hname => ?_⟩
  · obtain ⟨_, _, -, hrun', -⟩ := hruns (isSupported_of_settleAfter hfits hrun)
    rw [hrun']
  · obtain ⟨_, _, hrun', -⟩ := hruns (hsupported.mpr (isSupported_of_settleAfter hfits' hrun))
    rw [hrun']
  · obtain ⟨_, _, hrun, hrun', hvalue⟩ := hruns (isSupported_of_settleAfter hfits hrun)
    rw [hrun, hrun']
    exact hvalue name name (.source hname) (hn.mem_vars_of_mem_vars hname)
      (hn'.mem_vars_of_mem_vars (hdiffers.mem_vars hwellFormed hname))

/-- The names on feedback loops, if the circuit compiles. -/
def auxCyclic? (c : Circuit) (o : CompileOptions) : Option (List Atom) :=
  (c.compile o).toOption.map fun r => r.classification.auxCyclic

theorem exists_compile_of_auxCyclic? (h : c.auxCyclic? o = some []) :
    ∃ r, c.compile o = .ok r ∧ r.classification.auxCyclic = [] := by
  rw [auxCyclic?] at h
  cases hr : c.compile o with
  | error e =>
    rw [hr] at h
    cases h
  | ok r =>
    rw [hr] at h
    exact ⟨r, rfl, Option.some.inj h⟩

/-- The circuit `a = const(1)`, `k = const(1)`, `y = int(mult(k, const(1)), k, k)`. -/
def twiceNamed : EquationSet :=
  let one : Number := ⟨0x3ff0000000000000⟩
  let k : Arg := .node ⟨['k'], .refl true⟩ []
  .ofList [(⟨['a'], .refl true⟩, .const one), (⟨['k'], .refl true⟩, .const one),
    (⟨['y'], .refl true⟩,
      ⟨Element.int.name, [.node Element.mult.name [k, (Term.const one).toArg], k, k]⟩)]

theorem override_eq_redefine_twiceNamed :
    let c : Circuit := ⟨twiceNamed, ∅⟩
    let k : Atom := ⟨['k'], .refl true⟩
    let two : Number := ⟨0x4000000000000000⟩
    ∃ r r', c.compile {} = .ok r ∧ (c.redefine k two).compile {} = .ok r' ∧
      r.classification.auxCyclic = [] ∧ r'.classification.auxCyclic = [] ∧
      ∃ sim sim',
        c.simulator {} additiveIntegers { constants := .ofList [(toString k, two)] } = .ok sim ∧
        (c.redefine k two).simulator {} additiveIntegers {} = .ok sim' ∧
        ∀ (scheme : Scheme) (m : Nat),
          (((settleAfter additiveIntegers scheme m).run sim).1 = .ok () ↔
            ((settleAfter additiveIntegers scheme m).run sim').1 = .ok ()) ∧
          (((settleAfter additiveIntegers scheme m).run sim).1 = .ok () →
            ∀ name ∈ twiceNamed.vars, ∃ y,
              ((settleAfter additiveIntegers scheme m).run sim).2.value? (toString name) = some y ∧
              ((settleAfter additiveIntegers scheme m).run sim').2.value? (toString name) =
                some y) := by
  intro c k two
  obtain ⟨r, hr, hcyclic⟩ := exists_compile_of_auxCyclic? (c := c) (o := {}) (by decide +kernel)
  obtain ⟨r', hr', hcyclic'⟩ :=
    exists_compile_of_auxCyclic? (c := c.redefine k two) (o := {}) (by decide +kernel)
  refine ⟨r, r', hr, hr', hcyclic, hcyclic', ?_⟩
  exact override_eq_redefine (u := ⟨0x3ff0000000000000⟩) rfl
    (fun _ _ _ _ _ => ⟨⟨['a'], .refl true⟩, rfl, rfl⟩) hr hr' hcyclic hcyclic' additiveIntegers

/-- The circuit `k = const(1)`, `y = neg(const(1))`. -/
def negatedOne : EquationSet :=
  let one : Number := ⟨0x3ff0000000000000⟩
  .ofList [(⟨['k'], .refl true⟩, .const one),
    (⟨['y'], .refl true⟩, ⟨Element.neg.name, [(Term.const one).toArg]⟩)]

/-- The value of a variable after some steps and an evaluation, if the simulation succeeds. -/
def settledValue? (I : Interpretation V) (c : Circuit) (o : RunOptions) (scheme : Scheme) (m : Nat)
    (name : Atom) : Option V :=
  match c.simulator {} I o with
  | .error _ => none
  | .ok sim =>
    match (settleAfter I scheme m).run sim with
    | (.ok (), sim) => sim.value? (toString name)
    | (.error _, _) => none

/-- An argument that goes by the name of a constant follows an override of the constant, but
not its redefinition. -/
theorem override_reaches_argument :
    let c : Circuit := ⟨negatedOne, ∅⟩
    let k : Atom := ⟨['k'], .refl true⟩
    let y : Atom := ⟨['y'], .refl true⟩
    let two : Number := ⟨0x4000000000000000⟩
    negatedOne.get? k = some (.const ⟨0x3ff0000000000000⟩) ∧ y ∈ negatedOne.vars ∧
      c.auxCyclic? {} = some [] ∧ (c.redefine k two).auxCyclic? {} = some [] ∧
      ∃ a b,
        settledValue? additiveIntegers c { constants := .ofList [(toString k, two)] } .euler 0 y =
          some a ∧
        settledValue? additiveIntegers (c.redefine k two) {} .euler 0 y = some b ∧ a ≠ b :=
  ⟨rfl, by decide +kernel, by decide +kernel, by decide +kernel, -0x4000000000000000,
    -0x3ff0000000000000, by decide +kernel, by decide +kernel, by decide⟩

end Circuit

end DiffAnalyzer
