import DiffAnalyzer.Proofs.Consistency
import Mathlib

/-!
# Values set by name

Constants, initial values and step sizes are all set in one way: the name is looked up, has to be
that of a variable of the right kind, and the value of its field is replaced (`Simulator.setNamed`).
Set one after another, the values of different names are set at once (`Simulator.setAll_eq_ok_iff`).
So a simulator with overrides is that of the program with the overridden entries replaced, and the
first name in order that does not fit is the one complained about
(`Simulator.withOverrides_eq_override`).
-/

namespace DiffAnalyzer

/-- The group of the variables of a kind. -/
def VariableKind.group : VariableKind → Group
  | .constant => .constant
  | .evolved => .state

section Look

namespace Program

variable {p : Program} {kind : VariableKind} {name : String} {slot : Slot} {i j : Nat}

/-- A field of that name in the group is the one that the name is looked up to. -/
theorem index_eq_of_lookup? {group : Group} {a : Atom}
    (h : p.lookup? (toString a) = some ⟨group, i⟩) (ha : p.layout.name? ⟨group, j⟩ = some a) :
    i = j := by
  obtain ⟨b, hb, hname⟩ := Option.map_eq_some_iff.mp (name?_of_lookup? h)
  obtain rfl := Atom.toString_injective hname
  have hi : (p.layout.record group).indexOf? b = some i := Record.indexOf?_eq_some_iff.mpr hb
  exact Option.some.inj (hi.symm.trans (Record.indexOf?_eq_some_iff.mpr ha))

/-- The name is that of a variable of the kind. -/
def HasVariable (p : Program) (kind : VariableKind) (name : String) : Prop :=
  ∃ i, p.lookup? name = some ⟨kind.group, i⟩

/-- What there is to say of a name that is not that of a variable of the kind. -/
inductive Misfit (p : Program) (kind : VariableKind) (name : String) : RunError → Prop
  | unknown (h : p.lookup? name = none) : Misfit p kind name (.unknownVariable name)
  | wrongKind {slot : Slot} (h : p.lookup? name = some slot) (hgroup : slot.group ≠ kind.group) :
    Misfit p kind name (.wrongKind name kind)

/-- The index of the variable of a kind that goes by a name. -/
def index (p : Program) (kind : VariableKind) (name : String) : Except RunError Nat :=
  match p.lookup? name with
  | some slot => if slot.group = kind.group then .ok slot.index else .error (.wrongKind name kind)
  | none => .error (.unknownVariable name)

theorem index_eq_ok_iff : p.index kind name = .ok i ↔ p.lookup? name = some ⟨kind.group, i⟩ := by
  unfold index
  cases p.lookup? name with
  | none => exact ⟨nofun, nofun⟩
  | some slot =>
    obtain ⟨group, j⟩ := slot
    dsimp only
    split
    · rename_i hgroup
      rw [Except.ok.injEq, Option.some.injEq, Slot.mk.injEq, and_iff_right hgroup]
    · rename_i hgroup
      rw [Option.some.injEq, Slot.mk.injEq]
      exact ⟨nofun, fun h => absurd h.1 hgroup⟩

theorem index_eq_error_iff {e : RunError} :
    p.index kind name = .error e ↔ p.Misfit kind name e := by
  unfold index
  constructor
  · intro h
    split at h
    · rename_i slot hslot
      split at h
      · cases h
      · rename_i hgroup
        cases h
        exact .wrongKind hslot hgroup
    · rename_i hnone
      cases h
      exact .unknown hnone
  · rintro (hnone | ⟨hslot, hgroup⟩)
    · rw [hnone]
    · rw [hslot]
      exact if_neg hgroup

end Program

end Look

namespace Simulator

section Setting

variable {α : Type} {p : Program} {kind : VariableKind} {f : Number → α} {values values' : List α}
  {name : String} {x : α} {entries : List (String × Number)}

/-- Set the value of the variable of a kind that goes by a name. -/
def setNamed (p : Program) (kind : VariableKind) (values : List α) (name : String) (x : α) :
    Except RunError (List α) := do
  replaceValue values (← p.index kind name) name x

theorem replaceValue_eq_ok_iff {i : Nat} :
    replaceValue values i name x = .ok values' ↔ i < values.length ∧ values.set i x = values' := by
  unfold replaceValue
  split
  · rename_i hi
    rw [Except.ok.injEq, and_iff_right hi]
  · rename_i hi
    exact ⟨nofun, fun h => absurd h.1 hi⟩

theorem length_setNamed (h : setNamed p kind values name x = .ok values') :
    values'.length = values.length := by
  obtain ⟨i, -, h⟩ := bind_eq_ok_iff.mp h
  rw [← (replaceValue_eq_ok_iff.mp h).2]
  exact List.length_set

/-- The value of the field with the name is replaced, and no other. -/
theorem getElem?_of_setNamed (h : setNamed p kind values name x = .ok values') (i : Nat) :
    values'[i]? = values[i]?.map fun y =>
      if (p.layout.name? ⟨kind.group, i⟩).map toString = some name then x else y := by
  obtain ⟨j, hj, h⟩ := bind_eq_ok_iff.mp h
  rw [Program.index_eq_ok_iff] at hj
  rw [← (replaceValue_eq_ok_iff.mp h).2]
  by_cases hij : j = i
  · subst hij
    rw [List.getElem?_set_self']
    simp only [if_pos (Program.name?_of_lookup? hj)]
    rfl
  · have hname : (p.layout.name? ⟨kind.group, i⟩).map toString ≠ some name := by
      intro hname
      obtain ⟨a, ha, rfl⟩ := Option.map_eq_some_iff.mp hname
      exact hij (Program.index_eq_of_lookup? hj ha)
    rw [List.getElem?_set_ne hij]
    simp only [if_neg hname, Option.map_id']

/-- Where there is a value for each field only the name can be wrong. -/
theorem setNamed_eq (hsize : (p.layout.record kind.group).size ≤ values.length) (name : String)
    (x : α) : setNamed p kind values name x = (fun i => values.set i x) <$> p.index kind name := by
  unfold setNamed
  cases hindex : p.index kind name with
  | error e => rfl
  | ok i =>
    obtain ⟨a, ha, -⟩ := Option.map_eq_some_iff.mp
      (Program.name?_of_lookup? (Program.index_eq_ok_iff.mp hindex))
    exact if_pos ((Layout.index_lt_of_name? ha).trans_le hsize)

/-- Set the values of some names, one after another. -/
def setEntries (p : Program) (kind : VariableKind) (f : Number → α) (values : List α)
    (entries : List (String × Number)) : Except RunError (List α) :=
  entries.foldlM (fun values e => setNamed p kind values e.1 (f e.2)) values

theorem length_setEntries (h : setEntries p kind f values entries = .ok values') :
    values'.length = values.length :=
  foldlM_preserves (P := fun xs => xs.length = values.length)
    (fun _ _ _ hlength hset => (length_setNamed hset).trans hlength) rfl h

/-- The names are checked in their order, whatever the values are. -/
theorem discard_setEntries (hsize : (p.layout.record kind.group).size ≤ values.length) :
    discard (setEntries p kind f values entries) =
      forM (entries.map Prod.fst) fun name => discard (p.index kind name) := by
  induction entries generalizing values with
  | nil => rfl
  | cons e rest ih =>
    rw [List.map_cons, List.forM_cons, setEntries, List.foldlM_cons, setNamed_eq hsize]
    cases p.index kind e.1 with
    | error e => rfl
    | ok i => exact ih (hsize.trans_eq List.length_set.symm)

/-- In the end each field has the value that was set for its name, if there is one. -/
theorem getElem?_of_setEntries (hnodup : (entries.map Prod.fst).Nodup)
    (h : setEntries p kind f values entries = .ok values') (i : Nat) :
    values'[i]? = values[i]?.map fun x =>
      ((p.layout.name? ⟨kind.group, i⟩).bind fun a => entries.lookup (toString a)).elim x f := by
  induction entries generalizing values with
  | nil =>
    cases h
    cases p.layout.name? ⟨kind.group, i⟩ <;> exact Option.map_id'.symm
  | cons e rest ih =>
    obtain ⟨values₁, hset, h⟩ := bind_eq_ok_iff.mp h
    obtain ⟨hfresh, hnodup⟩ := List.nodup_cons.mp hnodup
    rw [ih hnodup h, getElem?_of_setNamed hset, Option.map_map]
    refine congrArg (Option.map · values[i]?) (funext fun x => ?_)
    simp only [Function.comp_apply]
    cases p.layout.name? ⟨kind.group, i⟩ with
    | none => rfl
    | some a =>
      simp only [Option.bind_some, Option.map_some, Option.some.injEq]
      by_cases hname : toString a = e.1
      · -- the name does not come again, so that its value stays
        have hrest : rest.lookup (toString a) = none :=
          lookup_eq_none_iff_not_mem.mpr (hname ▸ hfresh)
        rw [hrest, if_pos hname, List.lookup_cons, beq_iff_eq.mpr hname]
        rfl
      · rw [if_neg hname, List.lookup_cons, beq_false_of_ne hname]

/-- Set the values of the overridden names. -/
def setAll (p : Program) (kind : VariableKind) (f : Number → α) (values : List α)
    (overrides : SortedMap String Number) : Except RunError (List α) :=
  setEntries p kind f values overrides.toList

theorem discard_setAll {overrides : SortedMap String Number}
    (hsize : (p.layout.record kind.group).size ≤ values.length) :
    discard (setAll p kind f values overrides) =
      forM overrides.keys fun name => discard (p.index kind name) :=
  discard_setEntries hsize

end Setting

end Simulator

/-- The values of the fields of a record, with those of overridden fields replaced. -/
def Record.replace {α : Type} (r : Record) (overrides : SortedMap String Number) (f : Number → α)
    (values : List α) : List α :=
  values.mapIdx fun i x => ((r.fields[i]?).bind fun a => overrides.get? (toString a)).elim x f

/-- The program with the entries of overridden variables replaced by the numbers given. -/
def Program.override (p : Program) (o : RunOptions) : Program :=
  { p with
    constantValues := p.layout.constants.replace o.constants id p.constantValues
    initial := p.layout.state.replace o.initial .number p.initial
    steps := p.layout.state.replace o.steps .number p.steps }

/-- The overridden names, in the order in which they are looked up. -/
def RunOptions.overridden (o : RunOptions) : List (VariableKind × String) :=
  o.constants.keys.map (VariableKind.constant, ·) ++
    (o.initial.keys.map (VariableKind.evolved, ·) ++ o.steps.keys.map (VariableKind.evolved, ·))

/-- There is a value for each field. -/
structure Program.HasValues (p : Program) : Prop where
  constants : p.layout.constants.size ≤ p.constantValues.length
  initial : p.layout.state.size ≤ p.initial.length
  steps : p.layout.state.size ≤ p.steps.length

theorem Record.size_ofList_le (names : List Atom) : (Record.ofList names).size ≤ names.length := by
  have hsubset : (Record.ofList names).fields ⊆ names := fun _ => Record.mem_fields_ofList.mp
  exact (List.subperm_of_subset (Record.ofList names).nodup hsubset).length_le

/-- Assembling makes a value for each name, and a field for each different one. -/
theorem Program.hasValues_of_assemble {v : Vocabulary} {s : EquationSet} {c : Classification}
    {p : Program} (h : Program.assemble v s c = .ok p) : p.HasValues := by
  obtain ⟨evolutions, sorted, cyclic, unneeded, h⟩ := Program.assemble_eq_ok_iff.mp h
  have hstate : p.layout.state.size ≤ evolutions.length := by
    rw [h.layout, ← h.evolution.length_eq]
    exact Record.size_ofList_le c.evolved
  constructor
  case constants =>
    rw [h.layout, ← h.constantValues.length_eq]
    exact Record.size_ofList_le c.constants
  case initial => rwa [h.initial, List.length_map]
  case steps => rwa [h.steps, List.length_map]

namespace Simulator

variable {V : Type} {I : Interpretation V} {p : Program} {o : RunOptions} {sim : Simulator V}

section Overriding

variable {α : Type} {kind : VariableKind} {f : Number → α} {values values' : List α}
  {overrides : SortedMap String Number}

/-- Different names can be set all at once. -/
theorem setAll_eq_ok_iff (hsize : (p.layout.record kind.group).size ≤ values.length) :
    setAll p kind f values overrides = .ok values' ↔
      (∀ name ∈ overrides.keys, p.HasVariable kind name) ∧
        values' = (p.layout.record kind.group).replace overrides f values := by
  have hchecks : discard (setAll p kind f values overrides) = .ok () ↔
      ∀ name ∈ overrides.keys, p.HasVariable kind name := by
    rw [discard_setAll hsize, forM_eq_ok_iff]
    simp only [discard_eq_ok_iff, Program.index_eq_ok_iff]
    rfl
  have hvalue : ∀ values₁, setAll p kind f values overrides = .ok values₁ →
      values₁ = (p.layout.record kind.group).replace overrides f values := fun values₁ h => by
    refine List.ext_getElem? fun i => ?_
    rw [getElem?_of_setEntries overrides.nodup_keys h i, Record.replace, List.getElem?_mapIdx]
    simp only [SortedMap.lookup_toList]
    rfl
  constructor
  · intro h
    exact ⟨hchecks.mp (discard_eq_ok_iff.mpr ⟨values', h⟩), hvalue values' h⟩
  · rintro ⟨hnames, rfl⟩
    obtain ⟨values₁, h⟩ := discard_eq_ok_iff.mp (hchecks.mpr hnames)
    rw [h, hvalue values₁ h]

end Overriding

theorem constantIndex_eq (sim : Simulator V) (name : String) :
    sim.constantIndex name = sim.program.index .constant name := by
  unfold constantIndex Program.index
  cases sim.program.lookup? name with
  | none => rfl
  | some slot =>
    obtain ⟨group, i⟩ := slot
    cases group <;> rfl

theorem evolvedIndex_eq (sim : Simulator V) (name : String) :
    sim.evolvedIndex name = sim.program.index .evolved name := by
  unfold evolvedIndex Program.index
  cases sim.program.lookup? name with
  | none => rfl
  | some slot =>
    obtain ⟨group, i⟩ := slot
    cases group <;> rfl

theorem setConstant_eq (sim : Simulator V) (name : String) (x : V) :
    sim.setConstant name x = (fun constants => { sim with constants }) <$>
      setNamed sim.program .constant sim.constants name x := by
  rw [setConstant, constantIndex_eq, setNamed, map_bind]
  rfl

theorem setInitial_eq (sim : Simulator V) (name : String) (x : V) :
    sim.setInitial name x = (fun state => { sim with state }) <$>
      setNamed sim.program .evolved sim.state name x := by
  rw [setInitial, evolvedIndex_eq, setNamed, map_bind]
  rfl

theorem setStep_eq (sim : Simulator V) (name : String) (x : V) :
    sim.setStep name x = (fun steps => { sim with steps }) <$>
      setNamed sim.program .evolved sim.steps name x := by
  rw [setStep, evolvedIndex_eq, setNamed, map_bind]
  rfl

section Loops

variable (I)
variable (sim : Simulator V) (entries : List (String × Number))

theorem foldlM_setConstant :
    entries.foldlM (fun s e => s.setConstant e.1 (I.literal e.2)) sim =
      (fun constants => { sim with constants }) <$>
        setEntries sim.program .constant I.literal sim.constants entries :=
  foldlM_eq_map (p := fun constants => { sim with constants })
    (fun constants e => setConstant_eq { sim with constants } e.1 (I.literal e.2))
    entries sim.constants

theorem foldlM_setInitial :
    entries.foldlM (fun s e => s.setInitial e.1 (I.literal e.2)) sim =
      (fun state => { sim with state }) <$>
        setEntries sim.program .evolved I.literal sim.state entries :=
  foldlM_eq_map (p := fun state => { sim with state })
    (fun state e => setInitial_eq { sim with state } e.1 (I.literal e.2)) entries sim.state

theorem foldlM_setStep :
    entries.foldlM (fun s e => s.setStep e.1 (I.literal e.2)) sim =
      (fun steps => { sim with steps }) <$>
        setEntries sim.program .evolved I.literal sim.steps entries :=
  foldlM_eq_map (p := fun steps => { sim with steps })
    (fun steps e => setStep_eq { sim with steps } e.1 (I.literal e.2)) entries sim.steps

end Loops

variable (I p o) in
/-- The parameters are resolved once the constants are set, and then set themselves. -/
theorem withOverrides_eq : withOverrides I p o = (do
    let constants ← setAll p .constant I.literal (p.constantValues.map I.literal) o.constants
    let state ← setAll p .evolved I.literal (p.initial.map (resolve I constants)) o.initial
    let steps ← setAll p .evolved I.literal (p.steps.map (resolve I constants)) o.steps
    pure { ofProgram I p with constants, state, steps }) := by
  rw [withOverrides, foldlM_setConstant, bind_map_left]
  refine bind_congr fun constants => ?_
  rw [foldlM_setInitial, bind_map_left]
  refine bind_congr fun state => ?_
  rw [foldlM_setStep, map_eq_pure_bind]
  rfl

theorem replace_map {α β : Type} {r : Record} {overrides : SortedMap String Number}
    {f : Number → α} {g : α → β} {h : Number → β} (hg : ∀ x, g (f x) = h x) (values : List α) :
    r.replace overrides h (values.map g) = (r.replace overrides f values).map g := by
  rw [Record.replace, List.mapIdx_eq_iff]
  intro i
  rw [List.getElem?_map, Record.replace, List.getElem?_mapIdx, List.getElem?_map, Option.map_map,
    Option.map_map]
  refine congrArg (Option.map · values[i]?) (funext fun x => ?_)
  simp only [Function.comp_apply]
  cases (r.fields[i]?).bind fun a => overrides.get? (toString a) with
  | none => rfl
  | some y => exact hg y

section Assembled

variable (hp : p.HasValues)
include hp

/-- Only the names decide whether overrides fail. -/
theorem discard_withOverrides :
    discard (withOverrides I p o) = forM o.overridden fun t => discard (p.index t.1 t.2) := by
  have hnames {α : Type} {kind : VariableKind} {f : Number → α} {values : List α}
      (overrides : SortedMap String Number)
      (hsize : (p.layout.record kind.group).size ≤ values.length) :
      discard (setAll p kind f values overrides) =
        forM (overrides.keys.map (kind, ·)) fun t => discard (p.index t.1 t.2) := by
    rw [discard_setAll hsize, List.forM_map]
  rw [withOverrides_eq]
  refine discard_bind_eq_forM (hnames o.constants ?_) fun constants =>
    discard_bind_eq_forM (hnames o.initial ?_) fun state =>
      discard_bind_pure.trans (hnames o.steps ?_)
  · rw [List.length_map]
    exact hp.constants
  · rw [List.length_map]
    exact hp.initial
  · rw [List.length_map]
    exact hp.steps

/-- The simulator with overrides is that of the program with the overridden entries replaced. -/
theorem eq_of_withOverrides (h : withOverrides I p o = .ok sim) :
    sim = { ofProgram I (p.override o) with program := p } := by
  rw [withOverrides_eq] at h
  obtain ⟨constants, hconstants, h⟩ := bind_eq_ok_iff.mp h
  obtain ⟨state, hstate, h⟩ := bind_eq_ok_iff.mp h
  obtain ⟨steps, hsteps, h⟩ := bind_eq_ok_iff.mp h
  obtain ⟨-, rfl⟩ := (setAll_eq_ok_iff ((List.length_map _).symm ▸ hp.constants)).mp hconstants
  obtain ⟨-, rfl⟩ := (setAll_eq_ok_iff ((List.length_map _).symm ▸ hp.initial)).mp hstate
  obtain ⟨-, rfl⟩ := (setAll_eq_ok_iff ((List.length_map _).symm ▸ hp.steps)).mp hsteps
  have hparameters (constants : List V) (overrides : SortedMap String Number)
      (parameters : List Parameter) :
      p.layout.state.replace overrides I.literal (parameters.map (resolve I constants)) =
        (p.layout.state.replace overrides .number parameters).map (resolve I constants) :=
    replace_map (f := .number) (g := resolve I constants) (fun _ => rfl) parameters
  have hliterals : p.layout.constants.replace o.constants I.literal
      (p.constantValues.map I.literal) = (p.override o).constantValues.map I.literal :=
    replace_map (f := id) (fun _ => rfl) p.constantValues
  change pure _ = _ at h
  rw [← Except.ok.inj h]
  change Simulator.mk .. = Simulator.mk ..
  simp only [VariableKind.group, Layout.record, hliterals, hparameters]
  rfl

end Assembled

/-- Overrides succeed when each goes by the name of a variable of the right kind, and then
they have the effect of replacing entries of the program.  Otherwise the first name
in order that does not fit is the one complained about, and never the lack of a value. -/
theorem withOverrides_eq_override {v : Vocabulary} {s : EquationSet} {c : Classification}
    (h : Program.assemble v s c = .ok p) (I : Interpretation V) (o : RunOptions) :
    ((∃ sim, withOverrides I p o = .ok sim) ↔
      (∀ name ∈ o.constants.keys, p.HasVariable .constant name) ∧
        (∀ name ∈ o.initial.keys, p.HasVariable .evolved name) ∧
        ∀ name ∈ o.steps.keys, p.HasVariable .evolved name) ∧
      (∀ sim, withOverrides I p o = .ok sim →
        sim = { ofProgram I (p.override o) with program := p }) ∧
      (∀ e, withOverrides I p o = .error e ↔ ∃ before kind name after,
        o.overridden = before ++ (kind, name) :: after ∧
          (∀ t ∈ before, p.HasVariable t.1 t.2) ∧ p.Misfit kind name e) ∧
      ∀ name, withOverrides I p o ≠ .error (.noValue name) := by
  have hp := Program.hasValues_of_assemble h
  have hchecks := discard_withOverrides (I := I) (o := o) hp
  have hindex : ∀ kind name, discard (p.index kind name) = .ok () ↔ p.HasVariable kind name :=
    fun kind name => discard_eq_ok_iff.trans (exists_congr fun i => Program.index_eq_ok_iff)
  have herror : ∀ e, withOverrides I p o = .error e ↔ ∃ before kind name after,
      o.overridden = before ++ (kind, name) :: after ∧
        (∀ t ∈ before, p.HasVariable t.1 t.2) ∧ p.Misfit kind name e := fun e => by
    rw [← discard_eq_error_iff, hchecks, forM_eq_error_iff_append]
    simp only [Prod.exists, discard_eq_error_iff, Program.index_eq_error_iff, hindex]
  refine ⟨?succeeds, fun sim => eq_of_withOverrides hp, herror, fun name hname => ?inRange⟩
  case succeeds =>
    rw [← discard_eq_ok_iff, hchecks, forM_eq_ok_iff]
    simp only [RunOptions.overridden, List.forall_mem_append, List.forall_mem_map, hindex]
  case inRange =>
    obtain ⟨before, kind, name, after, -, -, hmisfit⟩ := (herror _).mp hname
    cases hmisfit

/-- The circuit `k = const(1)`, `x = int(y, k, k)`, `y = int(x, k, k)`. -/
def coupled : EquationSet :=
  let k : Atom := ⟨['k'], .refl true⟩
  let x : Atom := ⟨['x'], .refl true⟩
  let y : Atom := ⟨['y'], .refl true⟩
  .ofList [(k, ⟨Element.const.name, [.number ⟨0x3ff0000000000000⟩]⟩),
    (x, ⟨Element.int.name, [.node y [], .node k [], .node k []]⟩),
    (y, ⟨Element.int.name, [.node x [], .node k [], .node k []]⟩)]

/-- An overridden constant reaches the parameters that are not overridden themselves; a
constant has no step size. -/
theorem withOverrides_eq_override_coupled :
    let two : Number := ⟨0x4000000000000000⟩
    let three : Number := ⟨0x4008000000000000⟩
    let five : Number := ⟨0x4014000000000000⟩
    let o : RunOptions := {
      initial := .ofList [("x", three)]
      steps := .ofList [("y", five)]
      constants := .ofList [("k", two)] }
    ∃ c p, coupled.classify .standard = .ok c ∧ Program.assemble .standard coupled c = .ok p ∧
      (∃ sim, withOverrides additiveIntegers p o = .ok sim ∧
        sim.state = [three, two].map additiveIntegers.literal ∧
        sim.steps = [two, five].map additiveIntegers.literal) ∧
      withOverrides additiveIntegers p { o with steps := .ofList [("k", five), ("z", five)] } =
        .error (.wrongKind "k" .evolved) := by
  intro two three five o
  obtain ⟨c, hclassify⟩ : ∃ c, coupled.classify .standard = .ok c := ⟨_, rfl⟩
  obtain ⟨p, hassemble, hk, hx, hy, hvalues, hinitial, hsteps⟩ : ∃ p,
      Program.assemble .standard coupled c = .ok p ∧
        p.lookup? "k" = some ⟨.constant, 0⟩ ∧ p.lookup? "x" = some ⟨.state, 0⟩ ∧
        p.lookup? "y" = some ⟨.state, 1⟩ ∧ (p.override o).constantValues = [two] ∧
        (p.override o).initial = [.number three, .constant 0] ∧
        (p.override o).steps = [.constant 0, .number five] := by
    cases hclassify
    subst o two three five
    exact ⟨_, rfl, rfl, rfl, rfl, by decide +kernel, by decide +kernel, by decide +kernel⟩
  obtain ⟨hsucceeds, heq, -⟩ := withOverrides_eq_override hassemble additiveIntegers o
  obtain ⟨-, -, herror, -⟩ := withOverrides_eq_override hassemble additiveIntegers
    { o with steps := .ofList [("k", five), ("z", five)] }
  refine ⟨c, p, hclassify, hassemble, ?_, (herror _).mpr ?_⟩
  · obtain ⟨sim, hsim⟩ := hsucceeds.mpr ⟨List.forall_mem_singleton.mpr ⟨0, hk⟩,
      List.forall_mem_singleton.mpr ⟨0, hx⟩, List.forall_mem_singleton.mpr ⟨1, hy⟩⟩
    refine ⟨sim, hsim, ?_, ?_⟩
    · rw [heq sim hsim, ofProgram, resetParameters, hinitial, hvalues]
      rfl
    · rw [heq sim hsim, ofProgram, resetParameters, hsteps, hvalues]
      rfl
  · exact ⟨[(.constant, "k"), (.evolved, "x")], .evolved, "k", [(.evolved, "z")],
      by decide +kernel, List.forall_mem_cons.mpr ⟨⟨0, hk⟩, List.forall_mem_singleton.mpr ⟨0, hx⟩⟩,
      .wrongKind hk (by decide)⟩

end Simulator

end DiffAnalyzer
