import DiffAnalyzer.Proofs.CleanedHeads
import Mathlib

/-!
# Sets of plain names

What cleaning yields has plain names only (`EquationSet.hasPlainNames_of_cleanIdentifiers`), and
these are the sets that it leaves alone (`EquationSet.cleanIdentifiers_eq_self_iff`): a renamer that
is asked for plain names gives each back as it is, in whatever order they come, since nobody but the
name itself asks for that spelling.  So cleaning twice is cleaning once
(`EquationSet.cleanIdentifiers_idempotent`).
-/

namespace DiffAnalyzer

section Identity

theorem Arg.mapHeads_id (a : Arg) : a.mapHeads id = a := by
  induction a using Arg.induct with
  | number x => rfl
  | node head tail ih => rw [mapHeads_node, List.map_congr_left ih, List.map_id', id]

theorem Term.mapHeads_id (t : Term) : t.mapHeads id = t := by
  rw [mapHeads, List.map_congr_left fun a _ => a.mapHeads_id, List.map_id', id]

theorem EquationSet.mapHeads_id (s : EquationSet) : s.mapHeads id = s := by
  have hentries : s.toList.map (fun e => (id e.1, e.2.mapHeads id)) = s.toList := by
    rw [List.map_congr_left fun e _ => congrArg (Prod.mk e.1) e.2.mapHeads_id, List.map_id']
  rw [mapHeads, hentries, SortedMap.ofList_toList]

end Identity

namespace Renamer

variable {r : Renamer} {names : List Atom} {v : Atom}

/-- Whatever the renamer has handed out is the name that was asked for. -/
structure IsIdentity (r : Renamer) : Prop where
  reserved : r.reserved = []
  table : ∀ e ∈ r.table, e.1 = toString e.2

theorem isIdentity_ofReserved : (ofReserved []).IsIdentity := ⟨rfl, nofun⟩

namespace IsIdentity

variable (hr : r.IsIdentity)
include hr

/-- A name stands in the way of itself only. -/
theorem occupied_eq_false (hnone : r.get? (toString v) = none) : r.occupied v = false := by
  rw [occupied, hr.reserved, List.contains_nil, Bool.false_or, List.any_eq_false]
  intro e he hv
  obtain rfl := beq_iff_eq.mp hv
  have hname := List.mem_map_of_mem (f := Prod.fst) he
  rw [hr.table e he] at hname
  exact lookup_eq_none_iff_not_mem.mp hnone hname

/-- A plain name is given back. -/
theorem exists_rename (hplain : v.isPlain = true) :
    ∃ r', rename (toString v) r = .ok (v, r') ∧ r'.IsIdentity := by
  cases hget : r.get? (toString v) with
  | some a =>
    have ha := Atom.toString_injective (hr.table _ (mem_table_of_get? hget))
    exact ⟨r, rename_eq_ok_iff.mpr (.inl ⟨ha ▸ hget, rfl⟩), hr⟩
  | none =>
    have hfree : v.free? r.occupied = some v := by
      refine Atom.free?_eq_some_iff.mpr ⟨0, Nat.zero_le _, v.padded_zero.symm, ?_, nofun⟩
      rw [v.padded_zero]
      exact hr.occupied_eq_false hget
    refine ⟨_, rename_eq_ok_iff.mpr (.inr ⟨hget, rfl, v, cleanName_eq_self_iff.mpr hplain, hfree⟩),
      hr.reserved, ?_⟩
    exact List.forall_mem_cons.mpr ⟨rfl, hr.table⟩

theorem exists_mapM_rename (hplain : ∀ v ∈ names, v.isPlain = true) :
    ∃ r', (names.mapM fun v => rename (toString v)).run r = .ok (names, r') := by
  induction names generalizing r with
  | nil => exact ⟨r, rfl⟩
  | cons v rest ih =>
    obtain ⟨hv, hrest⟩ := List.forall_mem_cons.mp hplain
    obtain ⟨r₁, hrename, hr₁⟩ := hr.exists_rename hv
    obtain ⟨r₂, hrun⟩ := ih hr₁ hrest
    refine ⟨r₂, ?_⟩
    rw [List.mapM_cons]
    exact stateBind_eq_ok_iff.mpr ⟨v, r₁, hrename,
      stateBind_eq_ok_iff.mpr ⟨rest, r₂, hrun, statePure_eq_ok_iff.mpr ⟨rfl, rfl⟩⟩⟩

end IsIdentity

end Renamer

namespace EquationSet

variable {s c : EquationSet} {f : Atom → Atom} {v head : Atom} {a : Arg}

/-- The variables and the heads of the applications are plain. -/
structure HasPlainNames (s : EquationSet) : Prop where
  vars : ∀ v ∈ s.vars, v.isPlain = true
  heads : ∀ head, s.UsesHead head → head.isPlain = true

section Renamed

variable (hf : Set.InjOn f {v | v ∈ s.keys})
include hf

theorem mem_vars_mapHeads (hv : v ∈ (s.mapHeads f).vars) : ∃ u ∈ s.vars, f u = v := by
  rcases mem_vars.mp hv with hkey | ⟨w, hedge⟩
  · obtain ⟨u, hu, rfl⟩ := (mem_keys_mapHeads hf).mp hkey
    exact ⟨u, mem_vars.mpr (.inl hu), rfl⟩
  · obtain ⟨w', u, hedge', -, rfl⟩ := (mem_dependencyGraph_mapHeads hf).mp hedge
    exact ⟨u, mem_vars.mpr (.inr ⟨w', hedge'⟩), rfl⟩

/-- The parts of a renamed set are the renamed parts. -/
theorem exists_isPart_of_mapHeads (ha : (s.mapHeads f).IsPart a) :
    ∃ b, s.IsPart b ∧ b.mapHeads f = a := by
  induction ha with
  | whole h =>
    obtain ⟨name, rhs, hrhs, -, rfl⟩ := (get?_mapHeads hf).mp h
    exact ⟨rhs.toArg, .whole hrhs, (Term.toArg_mapHeads f rhs).symm⟩
  | @argument head tail a _ ha ih =>
    obtain ⟨b, hb, hrenamed⟩ := ih
    cases b with
    | number x => cases hrenamed
    | node head' tail' =>
      rw [Arg.mapHeads_node] at hrenamed
      cases hrenamed
      obtain ⟨b, hmem, rfl⟩ := List.mem_map.mp ha
      exact ⟨b, .argument hb hmem, rfl⟩

theorem usesHead_of_mapHeads (h : (s.mapHeads f).UsesHead head) :
    ∃ head', s.UsesHead head' ∧ f head' = head := by
  obtain ⟨tail, hne, hpart⟩ := h
  obtain ⟨b, hb, hrenamed⟩ := exists_isPart_of_mapHeads hf hpart
  cases b with
  | number x => cases hrenamed
  | node head' tail' =>
    rw [Arg.mapHeads_node] at hrenamed
    cases hrenamed
    exact ⟨head', ⟨tail', mt (congrArg _) hne, hb⟩, rfl⟩

end Renamed

/-- Cleaning leaves plain names. -/
theorem hasPlainNames_of_cleanIdentifiers (h : s.cleanIdentifiers = .ok c) : c.HasPlainNames := by
  obtain ⟨f, hf, rfl⟩ := exists_isCleaning h
  constructor
  case vars =>
    intro v hv
    obtain ⟨u, hu, rfl⟩ := mem_vars_mapHeads hf.injOn_keys hv
    exact hf.isPlain u hu
  case heads =>
    intro head hhead
    obtain ⟨head', hhead', rfl⟩ := usesHead_of_mapHeads hf.injOn_keys hhead
    by_cases hvars : head' ∈ s.vars
    · exact hf.isPlain head' hvars
    · exact isPlain_of_cleanName (hf.cleaned head' (mem_elementHeads.mpr hhead') hvars)

/-- A table that gives every name it knows for itself renames nothing. -/
theorem mapHeads_eq_self {table : List (Atom × Atom)} (h : ∀ e ∈ table, e.2 = e.1) :
    (s.mapHeads fun head => (table.lookup head).getD head) = s := by
  have hid : (fun head => (table.lookup head).getD head) = id := by
    funext head
    cases hlookup : table.lookup head with
    | none => rfl
    | some b => exact h _ (mem_of_lookup_eq_some hlookup)
  rw [hid, mapHeads_id]

theorem cleanIdentifiers_of_hasPlainNames (h : s.HasPlainNames) : s.cleanIdentifiers = .ok s := by
  obtain ⟨r, hvars⟩ := Renamer.isIdentity_ofReserved.exists_mapM_rename h.vars
  have helements : ((s.elementHeads.filter fun head => !s.vars.contains head).mapM fun head => do
      pure (head, ← cleanName (toString head))) =
        .ok ((s.elementHeads.filter fun head => !s.vars.contains head).map fun head =>
          (head, head)) := by
    refine mapM_eq_ok_iff.mpr (List.forall₂_map_right_iff.mpr (List.forall₂_same.mpr ?_))
    intro head hhead
    have huses := mem_elementHeads.mp (List.mem_of_mem_filter hhead)
    rw [cleanName_eq_self_iff.mpr (h.heads head huses)]
    rfl
  refine bind_eq_ok_iff.mpr ⟨_, hvars, bind_eq_ok_iff.mpr ⟨_, helements, ?_⟩⟩
  refine congrArg Except.ok (mapHeads_eq_self fun e he => ?_)
  rcases List.mem_append.mp he with he | he
  · have hzip : s.vars.map (fun v => (v, v)) = s.vars.zip s.vars := by
      rw [List.map_prod_left_eq_zip, List.map_id']
    obtain ⟨v, -, rfl⟩ := List.mem_map.mp (hzip ▸ he)
    rfl
  · obtain ⟨head, -, rfl⟩ := List.mem_map.mp he
    rfl

/-- The sets of plain names are the ones that cleaning leaves alone. -/
theorem cleanIdentifiers_eq_self_iff : s.cleanIdentifiers = .ok s ↔ s.HasPlainNames :=
  ⟨hasPlainNames_of_cleanIdentifiers, cleanIdentifiers_of_hasPlainNames⟩

/-- A set that has been cleaned is cleaned again without a change. -/
theorem cleanIdentifiers_idempotent (h : s.cleanIdentifiers = .ok c) :
    c.cleanIdentifiers = .ok c :=
  cleanIdentifiers_eq_self_iff.mpr (hasPlainNames_of_cleanIdentifiers h)

/-- A padded name and a head that has become the name of a variable. -/
theorem cleanIdentifiers_idempotent_displaced :
    displaced.cleanIdentifiers = .ok displacedClean ∧
      displacedClean.cleanIdentifiers = .ok displacedClean := by
  have hclean : displaced.cleanIdentifiers = .ok displacedClean := by decide +kernel
  exact ⟨hclean, cleanIdentifiers_idempotent hclean⟩

end EquationSet

end DiffAnalyzer
