import DiffAnalyzer.Proofs.Duplicates
import DiffAnalyzer.Proofs.RenamerCalls
import Mathlib

/-!
# Plain identifiers for the names of a set

Cleaning renames every head by one function, which tells the variables of the set apart
(`EquationSet.IsCleaning`).  So no equation is lost and the dependencies are those of the set under
new names (`EquationSet.cleanIdentifiers_injOn`).
-/

namespace DiffAnalyzer

section Heads

variable {f : Atom → Atom}

theorem Arg.mapHeads_node (head : Atom) (tail : List Arg) :
    (Arg.node head tail).mapHeads f = .node (f head) (tail.map (Arg.mapHeads f)) := by
  rw [mapHeads, mapHeadsList_eq_map]

/-- Renaming the heads of an argument renames what it refers to. -/
theorem Arg.references_mapHeads (a : Arg) : (a.mapHeads f).references = a.references.map f :=
  references_map (fun _ => rfl) (fun _ => rfl) (fun head tail _ => ⟨f head, mapHeads_node head tail⟩)
    a

namespace EquationSet

variable {s : EquationSet} {u v w : Atom} {t : Term}

/-- A renaming that tells the bound names apart keeps all equations. -/
theorem nodup_mapHeads (hf : Set.InjOn f {v | v ∈ s.keys}) :
    ((s.toList.map fun e => (f e.1, e.2.mapHeads f)).map Prod.fst).Nodup := by
  have hkeys : (s.keys.map f).Nodup := s.nodup_keys.map_on fun _ hu _ hv => hf hu hv
  rw [SortedMap.keys, List.map_map] at hkeys
  rw [List.map_map]
  exact hkeys

theorem get?_mapHeads (hf : Set.InjOn f {v | v ∈ s.keys}) : (s.mapHeads f).get? w = some t ↔
    ∃ name rhs, s.get? name = some rhs ∧ f name = w ∧ rhs.mapHeads f = t := by
  rw [mapHeads, SortedMap.get?_ofList_eq_some_iff (nodup_mapHeads hf), List.mem_map]
  simp only [Prod.exists, Prod.mk.injEq, SortedMap.get?_eq_some_iff]

theorem mem_keys_mapHeads (hf : Set.InjOn f {v | v ∈ s.keys}) :
    w ∈ (s.mapHeads f).keys ↔ ∃ name ∈ s.keys, f name = w := by
  simp only [SortedMap.mem_keys_iff, get?_mapHeads hf]
  constructor
  · rintro ⟨-, name, rhs, hrhs, rfl, -⟩
    exact ⟨name, ⟨rhs, hrhs⟩, rfl⟩
  · rintro ⟨name, ⟨rhs, hrhs⟩, rfl⟩
    exact ⟨_, name, rhs, hrhs, rfl, rfl⟩

theorem size_mapHeads (hf : Set.InjOn f {v | v ∈ s.keys}) : (s.mapHeads f).size = s.size := by
  rw [mapHeads, SortedMap.size_ofList (nodup_mapHeads hf), List.length_map, SortedMap.size]

theorem mem_dependencyGraph_mapHeads (hf : Set.InjOn f {v | v ∈ s.keys}) :
    (u, v) ∈ (s.mapHeads f).dependencyGraph ↔
      ∃ u' v', (u', v') ∈ s.dependencyGraph ∧ f u' = u ∧ f v' = v := by
  constructor
  · intro h
    obtain ⟨t, ht, hv⟩ := mem_dependencyGraph.mp h
    obtain ⟨name, rhs, hrhs, rfl, rfl⟩ := (get?_mapHeads hf).mp (SortedMap.get?_eq_some_iff.mpr ht)
    rw [Term.mem_dependencies, Term.toArg_mapHeads, Arg.references_mapHeads] at hv
    obtain ⟨v', hv', rfl⟩ := List.mem_map.mp hv
    exact ⟨name, v', (mem_dependencyGraph_iff hrhs).mpr hv', rfl, rfl⟩
  · rintro ⟨name, v', hedge, rfl, rfl⟩
    obtain ⟨rhs, hrhs, hv'⟩ := mem_dependencyGraph.mp hedge
    have ht := (get?_mapHeads hf).mpr ⟨name, rhs, SortedMap.get?_eq_some_iff.mpr hrhs, rfl, rfl⟩
    rw [mem_dependencyGraph_iff ht, Term.toArg_mapHeads, Arg.references_mapHeads]
    exact List.mem_map_of_mem (Term.mem_dependencies.mp hv')

end EquationSet

end Heads

namespace Renamer

variable {r r' : Renamer} {names : List Atom} {v a : Atom}

/-- The renamer has no words of its own and has been asked for some of the names. -/
structure Serves (names : List Atom) (r : Renamer) : Prop where
  isSound : r.IsSound
  isMinimal : r.IsMinimal
  reserved : r.reserved = []
  known : ∀ e ∈ r.table, ∃ v ∈ names, e.1 = toString v

theorem serves_ofReserved (names : List Atom) : (ofReserved []).Serves names :=
  ⟨isSound_ofReserved [], isMinimal_ofReserved [], rfl, nofun⟩

namespace Serves

variable (hr : r.Serves names) (hv : v ∈ names)
include hr

/-- Only other names stand in the way of a spelling. -/
theorem exists_of_occupied (h : r.occupied a = true) :
    ∃ u ∈ names, r.get? (toString u) = some a := by
  rw [occupied, hr.reserved, List.contains_nil, Bool.false_or, List.any_eq_true] at h
  obtain ⟨⟨name, b⟩, hmem, hb⟩ := h
  obtain ⟨u, hu, rfl⟩ := hr.known _ hmem
  obtain rfl := beq_iff_eq.mp hb
  exact ⟨u, hu, hr.isMinimal.get?_eq_some_iff.mpr hmem⟩

include hv

theorem rename (h : Renamer.rename (toString v) r = .ok (a, r')) : r'.Serves names := by
  obtain ⟨hsound, hextends, -⟩ := rename_spec hr.isSound h
  refine ⟨hsound, hr.isMinimal.rename h, hextends.reserved.trans hr.reserved, ?_⟩
  rcases rename_eq_ok_iff.mp h with ⟨-, rfl⟩ | ⟨-, rfl, -⟩
  · exact hr.known
  · exact List.forall_mem_cons.mpr ⟨⟨v, hv, rfl⟩, hr.known⟩

/-- A name is refused only when all its spellings have been given to other names. -/
theorem exhaustion_of_rename {e : CompileError} (h : Renamer.rename (toString v) r = .error e) :
    (∃ base, e = .nameExhaustion base) ∧ 65 < names.length := by
  obtain ⟨hnone, hclean | ⟨base, hbase, hfree, rfl⟩⟩ := rename_eq_error_iff.mp h
  · obtain ⟨base, hbase⟩ := exists_cleanName v
    cases hclean.symm.trans hbase
  · refine ⟨⟨base, rfl⟩, ?_⟩
    have hothers : ∀ k ≤ Atom.maxPadding,
        base.padded k ∈ (names.erase v).filterMap fun u => r.get? (toString u) := fun k hk => by
      obtain ⟨u, hu, hget⟩ := hr.exists_of_occupied (Atom.free?_eq_none_iff.mp hfree k hk)
      refine List.mem_filterMap.mpr ⟨u, (List.mem_erase_of_ne ?_).mpr hu, hget⟩
      rintro rfl
      cases hnone.symm.trans hget
    have hspellings := Atom.maxPadding_lt_length hothers
    have hlength := List.length_filterMap_le (fun u : Atom => r.get? (toString u)) (names.erase v)
    have herase := List.length_erase_of_mem hv
    simp only [Atom.maxPadding] at hspellings
    omega

end Serves

theorem preserves_rename (hv : v ∈ names) :
    Preserves (Serves names) (fun e => (∃ base, e = .nameExhaustion base) ∧ 65 < names.length)
      (rename (toString v)) :=
  fun _ hr => ⟨fun _ h => hr.exhaustion_of_rename hv h, fun _ h => hr.rename hv h⟩

end Renamer

namespace EquationSet

open Renamer

variable {s c : EquationSet} {f : Atom → Atom} {v head : Atom}

/-- What cleaning does to heads.  Variables get different identifiers, as short as the others allow,
and the heads that are no variables are only cleaned. -/
structure IsCleaning (s : EquationSet) (f : Atom → Atom) : Prop where
  injOn : Set.InjOn f {v | v ∈ s.vars}
  isPlain : ∀ v ∈ s.vars, (f v).isPlain = true
  spelling : ∀ v ∈ s.vars, ∃ base k, cleanName (toString v) = .ok base ∧ f v = base.padded k ∧
    ∀ j < k, ∃ u ∈ s.vars, f u = base.padded j
  cleaned : ∀ head ∈ s.elementHeads, head ∉ s.vars → cleanName (toString head) = .ok (f head)

theorem IsCleaning.injOn_keys (hf : s.IsCleaning f) : Set.InjOn f {v | v ∈ s.keys} :=
  hf.injOn.mono fun _ hv => mem_vars.mpr (.inl hv)

/-- A function that agrees with what a renamer has for the variables. -/
theorem isCleaning_of_serves {r : Renamer} (hr : r.Serves s.vars)
    (hf : ∀ v ∈ s.vars, r.get? (toString v) = some (f v))
    (cleaned : ∀ head ∈ s.elementHeads, head ∉ s.vars →
      cleanName (toString head) = .ok (f head)) : s.IsCleaning f := by
  refine ⟨fun u hu v hv huv => ?_, fun v hv => ?_, fun v hv => ?_, cleaned⟩
  · have hu' := hf u hu
    rw [huv] at hu'
    exact Atom.toString_injective (hr.isSound.get?_injective hu' (hf v hv))
  · exact hr.isSound.plain _ (mem_table_of_get? (hf v hv))
  · obtain ⟨base, k, hbase, hpadded, hbefore⟩ :=
      hr.isMinimal.spelling _ (mem_table_of_get? (hf v hv))
    refine ⟨base, k, hbase, hpadded, fun j hj => ?_⟩
    obtain ⟨u, hu, hget⟩ := hr.exists_of_occupied (hbefore j hj)
    exact ⟨u, hu, Option.some.inj ((hf u hu).symm.trans hget)⟩

/-- What is left of a name is found under the name. -/
theorem exists_lookup_of_cleanNames {heads : List Atom} {entries : List (Atom × Atom)}
    (h : (heads.mapM fun head => do pure (head, ← cleanName (toString head))) = .ok entries)
    (hhead : head ∈ heads) :
    ∃ base, entries.lookup head = some base ∧ cleanName (toString head) = .ok base := by
  have hentries := mapM_eq_ok_iff.mp h
  obtain ⟨e, he, hrun⟩ := exists_of_forall₂ hentries hhead
  obtain ⟨base, -, heq⟩ := bind_eq_ok_iff.mp hrun
  cases heq
  obtain ⟨base', hlookup, hmem⟩ := exists_lookup_eq_some (List.mem_map_of_mem he)
  obtain ⟨head', -, hrun'⟩ := (mem_iff_of_forall₂ hentries).mp hmem
  obtain ⟨_, hbase', heq⟩ := bind_eq_ok_iff.mp hrun'
  cases heq
  exact ⟨base', hlookup, hbase'⟩

theorem exists_isCleaning (h : s.cleanIdentifiers = .ok c) :
    ∃ f, s.IsCleaning f ∧ c = s.mapHeads f := by
  obtain ⟨⟨identifiers, r⟩, hidentifiers, h⟩ := bind_eq_ok_iff.mp h
  obtain ⟨elements, helements, h⟩ := bind_eq_ok_iff.mp h
  obtain ⟨hr, -, hvars⟩ := stateMapM_spec (I := Serves s.vars) (R := Extends)
    (Q := fun r v a => r.get? (toString v) = some a) .refl .trans (fun hr => hr.get? _ _)
    (fun v hv _ _ _ hr h => ⟨hr.rename hv h, (rename_spec hr.isSound h).2⟩)
    (serves_ofReserved s.vars) hidentifiers
  obtain ⟨hlength, hzip⟩ := List.forall₂_iff_zip.mp hvars
  have hkeys := List.map_fst_zip hlength.le
  refine ⟨_, isCleaning_of_serves hr (fun v hv => ?_) fun head hhead hnot => ?_,
    (Except.ok.inj h).symm⟩
  -- variables are found in the front of the table, other heads behind it
  · obtain ⟨a, ha, hmem⟩ := exists_lookup_eq_some (hkeys.symm ▸ hv)
    rw [List.lookup_append, ha]
    exact hzip hmem
  · obtain ⟨base, hlookup, hbase⟩ := exists_lookup_of_cleanNames helements
      (List.mem_filter.mpr ⟨hhead, by simpa using hnot⟩)
    rw [List.lookup_append, lookup_eq_none_iff_not_mem.mpr (hkeys.symm ▸ hnot), hlookup]
    exact hbase

theorem failsOnly_cleanIdentifiers (s : EquationSet) :
    FailsOnly (fun e => (∃ base, e = .nameExhaustion base) ∧ 65 < s.vars.length)
      s.cleanIdentifiers := by
  have hvars := Preserves.mapM (fun v (hv : v ∈ s.vars) => preserves_rename hv) _
    (serves_ofReserved s.vars)
  refine hvars.1.bind fun _ => (FailsOnly.mapM (fun head => ?_) _).bind fun _ => .ok _
  obtain ⟨base, hbase⟩ := exists_cleanName head
  rw [hbase]
  exact .ok (head, base)

/-- Cleaning fails for want of a name only, and then there are more variables than spellings.
Otherwise it renames the variables injectively into letters, digits and underscores, keeps each
equation under its new name, and has the dependencies of the set under their new names. -/
theorem cleanIdentifiers_injOn (s : EquationSet) :
    (∀ e, s.cleanIdentifiers = .error e →
      (∃ base, e = .nameExhaustion base) ∧ 65 < s.vars.length) ∧
    ∀ c, s.cleanIdentifiers = .ok c → ∃ r : Atom → Atom,
      Set.InjOn r {v | v ∈ s.vars} ∧ (∀ v ∈ s.vars, (r v).isPlain = true) ∧
      (∀ w, w ∈ c.keys ↔ ∃ x ∈ s.keys, r x = w) ∧ c.size = s.size ∧
      ∀ w w', (w, w') ∈ c.dependencyGraph ↔
        ∃ u v, (u, v) ∈ s.dependencyGraph ∧ r u = w ∧ r v = w' := by
  refine ⟨failsOnly_cleanIdentifiers s, fun c hc => ?_⟩
  obtain ⟨f, hf, rfl⟩ := exists_isCleaning hc
  exact ⟨f, hf.injOn, hf.isPlain, fun w => mem_keys_mapHeads hf.injOn_keys,
    size_mapHeads hf.injOn_keys, fun w w' => mem_dependencyGraph_mapHeads hf.injOn_keys⟩

/-- The circuit `x = neg(x')`, `x' = sum(x, x_)`. -/
def primed : EquationSet :=
  let x : Atom := ⟨['x'], .refl true⟩
  let x' : Atom := ⟨['x', '\x27'], .refl true⟩
  let padded : Atom := ⟨['x', '_'], .refl true⟩
  .ofList [(x, ⟨Element.neg.name, [.node x' []]⟩),
    (x', ⟨Element.sum.name, [.node x [], .node padded []]⟩)]

/-- The circuit `x = neg(x_)`, `x_ = sum(x, x__)`. -/
def primedClean : EquationSet :=
  let x : Atom := ⟨['x'], .refl true⟩
  let padded : Atom := ⟨['x', '_'], .refl true⟩
  let paddedAgain : Atom := ⟨['x', '_', '_'], .refl true⟩
  .ofList [(x, ⟨Element.neg.name, [.node padded []]⟩),
    (padded, ⟨Element.sum.name, [.node x [], .node paddedAgain []]⟩)]

theorem cleanIdentifiers_injOn_primed :
    primed.cleanIdentifiers = .ok primedClean ∧ ∃ r : Atom → Atom,
      Set.InjOn r {v | v ∈ primed.vars} ∧ (∀ v ∈ primed.vars, (r v).isPlain = true) ∧
      (∀ w, w ∈ primedClean.keys ↔ ∃ x ∈ primed.keys, r x = w) ∧
      primedClean.size = primed.size ∧ ∀ w w', (w, w') ∈ primedClean.dependencyGraph ↔
        ∃ u v, (u, v) ∈ primed.dependencyGraph ∧ r u = w ∧ r v = w' := by
  have hprimed : primed.cleanIdentifiers = .ok primedClean := by decide +kernel
  exact ⟨hprimed, primed.cleanIdentifiers_injOn.2 primedClean hprimed⟩

end EquationSet

end DiffAnalyzer
