import DiffAnalyzer.CSource.Realisation
import DiffAnalyzer.Proofs.Failure
import Mathlib

/-!
# Names of fields

The renaming of a layout has one field for each of its names, in the order of the layout
(`CSource.Fields.map_variableName_group`).  It fails only when a name has no free variant
(`CSource.Fields.failsOnly_ofLayout`): names start with a letter or an underscore, so something
is always left of them.
-/

namespace DiffAnalyzer

/-- No variant of a name is free. -/
def CompileError.IsExhaustion (e : CompileError) : Prop := ∃ base, e = .nameExhaustion base

theorem cleanChar?_eq_self {c : Char} (h : c.isAlphanum = true ∨ c = '_') :
    cleanChar? c = some c := by
  have hother : ¬(c = '^' ∨ c = '-') := by
    rintro (rfl | rfl)
    · exact absurd h (by decide)
    · exact absurd h (by decide)
  rw [cleanChar?, if_neg hother, if_pos h]

theorem cleanChar?_of_isNameStart {c : Char} (h : isNameStart c = true) :
    cleanChar? c = some c := by
  rw [isNameStart, Bool.or_eq_true, beq_iff_eq] at h
  exact cleanChar?_eq_self (h.imp_left fun h => by rw [Char.isAlphanum, h, Bool.true_or])

theorem cleanChars_ne_nil {name : List Char} {c : Char} (hc : c ∈ name)
    (h : isNameStart c = true) : cleanChars name ≠ [] := by
  have hmem := List.mem_filterMap.mpr ⟨c, hc, cleanChar?_of_isNameStart h⟩
  unfold cleanChars
  split
  · rename_i hnil
    rw [hnil] at hmem
    cases hmem
  · split <;> exact List.cons_ne_nil _ _

/-- Something is left of the name of a variable. -/
theorem exists_cleanName (a : Atom) : ∃ base, cleanName (toString a) = .ok base := by
  have hne : cleanChars (toString a).toList ≠ [] := by
    rw [a.toList_toString]
    have hvalid := a.valid
    cases hchars : a.chars with
    | nil =>
      rw [hchars] at hvalid
      cases hvalid
    | cons c rest =>
      rw [hchars, isName, Bool.and_eq_true] at hvalid
      exact cleanChars_ne_nil List.mem_cons_self hvalid.1
  exact ⟨_, dif_neg hne⟩

theorem Renamer.failsOnly_rename (a : Atom) (r : Renamer) :
    FailsOnly CompileError.IsExhaustion (rename (toString a) r) := by
  unfold rename
  split
  · exact .ok _
  · obtain ⟨base, hbase⟩ := exists_cleanName a
    refine .bind (hbase ▸ .ok base) fun base => ?_
    split
    · exact .error ⟨base, rfl⟩
    · exact .ok _

namespace CSource

theorem failsOnly_nameFields (r : Record) (s : Renamer) :
    FailsOnly CompileError.IsExhaustion (nameFields r s) :=
  .stateMapM (fun a s => (Renamer.failsOnly_rename a s).stateBind fun _ _ => .ok _) r.fields s

theorem map_variableName_of_nameFields {r : Record} {s s' : Renamer} {fields : List Field}
    (h : nameFields r s = .ok (fields, s')) : fields.map Field.variableName = r.fields := by
  have hfields : List.Forall₂ (fun a field => a = field.variableName) r.fields fields :=
    forall₂_of_stateMapM (fun a s b s' hb => by
      obtain ⟨name, t, -, hb⟩ := stateBind_eq_ok_iff.mp hb
      obtain ⟨rfl, -⟩ := statePure_eq_ok_iff.mp hb
      rfl) h
  rw [← List.forall₂_map_right_iff, List.forall₂_eq_eq_eq] at hfields
  exact hfields.symm

namespace Fields

variable {l : Layout} {f : Fields}

theorem failsOnly_ofLayout (l : Layout) : FailsOnly CompileError.IsExhaustion (ofLayout l) := by
  unfold ofLayout
  refine .bind (.stateBind (failsOnly_nameFields _ _) fun _ _ => ?_) fun _ => .ok _
  exact .stateBind (failsOnly_nameFields _ _) fun _ _ =>
    .stateBind (failsOnly_nameFields _ _) fun _ _ => .ok _

/-- The records are named one after the other, the state first. -/
theorem ofLayout_eq_ok_iff : ofLayout l = .ok f ↔ ∃ r r' r'',
    nameFields l.state (.ofReserved unusableNames) = .ok (f.state, r) ∧
      nameFields l.aux r = .ok (f.aux, r') ∧
      nameFields l.constants r' = .ok (f.constants, r'') := by
  constructor
  · intro h
    obtain ⟨⟨f', r⟩, hf, h⟩ := bind_eq_ok_iff.mp h
    cases h
    obtain ⟨state, r₁, hstate, hf⟩ := stateBind_eq_ok_iff.mp hf
    obtain ⟨aux, r₂, haux, hf⟩ := stateBind_eq_ok_iff.mp hf
    obtain ⟨constants, r₃, hconstants, hf⟩ := stateBind_eq_ok_iff.mp hf
    obtain ⟨rfl, rfl⟩ := statePure_eq_ok_iff.mp hf
    exact ⟨r₁, r₂, r₃, hstate, haux, hconstants⟩
  · rintro ⟨r, r', r'', hstate, haux, hconstants⟩
    refine bind_eq_ok_iff.mpr ⟨(f, r''), ?_, rfl⟩
    exact stateBind_eq_ok_iff.mpr ⟨_, _, hstate, stateBind_eq_ok_iff.mpr ⟨_, _, haux,
      stateBind_eq_ok_iff.mpr ⟨_, _, hconstants, rfl⟩⟩⟩

/-- The fields of a group are those of the layout. -/
theorem map_variableName_group (h : ofLayout l = .ok f) (g : Group) :
    (f.group g).map Field.variableName = (l.record g).fields := by
  obtain ⟨r, r', r'', hstate, haux, hconstants⟩ := ofLayout_eq_ok_iff.mp h
  cases g with
  | state => exact map_variableName_of_nameFields hstate
  | derivative => exact map_variableName_of_nameFields hstate
  | aux => exact map_variableName_of_nameFields haux
  | constant => exact map_variableName_of_nameFields hconstants

theorem length_group (h : ofLayout l = .ok f) (g : Group) :
    (f.group g).length = (l.record g).size := by
  rw [Record.size, ← map_variableName_group h, List.length_map]

end Fields

end CSource

end DiffAnalyzer
