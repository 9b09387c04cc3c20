import DiffAnalyzer.Proofs.FieldNames
import DiffAnalyzer.Proofs.SortedMap
import Mathlib

/-!
# Names that are handed out

A renamer hands out letters, digits and underscores only, no name that is reserved, and no name
twice (`Renamer.IsSound`).  It keeps what it has handed out (`Renamer.Extends`), so that fields
of different variables have different names, whichever records they are in
(`CSource.Fields.nodup_names`).
-/

namespace DiffAnalyzer

/-- Letters, digits and underscores. -/
def isPlainPart (c : Char) : Bool := c.isAlphanum || c == '_'

/-- The name is made of letters, digits and underscores and does not start with a digit. -/
def Atom.isPlain (a : Atom) : Bool :=
  match a.chars with
  | [] => false
  | c :: rest => isNameStart c && rest.all isPlainPart

theorem Atom.isPlain_of_forall {a : Atom} (h : ∀ c ∈ a.chars, isPlainPart c = true) :
    a.isPlain = true := by
  have hvalid := a.valid
  unfold isPlain
  split
  · rename_i hchars
    rw [hchars] at hvalid
    cases hvalid
  · rename_i c rest hchars
    rw [hchars, isName, Bool.and_eq_true] at hvalid
    rw [hchars, List.forall_mem_cons] at h
    rw [Bool.and_eq_true, List.all_eq_true]
    exact ⟨hvalid.1, h.2⟩

theorem isPlainPart_of_cleanChar? {c d : Char} (h : cleanChar? c = some d) :
    isPlainPart d = true := by
  unfold cleanChar? at h
  split at h
  · cases h
    rfl
  · split at h
    · rename_i hc
      cases h
      simpa [isPlainPart] using hc
    · cases h

theorem isPlainPart_of_mem_cleanChars {name : List Char} {c : Char} (h : c ∈ cleanChars name) :
    isPlainPart c = true := by
  have hparts : ∀ d ∈ name.filterMap cleanChar?, isPlainPart d = true := by
    intro d hd
    obtain ⟨b, -, hb⟩ := List.mem_filterMap.mp hd
    exact isPlainPart_of_cleanChar? hb
  unfold cleanChars at h
  split at h
  · cases h
  · rename_i first rest hfirst
    rw [hfirst] at hparts
    split at h
    · rcases List.mem_cons.mp h with rfl | h
      · rfl
      · exact hparts c h
    · exact hparts c h

theorem isPlainPart_of_cleanName {name : String} {base : Atom} (h : cleanName name = .ok base) :
    ∀ c ∈ base.chars, isPlainPart c = true := by
  unfold cleanName at h
  split at h
  · cases h
  · cases h
    exact fun c hc => isPlainPart_of_mem_cleanChars hc

/-- Variants of a plain name are plain. -/
theorem Atom.isPlain_of_free? {base a : Atom} {taken : Atom → Bool}
    (hbase : ∀ c ∈ base.chars, isPlainPart c = true) (h : base.free? taken = some a) :
    a.isPlain = true := by
  obtain ⟨k, -, rfl⟩ := List.mem_map.mp (List.mem_of_find?_eq_some h)
  apply isPlain_of_forall
  intro c hc
  rw [padded, extend_chars, List.mem_append] at hc
  rcases hc with hc | hc
  · exact hbase c hc
  · rw [List.eq_of_mem_replicate hc]
    rfl

namespace Renamer

variable {r r' r'' : Renamer} {name other : String} {a : Atom}

/-- The identifiers in the table are different, plain and not reserved. -/
structure IsSound (r : Renamer) : Prop where
  nodup : (r.table.map Prod.snd).Nodup
  plain : ∀ e ∈ r.table, e.2.isPlain = true
  usable : ∀ e ∈ r.table, toString e.2 ∉ r.reserved

theorem isSound_ofReserved (reserved : List String) : (ofReserved reserved).IsSound :=
  ⟨List.nodup_nil, nofun, nofun⟩

/-- The second renamer has handed out what the first has, and maybe more. -/
structure Extends (r r' : Renamer) : Prop where
  reserved : r'.reserved = r.reserved
  get? : ∀ name a, r.get? name = some a → r'.get? name = some a

theorem Extends.refl (r : Renamer) : r.Extends r := ⟨rfl, fun _ _ => id⟩

theorem Extends.trans (h : r.Extends r') (h' : r'.Extends r'') : r.Extends r'' :=
  ⟨h'.reserved.trans h.reserved, fun name a hname => h'.get? name a (h.get? name a hname)⟩

theorem mem_table_of_get? (h : r.get? name = some a) : (name, a) ∈ r.table :=
  mem_of_lookup_eq_some h

/-- No identifier is handed out for two names. -/
theorem IsSound.get?_injective (hr : r.IsSound) (h : r.get? name = some a)
    (h' : r.get? other = some a) : name = other := by
  have hentry := List.inj_on_of_nodup_map hr.nodup (mem_table_of_get? h) (mem_table_of_get? h') rfl
  exact congrArg Prod.fst hentry

theorem IsSound.enter (hr : r.IsSound) (hplain : a.isPlain = true) (hfree : r.occupied a = false)
    (name : String) : IsSound { r with table := (name, a) :: r.table } := by
  rw [occupied, Bool.or_eq_false_iff, List.contains_eq_mem, decide_eq_false_iff_not,
    List.any_eq_false] at hfree
  obtain ⟨husable, hfresh⟩ := hfree
  constructor
  case nodup =>
    refine List.nodup_cons.mpr ⟨fun hmem => ?_, hr.nodup⟩
    obtain ⟨e, he, heq⟩ := List.mem_map.mp hmem
    exact hfresh e he (beq_iff_eq.mpr heq)
  case plain => exact List.forall_mem_cons.mpr ⟨hplain, hr.plain⟩
  case usable => exact List.forall_mem_cons.mpr ⟨husable, hr.usable⟩

theorem extends_enter (hnone : r.get? name = none) (a : Atom) :
    r.Extends { r with table := (name, a) :: r.table } := by
  refine ⟨rfl, fun other b hother => ?_⟩
  have hne : (other == name) = false := by
    rw [beq_eq_false_iff_ne]
    rintro rfl
    cases hnone.symm.trans hother
  rw [Renamer.get?, List.lookup_cons, hne]
  exact hother

/-- A name is looked up, or an identifier that is free is entered for it. -/
theorem rename_eq_ok_iff : rename name r = .ok (a, r') ↔
    r.get? name = some a ∧ r' = r ∨
      r.get? name = none ∧ r' = { r with table := (name, a) :: r.table } ∧
        ∃ base, cleanName name = .ok base ∧ base.free? r.occupied = some a := by
  unfold rename
  cases r.get? name with
  | some b =>
    constructor
    · intro h
      cases h
      exact .inl ⟨rfl, rfl⟩
    · rintro (⟨hb, rfl⟩ | ⟨hb, -⟩)
      · rw [Option.some.inj hb]
      · cases hb
  | none =>
    constructor
    · intro h
      obtain ⟨base, hbase, h⟩ := bind_eq_ok_iff.mp h
      split at h
      · cases h
      · rename_i b hfree
        cases h
        exact .inr ⟨rfl, rfl, base, hbase, hfree⟩
    · rintro (⟨hb, -⟩ | ⟨-, rfl, base, hbase, hfree⟩)
      · cases hb
      · refine bind_eq_ok_iff.mpr ⟨base, hbase, ?_⟩
        rw [hfree]

/-- A new name is refused if nothing is left of it, or no spelling is free. -/
theorem rename_eq_error_iff {e : CompileError} : rename name r = .error e ↔
    r.get? name = none ∧ (cleanName name = .error e ∨
      ∃ base, cleanName name = .ok base ∧ base.free? r.occupied = none ∧
        e = .nameExhaustion base) := by
  unfold rename
  cases r.get? name with
  | some b => exact ⟨nofun, nofun⟩
  | none =>
    constructor
    · intro h
      rcases bind_eq_error_iff.mp h with h | ⟨base, hbase, h⟩
      · exact ⟨rfl, .inl h⟩
      · split at h
        · rename_i hfree
          cases h
          exact ⟨rfl, .inr ⟨base, hbase, hfree, rfl⟩⟩
        · cases h
    · rintro ⟨-, h | ⟨base, hbase, hfree, rfl⟩⟩
      · exact bind_eq_error_iff.mpr (.inl h)
      · refine bind_eq_error_iff.mpr (.inr ⟨base, hbase, ?_⟩)
        rw [hfree]

/-- What is handed out is plain and usable, and earlier names keep their identifiers. -/
theorem rename_spec (hr : r.IsSound) (h : rename name r = .ok (a, r')) :
    r'.IsSound ∧ r.Extends r' ∧ r'.get? name = some a := by
  rcases rename_eq_ok_iff.mp h with ⟨hget, rfl⟩ | ⟨hnone, rfl, base, hbase, hfree⟩
  · exact ⟨hr, .refl r', hget⟩
  · have hplain := Atom.isPlain_of_free? (isPlainPart_of_cleanName hbase) hfree
    refine ⟨hr.enter hplain (Atom.not_taken_of_free? hfree) name, extends_enter hnone a, ?_⟩
    rw [Renamer.get?, List.lookup_cons, beq_self_eq_true]

end Renamer

namespace CSource

open Renamer

/-- The renamer knows the identifiers of the fields. -/
def Named (r : Renamer) (fields : List Field) : Prop :=
  ∀ field ∈ fields, r.get? (toString field.variableName) = some field.name

theorem Named.mono {r r' : Renamer} {fields : List Field} (h : Named r fields)
    (hr : r.Extends r') : Named r' fields := fun field hfield =>
  hr.get? _ _ (h field hfield)

/-- Naming the fields of a record goes on from what has been handed out before. -/
theorem nameFields_spec {r r' : Renamer} {record : Record} {fields : List Field}
    (hr : r.IsSound) (h : nameFields record r = .ok (fields, r')) :
    r'.IsSound ∧ r.Extends r' ∧ Named r' fields := by
  obtain ⟨hsound, hextends, hnamed⟩ := stateMapM_spec (I := IsSound) (R := Extends)
    (Q := fun r _ field => r.get? (toString field.variableName) = some field.name)
    .refl .trans (fun hr => hr.get? _ _) (fun variableName _ r field r' hr hfield => by
      obtain ⟨name, r₁, hname, hfield⟩ := stateBind_eq_ok_iff.mp hfield
      obtain ⟨rfl, rfl⟩ := statePure_eq_ok_iff.mp hfield
      exact rename_spec hr hname) hr h
  refine ⟨hsound, hextends, fun field hfield => ?_⟩
  obtain ⟨-, -, hget⟩ := exists_of_forall₂ hnamed.flip hfield
  exact hget

namespace Fields

/-- The fields of all records. -/
def all (f : Fields) : List Field := f.state ++ f.aux ++ f.constants

end Fields

end CSource

/-- The names of all fields. -/
def Layout.names (l : Layout) : List Atom :=
  l.state.fields ++ l.aux.fields ++ l.constants.fields

namespace CSource.Fields

open Renamer

variable {l : Layout} {f : Fields}

/-- One renamer serves all records. -/
theorem exists_renamer (h : ofLayout l = .ok f) :
    ∃ r : Renamer, r.IsSound ∧ r.reserved = unusableNames ∧ Named r f.all := by
  obtain ⟨r, r', r'', hstate, haux, hconstants⟩ := ofLayout_eq_ok_iff.mp h
  obtain ⟨hsound, hextends, hnamed⟩ := nameFields_spec (isSound_ofReserved _) hstate
  obtain ⟨hsound', hextends', hnamed'⟩ := nameFields_spec hsound haux
  obtain ⟨hsound'', hextends'', hnamed''⟩ := nameFields_spec hsound' hconstants
  refine ⟨r'', hsound'', ((hextends.trans hextends').trans hextends'').reserved, ?_⟩
  intro field hfield
  rw [all, List.mem_append, List.mem_append] at hfield
  rcases hfield with (hfield | hfield) | hfield
  · exact hnamed.mono (hextends'.trans hextends'') field hfield
  · exact hnamed'.mono hextends'' field hfield
  · exact hnamed'' field hfield

theorem map_variableName_all (h : ofLayout l = .ok f) :
    f.all.map Field.variableName = l.names := by
  rw [all, List.map_append, List.map_append]
  exact congrArg₂ (· ++ ·) (congrArg₂ (· ++ ·) (map_variableName_group h .state)
    (map_variableName_group h .aux)) (map_variableName_group h .constant)

/-- Identifiers of fields are plain and usable. -/
theorem isPlain_of_mem_all (h : ofLayout l = .ok f) {field : Field} (hfield : field ∈ f.all) :
    field.name.isPlain = true ∧ toString field.name ∉ unusableNames := by
  obtain ⟨r, hsound, hreserved, hnamed⟩ := exists_renamer h
  have hentry := mem_table_of_get? (hnamed field hfield)
  rw [← hreserved]
  exact ⟨hsound.plain _ hentry, hsound.usable _ hentry⟩

/-- Fields of different variables have different identifiers. -/
theorem nodup_names (h : ofLayout l = .ok f) (hl : l.names.Nodup) :
    (f.all.map Field.name).Nodup := by
  obtain ⟨r, hsound, -, hnamed⟩ := exists_renamer h
  rw [← map_variableName_all h, List.Nodup, List.pairwise_map] at hl
  refine List.pairwise_map.mpr (hl.imp_of_mem ?_)
  intro field field' hfield hfield' hne hname
  have hget' := hnamed field' hfield'
  rw [← hname] at hget'
  have htext := hsound.get?_injective (hnamed field hfield) hget'
  exact hne (Atom.toString_injective htext)

end CSource.Fields

end DiffAnalyzer
