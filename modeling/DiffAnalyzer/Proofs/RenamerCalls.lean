import DiffAnalyzer.Proofs.FreshNames
import DiffAnalyzer.Proofs.Renaming
import Mathlib

/-!
# A renamer in use

Calls on a renamer are answered one after another, some with a name and some with an error
(`Renamer.calls`).  A name is spelled as short as the names before it allow (`Renamer.IsMinimal`).
After any calls the table of the renamer holds the names given so far
(`Renamer.Records`), so that what a call answers can be told from the answers before it
(`Renamer.calls_injective_and_refuses`).
-/

namespace DiffAnalyzer

section Cleaning

variable {name : String} {e : CompileError}

theorem cleanChar?_eq_none_iff {c : Char} : cleanChar? c = none ↔
    ¬(c.isAlphanum = true ∨ c = '_' ∨ c = '^' ∨ c = '-') := by
  unfold cleanChar?
  split
  · rename_i h
    exact ⟨nofun, fun hnot => absurd (.inr (.inr h)) hnot⟩
  · rename_i h
    split
    · rename_i hkept
      exact ⟨nofun, fun hnot => absurd (hkept.imp_right .inl) hnot⟩
    · rename_i hkept
      refine ⟨fun _ => ?_, fun _ => rfl⟩
      rintro (hc | hc | hc)
      · exact hkept (.inl hc)
      · exact hkept (.inr hc)
      · exact h hc

theorem cleanChars_eq_nil_iff {chars : List Char} :
    cleanChars chars = [] ↔ ∀ c ∈ chars, cleanChar? c = none := by
  rw [← List.filterMap_eq_nil_iff]
  unfold cleanChars
  split
  · rename_i hnil
    exact ⟨fun _ => hnil, fun _ => rfl⟩
  · rename_i hcons
    constructor
    · intro h
      split at h <;> cases h
    · intro hnil
      cases hnil.symm.trans hcons

/-- Nothing is left of a name without letters, digits, underscores, carets and hyphens. -/
theorem cleanName_eq_error_iff : cleanName name = .error e ↔ e = .emptyIdentifier name ∧
    ∀ c ∈ name.toList, ¬(c.isAlphanum = true ∨ c = '_' ∨ c = '^' ∨ c = '-') := by
  simp only [← cleanChar?_eq_none_iff]
  rw [← cleanChars_eq_nil_iff]
  unfold cleanName
  split
  · rename_i hnil
    rw [Except.error.injEq]
    exact ⟨fun h => ⟨h.symm, hnil⟩, fun h => h.1.symm⟩
  · rename_i hne
    constructor
    · intro h
      cases h
    · rintro ⟨-, hnil⟩
      exact absurd hnil hne

end Cleaning

namespace Renamer

variable {r r' : Renamer} {reserved : List String} {name : String} {a : Atom} {e : CompileError}
  {answer : Except CompileError Atom}

theorem occupied_enter (h : r.occupied a = true) (entry : String × Atom) :
    occupied { r with table := entry :: r.table } a = true := by
  rw [occupied, Bool.or_eq_true] at h ⊢
  rw [List.any_cons, Bool.or_eq_true]
  exact h.imp_right .inr

/-- Each name comes once, with the least padding that the identifiers before it leave. -/
structure IsMinimal (r : Renamer) : Prop where
  nodup : (r.table.map Prod.fst).Nodup
  spelling : ∀ e ∈ r.table, ∃ base k, cleanName e.1 = .ok base ∧ e.2 = base.padded k ∧
    ∀ j < k, r.occupied (base.padded j) = true

theorem isMinimal_ofReserved (reserved : List String) : (ofReserved reserved).IsMinimal :=
  ⟨List.nodup_nil, nofun⟩

theorem IsMinimal.get?_eq_some_iff (hr : r.IsMinimal) :
    r.get? name = some a ↔ (name, a) ∈ r.table :=
  lookup_eq_some_iff_mem hr.nodup

theorem IsMinimal.rename (hr : r.IsMinimal) (h : rename name r = .ok (a, r')) :
    r'.IsMinimal := by
  rcases rename_eq_ok_iff.mp h with ⟨-, rfl⟩ | ⟨hnone, rfl, base, hbase, hfree⟩
  · exact hr
  · constructor
    case nodup =>
      refine List.nodup_cons.mpr ⟨fun hmem => ?_, hr.nodup⟩
      obtain ⟨⟨_, b⟩, hb, rfl⟩ := List.mem_map.mp hmem
      cases hnone.symm.trans (hr.get?_eq_some_iff.mpr hb)
    case spelling =>
      obtain ⟨k, -, rfl, -, htaken⟩ := Atom.free?_eq_some_iff.mp hfree
      refine List.forall_mem_cons.mpr ⟨⟨base, k, hbase, rfl, ?_⟩, fun e he => ?_⟩
      · exact fun j hj => occupied_enter (htaken j hj) _
      · obtain ⟨base', k', hbase', hpadded, hbefore⟩ := hr.spelling e he
        exact ⟨base', k', hbase', hpadded, fun j hj => occupied_enter (hbefore j hj) _⟩

/-- A call on a renamer in use answers what `rename` does, and a refusal changes nothing. -/
theorem run_call (name : String) (r : Renamer) :
    (call name).run r = match rename name r with
      | .ok (a, r') => (.ok a, r')
      | .error e => (.error e, r) := by
  rw [call, run_bind_eq, run_get_eq, rename]
  dsimp only
  cases r.get? name with
  | some a => rfl
  | none =>
    dsimp only
    rw [run_bind_eq, run_liftM_eq]
    cases cleanName name with
    | error e => rfl
    | ok base =>
      dsimp only [bind, Except.bind]
      cases base.free? r.occupied with
      | none => rfl
      | some a => rfl

theorem run_call_eq_error_iff :
    (call name).run r = (.error e, r') ↔ r' = r ∧ rename name r = .error e := by
  rw [run_call]
  cases rename name r with
  | ok outcome => exact ⟨nofun, nofun⟩
  | error e' =>
    constructor
    · intro h
      cases h
      exact ⟨rfl, rfl⟩
    · rintro ⟨rfl, h⟩
      cases h
      rfl

/-- A call looks a name up, enters it, or leaves the renamer as it is. -/
theorem run_call_cases (h : (call name).run r = (answer, r')) :
    (∃ a, answer = .ok a ∧ rename name r = .ok (a, r')) ∨ ∃ e, answer = .error e ∧ r' = r := by
  rw [run_call] at h
  split at h
  · rename_i a r'' hrename
    cases h
    exact .inl ⟨a, rfl, hrename⟩
  · rename_i e _
    cases h
    exact .inr ⟨e, rfl, rfl⟩

/-- Names with what was answered, the first call first. -/
abbrev Log := List (String × Except CompileError Atom)

variable {log : Log}

/-- Calls made one after another. -/
def calls (names : List String) : StateM Renamer Log :=
  names.mapM fun name => do
    let answer ← (call name).run
    pure (name, answer)

theorem run_calls_cons (h : (call name).run r = (answer, r')) (names : List String) :
    (calls (name :: names)).run r =
      ((name, answer) :: ((calls names).run r').1, ((calls names).run r').2) := by
  rw [calls, List.mapM_cons]
  change (let outcome := (call name).run r
    ((name, outcome.1) :: ((calls names).run outcome.2).1, ((calls names).run outcome.2).2)) = _
  rw [h]

/-- The table holds the names that have been given an identifier, each once. -/
structure Records (reserved : List String) (log : Log) (r : Renamer) : Prop where
  isSound : r.IsSound
  isMinimal : r.IsMinimal
  reserved : r.reserved = reserved
  mem_table : ∀ name a, (name, a) ∈ r.table ↔ (name, .ok a) ∈ log

namespace Records

theorem start (reserved : List String) : Records reserved [] (ofReserved reserved) :=
  ⟨isSound_ofReserved reserved, isMinimal_ofReserved reserved, rfl, fun _ _ => ⟨nofun, nofun⟩⟩

variable (h : Records reserved log r)
include h

theorem get?_eq_some_iff : r.get? name = some a ↔ (name, .ok a) ∈ log := by
  rw [h.isMinimal.get?_eq_some_iff, h.mem_table]

theorem get?_eq_none_iff : r.get? name = none ↔ ∀ a, (name, .ok a) ∉ log := by
  simp only [Option.eq_none_iff_forall_ne_some, ne_eq, h.get?_eq_some_iff]

/-- Reserved words are taken, and the names given so far. -/
theorem occupied_iff :
    r.occupied a = true ↔ toString a ∈ reserved ∨ ∃ other, (other, .ok a) ∈ log := by
  simp only [occupied, Bool.or_eq_true, List.contains_iff_mem, List.any_eq_true, beq_iff_eq,
    h.reserved, ← h.mem_table]
  refine or_congr_right ⟨?_, ?_⟩
  · rintro ⟨⟨other, b⟩, hmem, rfl⟩
    exact ⟨other, hmem⟩
  · rintro ⟨other, hother⟩
    exact ⟨_, hother, rfl⟩

/-- An identifier is entered unless it is there, and a refusal changes nothing. -/
theorem after_call (hcall : (call name).run r = (answer, r')) :
    Records reserved (log ++ [(name, answer)]) r' ∧ r.Extends r' := by
  rcases run_call_cases hcall with ⟨a, rfl, hrename⟩ | ⟨e, rfl, rfl⟩
  · obtain ⟨hsound, hextends, -⟩ := rename_spec h.isSound hrename
    refine ⟨⟨hsound, h.isMinimal.rename hrename, hextends.reserved.trans h.reserved,
      fun other b => ?_⟩, hextends⟩
    rw [List.mem_append, List.mem_singleton, Prod.mk.injEq, Except.ok.injEq, ← h.mem_table]
    rcases rename_eq_ok_iff.mp hrename with ⟨hget, rfl⟩ | ⟨-, rfl, -⟩
    · refine ⟨.inl, ?_⟩
      rintro (hmem | ⟨rfl, rfl⟩)
      · exact hmem
      · exact mem_table_of_get? hget
    · rw [List.mem_cons, Prod.mk.injEq]
      exact or_comm
  · refine ⟨⟨h.isSound, h.isMinimal, h.reserved, fun other b => ?_⟩, .refl r'⟩
    rw [h.mem_table, List.mem_append, List.mem_singleton, Prod.mk.injEq]
    exact ⟨.inl, fun hmem => hmem.elim id fun hlast => nomatch hlast.2⟩

theorem after_calls (names : List String) :
    Records reserved (log ++ ((calls names).run r).1) ((calls names).run r).2 ∧
      r.Extends ((calls names).run r).2 := by
  induction names generalizing log r with
  | nil => exact ⟨(List.append_nil log).symm ▸ h, .refl r⟩
  | cons name names ih =>
    obtain ⟨answer, r', hrun⟩ : ∃ answer r', (call name).run r = (answer, r') := ⟨_, _, rfl⟩
    obtain ⟨hcall, hextends⟩ := h.after_call hrun
    obtain ⟨hcalls, hextends'⟩ := ih hcall
    rw [List.append_assoc] at hcalls
    rw [run_calls_cons hrun]
    exact ⟨hcalls, hextends.trans hextends'⟩

end Records

/-- Why a name is refused after the calls of a log. -/
inductive Refuses (reserved : List String) (log : Log) (name : String) : CompileError → Prop
  | nothingLeft
    (h : ∀ c ∈ name.toList, ¬(c.isAlphanum = true ∨ c = '_' ∨ c = '^' ∨ c = '-')) :
    Refuses reserved log name (.emptyIdentifier name)
  | noneFree {base : Atom} (new : ∀ a, (name, .ok a) ∉ log) (hbase : cleanName name = .ok base)
    (h : ∀ k ≤ 64,
      toString (base.padded k) ∈ reserved ∨ ∃ other, (other, .ok (base.padded k)) ∈ log) :
    Refuses reserved log name (.nameExhaustion base)

theorem Records.refuses_iff (h : Records reserved log r) :
    rename name r = .error e ↔ Refuses reserved log name e := by
  constructor
  · intro hrename
    obtain ⟨hnone, hclean | ⟨base, hbase, hfree, rfl⟩⟩ := rename_eq_error_iff.mp hrename
    · obtain ⟨rfl, hchars⟩ := cleanName_eq_error_iff.mp hclean
      exact .nothingLeft hchars
    · exact .noneFree (h.get?_eq_none_iff.mp hnone) hbase fun k hk =>
        h.occupied_iff.mp (Atom.free?_eq_none_iff.mp hfree k hk)
  · intro hrefuses
    cases hrefuses with
    | nothingLeft hchars =>
      have hclean := cleanName_eq_error_iff.mpr ⟨rfl, hchars⟩
      refine rename_eq_error_iff.mpr ⟨h.get?_eq_none_iff.mpr fun a hmem => ?_, .inl hclean⟩
      obtain ⟨base, -, hbase, -⟩ := h.isMinimal.spelling _ ((h.mem_table name a).mpr hmem)
      cases hclean.symm.trans hbase
    | noneFree new hbase htaken =>
      refine rename_eq_error_iff.mpr ⟨h.get?_eq_none_iff.mpr new, .inr ⟨_, hbase, ?_, rfl⟩⟩
      exact Atom.free?_eq_none_iff.mpr fun k hk => h.occupied_iff.mpr (htaken k hk)

/-- After any calls: the identifiers given are plain, not reserved, the same for the same name and
different for different names, and no later call takes one back.  The next call is refused only
where nothing is left of a name, or a new name has no free spelling, and then nothing changes. -/
theorem calls_injective_and_refuses (reserved names : List String) :
    let log := ((calls names).run (ofReserved reserved)).1
    let r := ((calls names).run (ofReserved reserved)).2
    (∀ name a, (name, .ok a) ∈ log → a.isPlain = true ∧ toString a ∉ reserved ∧
      ∀ later, ((calls later).run r).2.get? name = some a) ∧
    (∀ name other a b, (name, .ok a) ∈ log → (other, .ok b) ∈ log → (a = b ↔ name = other)) ∧
    ∀ name e r', (call name).run r = (.error e, r') ↔ r' = r ∧ Refuses reserved log name e := by
  intro log r
  have hrecords : Records reserved log r := ((Records.start reserved).after_calls names).1
  refine ⟨fun name a ha => ?_, fun name other a b ha hb => ?_, fun name e r' => ?_⟩
  · have hmem := (hrecords.mem_table name a).mpr ha
    refine ⟨hrecords.isSound.plain _ hmem, ?_, fun later => ?_⟩
    · rw [← hrecords.reserved]
      exact hrecords.isSound.usable _ hmem
    · exact (hrecords.after_calls later).2.get? name a (hrecords.get?_eq_some_iff.mpr ha)
  · rw [← hrecords.get?_eq_some_iff] at ha hb
    constructor
    · rintro rfl
      exact hrecords.isSound.get?_injective ha hb
    · rintro rfl
      exact Option.some.inj (ha.symm.trans hb)
  · rw [run_call_eq_error_iff, hrecords.refuses_iff]

/-- Two spellings of one identifier, a name of which nothing is left, and a reserved word. -/
example :
    (((calls ["a^b", "a_b", "²", "a^b", "int"]).run (ofReserved ["int"])).1.map fun e =>
      e.2.toOption.map toString) =
        [some "a_b", some "a_b_", none, some "a_b", some "int_"] := by
  decide +kernel

end Renamer

end DiffAnalyzer
