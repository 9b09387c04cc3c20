import DiffAnalyzer.Circuit
import DiffAnalyzer.Proofs.Lines
import Mathlib

/-!
# Circuits in several files

A text is a circuit when it is made up of equations for different names, and a circuit
collected from files has the equations of all of them, again for different names
(`Circuit.Collects`).  So a circuit may be split over files anywhere between its lines, and the
files may be added in any order (`Circuit.ofFiles_iff_parse`).
-/

namespace DiffAnalyzer

open Grammar

/-- The set consists of these equations, with different names. -/
structure EquationSet.Lists (s : EquationSet) (es : List (Atom × Term)) : Prop where
  nodup : (es.map Prod.fst).Nodup
  get?_iff : ∀ name rhs, s.get? name = some rhs ↔ (name, rhs) ∈ es

namespace EquationSet.Lists

variable {s t : EquationSet} {es fs : List (Atom × Term)}

theorem perm (h : s.Lists es) (hperm : es.Perm fs) : s.Lists fs where
  nodup := (hperm.map Prod.fst).nodup_iff.mp h.nodup
  get?_iff name rhs := by rw [h.get?_iff, hperm.mem_iff]

theorem unique (hs : s.Lists es) (ht : t.Lists es) : s = t :=
  SortedMap.ext_get? fun name => Option.ext fun rhs => by rw [hs.get?_iff, ht.get?_iff]

theorem ofList (h : (es.map Prod.fst).Nodup) : Lists (.ofList es) es where
  nodup := h
  get?_iff _ _ := SortedMap.get?_ofList_eq_some_iff h

theorem toList (s : EquationSet) : s.Lists s.toList :=
  ⟨SortedMap.nodup_keys s, fun _ _ => SortedMap.get?_eq_some_iff⟩

/-- The equations are those of the set, in some order. -/
theorem perm_toList (h : s.Lists es) : es.Perm s.toList := by
  refine (List.perm_ext_iff_of_nodup h.nodup.of_map (toList s).nodup.of_map).mpr fun e => ?_
  rw [← h.get?_iff, (toList s).get?_iff]

end EquationSet.Lists

namespace Grammar

theorem nodup_of_redefinition? {earlier ds : List Definition}
    (hearlier : (earlier.map Definition.name).Nodup) (h : redefinition? earlier ds = none) :
    ((earlier ++ ds).map Definition.name).Nodup := by
  induction ds generalizing earlier with
  | nil => rwa [List.append_nil]
  | cons d ds ih =>
    rw [redefinition?] at h
    split at h
    · cases h
    · rename_i hfresh
      have hnodup : ((d :: earlier).map Definition.name).Nodup := by
        rw [List.map_cons, List.nodup_cons]
        refine ⟨fun hmem => ?_, hearlier⟩
        obtain ⟨e, he, hname⟩ := List.mem_map.mp hmem
        exact List.find?_eq_none.mp hfresh e he (beq_iff_eq.mpr hname)
      have hall := ih hnodup h
      rw [List.map_append, List.map_cons] at hall ⊢
      exact List.nodup_middle.mpr hall

/-- Definitions are accepted when their names are different. -/
theorem redefinition?_eq_none_iff {ds : List Definition} :
    redefinition? [] ds = none ↔ ((ds.map Definition.entry).map Prod.fst).Nodup := by
  have hnames : (ds.map Definition.entry).map Prod.fst = ds.map Definition.name := by
    rw [List.map_map]
    rfl
  rw [hnames]
  exact ⟨nodup_of_redefinition? List.nodup_nil, fun h => redefinition?_eq_none h⟩

theorem definitions_eq_ok_iff {text : List Char} {ds : List Definition} :
    definitions text = .ok ds ↔ ∃ rest, (recognize text).result = some (ds, rest) := by
  unfold definitions
  dsimp only
  split
  · rename_i ds' rest h
    rw [h]
    constructor
    · rintro ⟨⟩
      exact ⟨rest, rfl⟩
    · rintro ⟨_, ⟨⟩⟩
      rfl
  · rename_i h
    rw [h]
    exact ⟨nofun, nofun⟩

end Grammar

/-- A text is read as a set when it is made up of the equations of the set. -/
theorem EquationSet.parse_eq_ok_iff {text : List Char} {s : EquationSet} :
    EquationSet.parse text = .ok s ↔ ∃ es, Spells text es ∧ s.Lists es := by
  constructor
  · intro h
    obtain ⟨ds, hds, h⟩ := bind_eq_ok_iff.mp h
    obtain ⟨rest, hrest⟩ := definitions_eq_ok_iff.mp hds
    split at h
    · cases h
    · rename_i hnone
      cases h
      exact ⟨_, exists_result_recognize_iff.mp ⟨ds, rest, hrest, rfl⟩,
        .ofList (redefinition?_eq_none_iff.mp hnone)⟩
  · rintro ⟨es, hes, hlists⟩
    obtain ⟨ds, rest, hrest, rfl⟩ := exists_result_recognize_iff.mpr hes
    refine bind_eq_ok_iff.mpr ⟨ds, definitions_eq_ok_iff.mpr ⟨rest, hrest⟩, ?_⟩
    rw [redefinition?_eq_none_iff.mpr hlists.nodup]
    exact congrArg Except.ok ((Lists.ofList hlists.nodup).unique hlists)

namespace Circuit

/-- The circuit has these equations, and knows of each name where it is from. -/
structure Collects (c : Circuit) (es : List (Atom × Term)) : Prop where
  equations : c.equations.Lists es
  origins : ∀ name, c.origins.get? name = none ↔ name ∉ es.map Prod.fst

namespace Collects

variable {c c' : Circuit} {es fs entries : List (Atom × Term)} {origin filename : String}
  {text : List Char} {files : List (String × List Char)}

theorem empty : Collects .empty [] :=
  ⟨⟨List.nodup_nil, fun _ _ => ⟨nofun, nofun⟩⟩, fun _ => ⟨fun _ => nofun, fun _ => rfl⟩⟩

theorem perm (h : c.Collects es) (hperm : es.Perm fs) : c.Collects fs :=
  ⟨h.equations.perm hperm, fun name => by rw [h.origins, (hperm.map Prod.fst).mem_iff]⟩

/-- An equation is added when its name is new. -/
theorem addEquation_eq_ok_iff (h : c.Collects es) (e : Atom × Term) :
    addEquation origin c e = .ok c' ↔ e.1 ∉ es.map Prod.fst ∧
      c' = ⟨c.equations.insert e.1 e.2, c.origins.insert e.1 origin⟩ := by
  rw [← h.origins, addEquation]
  split
  · rename_i previous hprevious
    rw [hprevious]
    constructor
    · rintro ⟨⟩
    · rintro ⟨⟨⟩, -⟩
  · rename_i hnone
    rw [Except.ok.injEq, eq_comm]
    exact (and_iff_right hnone).symm

theorem insert (h : c.Collects es) {e : Atom × Term} (he : e.1 ∉ es.map Prod.fst) :
    Collects ⟨c.equations.insert e.1 e.2, c.origins.insert e.1 origin⟩ (es ++ [e]) := by
  refine ⟨⟨?_, fun name rhs => ?_⟩, fun name => ?_⟩
  · rw [List.map_append, List.map_singleton, List.nodup_append']
    exact ⟨h.equations.nodup, List.nodup_singleton _, List.disjoint_singleton.mpr he⟩
  · rw [SortedMap.get?_insert, List.mem_append, List.mem_singleton, ← h.equations.get?_iff]
    by_cases hname : name = e.1
    · have hunbound : c.equations.get? name ≠ some rhs := fun hrhs =>
        he (hname ▸ List.mem_map_of_mem ((h.equations.get?_iff name rhs).mp hrhs))
      rw [if_pos hname, or_iff_right hunbound, hname, Option.some.injEq, Prod.ext_iff, eq_comm]
      exact (and_iff_right rfl).symm
    · rw [if_neg hname, or_iff_left fun heq => hname (congrArg Prod.fst heq)]
  · rw [SortedMap.get?_insert, List.map_append, List.mem_append, not_or, ← h.origins,
      List.map_singleton, List.mem_singleton]
    by_cases hname : name = e.1
    · rw [if_pos hname]
      exact ⟨nofun, fun hnone => absurd hname hnone.2⟩
    · rw [if_neg hname]
      exact (and_iff_left hname).symm

/-- Equations are added one after another as long as their names are new. -/
theorem foldlM_addEquation (h : c.Collects es) :
    (∀ c', entries.foldlM (addEquation origin) c = .ok c' → c'.Collects (es ++ entries)) ∧
      (((es ++ entries).map Prod.fst).Nodup →
        ∃ c', entries.foldlM (addEquation origin) c = .ok c') := by
  induction entries generalizing c es with
  | nil =>
    rw [List.append_nil]
    refine ⟨fun c' hc' => ?_, fun _ => ⟨c, rfl⟩⟩
    cases hc'
    exact h
  | cons e entries ih =>
    rw [List.foldlM_cons, List.append_cons]
    constructor
    · intro c' hc'
      obtain ⟨c₁, hc₁, hc'⟩ := bind_eq_ok_iff.mp hc'
      obtain ⟨he, rfl⟩ := (h.addEquation_eq_ok_iff e).mp hc₁
      exact (ih (h.insert he)).1 c' hc'
    · intro hnodup
      have he : e.1 ∉ es.map Prod.fst := by
        rw [List.map_append, List.map_append, List.nodup_append', List.nodup_append'] at hnodup
        exact List.disjoint_singleton.mp hnodup.1.2.2
      obtain ⟨c', hc'⟩ := (ih (h.insert he)).2 hnodup
      exact ⟨c', bind_eq_ok_iff.mpr ⟨_, (h.addEquation_eq_ok_iff e).mpr ⟨he, rfl⟩, hc'⟩⟩

/-- A file adds the equations of its text. -/
theorem addFile (h : c.Collects es) :
    (∀ c', c.addFile filename text = .ok c' → ∃ fs, Spells text fs ∧ c'.Collects (es ++ fs)) ∧
      (∀ fs, Spells text fs → ((es ++ fs).map Prod.fst).Nodup →
        ∃ c', c.addFile filename text = .ok c' ∧ c'.Collects (es ++ fs)) := by
  constructor
  · intro c' hc'
    obtain ⟨s, hs, hc'⟩ := bind_eq_ok_iff.mp hc'
    obtain ⟨fs, hfs, hlists⟩ := EquationSet.parse_eq_ok_iff.mp (mapError_eq_ok_iff.mp hs)
    exact ⟨fs, hfs, (h.foldlM_addEquation.1 c' hc').perm (hlists.perm_toList.symm.append_left es)⟩
  · intro fs hfs hnodup
    have hlists : EquationSet.Lists (.ofList fs) fs := .ofList (by
      rw [List.map_append] at hnodup
      exact hnodup.of_append_right)
    have hparse := EquationSet.parse_eq_ok_iff.mpr ⟨fs, hfs, hlists⟩
    have hperm := hlists.perm_toList.append_left es
    obtain ⟨c', hc'⟩ := h.foldlM_addEquation.2 ((hperm.map Prod.fst).nodup_iff.mp hnodup)
    exact ⟨c', bind_eq_ok_iff.mpr ⟨_, mapError_eq_ok_iff.mpr hparse, hc'⟩,
      (h.foldlM_addEquation.1 c' hc').perm hperm.symm⟩

/-- Files add the equations of their texts one after another. -/
theorem addFiles (h : c.Collects es) :
    (∀ c', files.foldlM (fun c file => c.addFile file.1 file.2) c = .ok c' →
      ∃ ess, List.Forall₂ Spells (files.map Prod.snd) ess ∧ c'.Collects (es ++ ess.flatten)) ∧
      (∀ ess, List.Forall₂ Spells (files.map Prod.snd) ess →
        ((es ++ ess.flatten).map Prod.fst).Nodup →
          ∃ c', files.foldlM (fun c file => c.addFile file.1 file.2) c = .ok c' ∧
            c'.Collects (es ++ ess.flatten)) := by
  induction files generalizing c es with
  | nil =>
    constructor
    · rintro _ ⟨⟩
      exact ⟨[], .nil, by rwa [List.flatten_nil, List.append_nil]⟩
    · rintro _ ⟨⟩ -
      exact ⟨c, rfl, by rwa [List.flatten_nil, List.append_nil]⟩
  | cons file files ih =>
    simp only [List.map_cons, List.forall₂_cons_left_iff, List.foldlM_cons]
    constructor
    · intro c' hc'
      obtain ⟨c₁, hc₁, hc'⟩ := bind_eq_ok_iff.mp hc'
      obtain ⟨fs, hfs, h₁⟩ := h.addFile.1 c₁ hc₁
      obtain ⟨ess, hess, h'⟩ := (ih h₁).1 c' hc'
      refine ⟨fs :: ess, ⟨fs, ess, hfs, hess, rfl⟩, ?_⟩
      rwa [List.flatten_cons, ← List.append_assoc]
    · rintro _ ⟨fs, ess, hfs, hess, rfl⟩ hnodup
      rw [List.flatten_cons, ← List.append_assoc] at hnodup ⊢
      obtain ⟨c₁, hc₁, h₁⟩ := h.addFile.2 fs hfs (by
        rw [List.map_append] at hnodup
        exact hnodup.of_append_left)
      obtain ⟨c', hc', h'⟩ := (ih h₁).2 ess hess hnodup
      exact ⟨c', bind_eq_ok_iff.mpr ⟨c₁, hc₁, hc'⟩, h'⟩

end Collects

/-- A circuit collected from files is what their texts say, joined by line feeds in any
order. -/
theorem ofFiles_iff_parse {files : List (String × List Char)} {texts : List (List Char)}
    (htexts : texts.Perm (files.map Prod.snd)) (s : EquationSet) :
    (∃ c, ofFiles files = .ok c ∧ c.equations = s) ↔
      EquationSet.parse (['\n'].intercalate texts) = .ok s := by
  rw [EquationSet.parse_eq_ok_iff]
  simp only [spells_intercalate_iff]
  constructor
  · rintro ⟨c, hc, rfl⟩
    obtain ⟨ess, hess, hcollects⟩ := Collects.empty.addFiles.1 c hc
    obtain ⟨ess', hess', hperm⟩ := List.perm_comp_forall₂ htexts hess
    exact ⟨_, ⟨ess', hess', rfl⟩, hcollects.equations.perm hperm.symm.flatten⟩
  · rintro ⟨_, ⟨ess, hess, rfl⟩, hlists⟩
    obtain ⟨ess', hess', hperm⟩ := List.perm_comp_forall₂ htexts.symm hess
    have hnodup := (hperm.flatten.symm.map Prod.fst).nodup_iff.mp hlists.nodup
    obtain ⟨c, hc, hcollects⟩ := Collects.empty.addFiles.2 ess' hess' hnodup
    exact ⟨c, hc, hcollects.equations.unique (hlists.perm hperm.flatten.symm)⟩

/-- A text that ends in a comment comes first in the circuit and last in the joined text. -/
theorem ofFiles_iff_parse_openComment :
    let first := ['x', '=', 'y', ';', '#', '?']
    let second := ['y', '=', 'x', '\r']
    let s : EquationSet := .ofList
      [(⟨['x'], .refl true⟩, .var ⟨['y'], .refl true⟩),
        (⟨['y'], .refl true⟩, .var ⟨['x'], .refl true⟩)]
    (∃ c, ofFiles [("first", first), ("second", second)] = .ok c ∧ c.equations = s) ∧
      EquationSet.parse (['\n'].intercalate [second, first]) = .ok s := by
  intro first second s
  have hparse : EquationSet.parse (['\n'].intercalate [second, first]) = .ok s := by rfl
  exact ⟨(ofFiles_iff_parse (.swap first second []) s).mpr hparse, hparse⟩

end Circuit

end DiffAnalyzer
