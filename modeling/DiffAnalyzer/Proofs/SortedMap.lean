import DiffAnalyzer.SortedMap
import Mathlib

/-!
# Look-ups in sorted maps

`SortedMap.get?` is the view through which maps are reasoned about: one lemma for each
operation says what it answers afterwards.
-/

namespace DiffAnalyzer

theorem mem_of_lookup_eq_some {κ ν : Type} [DecidableEq κ] {l : List (κ × ν)} {k : κ} {v : ν}
    (h : l.lookup k = some v) : (k, v) ∈ l := by
  obtain ⟨before, behind, rfl, -⟩ := List.lookup_eq_some_iff.mp h
  exact List.mem_append_right _ List.mem_cons_self

/-- The entry of a key that comes once is found. -/
theorem lookup_eq_some_of_mem {κ ν : Type} [DecidableEq κ] {l : List (κ × ν)}
    (h : (l.map Prod.fst).Nodup) {e : κ × ν} (he : e ∈ l) : List.lookup e.1 l = some e.2 := by
  obtain ⟨before, after, rfl⟩ := List.append_of_mem he
  refine List.lookup_eq_some_iff.mpr ⟨before, after, rfl, fun d hd => ?_⟩
  rw [List.map_append, List.map_cons] at h
  rw [bne_iff_ne]
  intro heq
  exact (List.nodup_append.mp h).2.2 _ (List.mem_map_of_mem hd) _ List.mem_cons_self heq.symm

theorem lookup_eq_some_iff_mem {κ ν : Type} [DecidableEq κ] {l : List (κ × ν)}
    (h : (l.map Prod.fst).Nodup) {k : κ} {v : ν} : l.lookup k = some v ↔ (k, v) ∈ l :=
  ⟨mem_of_lookup_eq_some, lookup_eq_some_of_mem h⟩

theorem lookup_eq_none_iff_not_mem {κ ν : Type} [DecidableEq κ] {l : List (κ × ν)} {k : κ} :
    l.lookup k = none ↔ k ∉ l.map Prod.fst := by
  simp only [List.lookup_eq_none_iff, bne_iff_ne, List.mem_map, not_exists, not_and]
  exact forall₂_congr fun e _ => ne_comm

/-- A key that comes in a list is found with one of its entries. -/
theorem exists_lookup_eq_some {κ ν : Type} [DecidableEq κ] {l : List (κ × ν)} {k : κ}
    (h : k ∈ l.map Prod.fst) : ∃ v, l.lookup k = some v ∧ (k, v) ∈ l := by
  obtain ⟨v, hv⟩ := Option.ne_none_iff_exists'.mp (mt lookup_eq_none_iff_not_mem.mp (not_not.mpr h))
  exact ⟨v, hv, mem_of_lookup_eq_some hv⟩

namespace SortedMap

variable {κ ν ω : Type} [Ord κ]

@[simp] theorem get?_empty (k : κ) : (∅ : SortedMap κ ν).get? k = none := rfl

theorem contains_eq_false_iff {m : SortedMap κ ν} {k : κ} :
    m.contains k = false ↔ m.get? k = none := by
  rw [contains, Option.isSome_eq_false_iff, Option.isNone_iff_eq_none]

variable [Std.LawfulEqOrd κ]

theorem mem_keys_iff {m : SortedMap κ ν} {k : κ} : k ∈ m.keys ↔ ∃ v, m.get? k = some v := by
  simp only [keys, List.mem_map, Prod.exists, exists_and_right, exists_eq_right,
    get?_eq_some_iff]

/-- The value of a key is the one of its only entry. -/
theorem get?_of_mem {m : SortedMap κ ν} {e : κ × ν} (h : e ∈ m.toList) :
    m.get? e.1 = some e.2 :=
  get?_eq_some_iff.mpr h

theorem ne_of_compare_lt {a b : κ} (h : compare a b = .lt) : a ≠ b := by
  rintro rfl
  rw [@Std.ReflCmp.compare_self κ compare] at h
  cases h

theorem nodup_keys (m : SortedMap κ ν) : m.keys.Nodup :=
  List.pairwise_map.mpr (m.sorted.imp ne_of_compare_lt)

theorem lookup_toList [DecidableEq κ] (m : SortedMap κ ν) (k : κ) :
    m.toList.lookup k = m.get? k := by
  refine Option.ext fun v => ?_
  rw [get?_eq_some_iff]
  exact lookup_eq_some_iff_mem m.nodup_keys

theorem get?_mapValues (f : κ → ν → ω) (m : SortedMap κ ν) (k : κ) :
    (m.mapValues f).get? k = (m.get? k).map (f k) := by
  refine Option.ext fun w => ?_
  rw [get?_eq_some_iff, Option.map_eq_some_iff]
  simp only [mapValues, List.mem_map, Prod.mk.injEq, get?_eq_some_iff]
  constructor
  · rintro ⟨e, he, rfl, rfl⟩
    exact ⟨e.2, he, rfl⟩
  · rintro ⟨v, hv, rfl⟩
    exact ⟨(k, v), hv, rfl, rfl⟩

theorem get?_filter_eq_some_iff {p : κ → ν → Bool} {m : SortedMap κ ν} {k : κ} {v : ν} :
    (m.filter p).get? k = some v ↔ m.get? k = some v ∧ p k v = true := by
  rw [get?_eq_some_iff, get?_eq_some_iff, filter, List.mem_filter]

variable [Std.TransOrd κ]

theorem mem_insertEntry {k : κ} {v : ν} {e : κ × ν} {l : List (κ × ν)}
    (h : l.Pairwise fun a b => compare a.1 b.1 = .lt) :
    e ∈ insertEntry k v l ↔ e = (k, v) ∨ e ∈ l ∧ e.1 ≠ k := by
  induction l with
  | nil => simp [insertEntry]
  | cons d rest ih =>
    obtain ⟨hd, hrest⟩ := List.pairwise_cons.mp h
    rw [insertEntry]
    split
    case h_1 hk =>
      have hne : ∀ f ∈ d :: rest, f.1 ≠ k := fun f hf => by
        rcases List.mem_cons.mp hf with rfl | hf
        · exact (ne_of_compare_lt hk).symm
        · exact (ne_of_compare_lt (Std.TransCmp.lt_trans hk (hd f hf))).symm
      rw [List.mem_cons]
      exact or_congr_right ⟨fun he => ⟨he, hne e he⟩, fun he => he.1⟩
    case h_2 hk =>
      have hkd : k = d.1 := Std.LawfulEqCmp.eq_of_compare hk
      rw [List.mem_cons, List.mem_cons]
      refine or_congr_right ⟨fun he => ⟨.inr he, fun hek => ?_⟩, ?_⟩
      · exact ne_of_compare_lt (hd e he) (hek.trans hkd).symm
      · rintro ⟨rfl | he, hek⟩
        · exact absurd hkd.symm hek
        · exact he
    case h_3 hk =>
      have hdk : d.1 ≠ k := ne_of_compare_lt (Std.OrientedCmp.gt_iff_lt.mp hk)
      rw [List.mem_cons, ih hrest, List.mem_cons]
      constructor
      · rintro (rfl | rfl | he)
        · exact .inr ⟨.inl rfl, hdk⟩
        · exact .inl rfl
        · exact .inr ⟨.inr he.1, he.2⟩
      · rintro (rfl | ⟨rfl | he, hek⟩)
        · exact .inr (.inl rfl)
        · exact .inl rfl
        · exact .inr (.inr ⟨he, hek⟩)

variable [DecidableEq κ]

theorem get?_insert (m : SortedMap κ ν) (k j : κ) (v : ν) :
    (m.insert k v).get? j = if j = k then some v else m.get? j := by
  refine Option.ext fun w => ?_
  rw [get?_eq_some_iff]
  change (j, w) ∈ insertEntry k v m.toList ↔ _
  rw [mem_insertEntry m.sorted]
  by_cases hjk : j = k
  · rw [if_pos hjk, hjk, Prod.mk.injEq, Option.some.injEq, eq_comm (a := v)]
    exact ⟨fun h => h.elim And.right fun h => absurd rfl h.2, fun h => .inl ⟨rfl, h⟩⟩
  · rw [if_neg hjk, get?_eq_some_iff, Prod.mk.injEq]
    exact ⟨fun h => h.elim (fun h => absurd h.1 hjk) And.left, fun h => .inr ⟨h, hjk⟩⟩

/-- Where no key comes twice, the inserted entries hide those of the map and nothing else. -/
theorem get?_insertAll {entries : List (κ × ν)} (h : (entries.map Prod.fst).Nodup)
    (m : SortedMap κ ν) (k : κ) :
    (m.insertAll entries).get? k = (entries.lookup k).or (m.get? k) := by
  induction entries generalizing m with
  | nil => rfl
  | cons e rest ih =>
    obtain ⟨he, hrest⟩ := List.nodup_cons.mp h
    change ((m.insert e.1 e.2).insertAll rest).get? k = _
    rw [ih hrest, get?_insert, List.lookup_cons]
    by_cases hk : k = e.1
    · subst hk
      rw [lookup_eq_none_iff_not_mem.mpr he, if_pos rfl, beq_self_eq_true]
      rfl
    · rw [if_neg hk, beq_eq_false_iff_ne.mpr hk]

theorem get?_ofList {entries : List (κ × ν)} (h : (entries.map Prod.fst).Nodup) (k : κ) :
    (ofList entries).get? k = entries.lookup k := by
  rw [ofList, get?_insertAll h, get?_empty, Option.or_none]

theorem get?_ofList_eq_some_iff {entries : List (κ × ν)} (h : (entries.map Prod.fst).Nodup)
    {k : κ} {v : ν} : (ofList entries).get? k = some v ↔ (k, v) ∈ entries := by
  rw [get?_ofList h, lookup_eq_some_iff_mem h]

/-- Where no key comes twice, all entries are kept. -/
theorem size_ofList {entries : List (κ × ν)} (h : (entries.map Prod.fst).Nodup) :
    (ofList entries).size = entries.length := by
  have hkeys : ((ofList entries).toList.map Prod.fst).Nodup := (ofList entries).nodup_keys
  refine ((List.perm_ext_iff_of_nodup hkeys.of_map h.of_map).mpr fun e => ?_).length_eq
  rw [← get?_eq_some_iff, get?_ofList_eq_some_iff h]

theorem ofList_map_values (f : κ → ν → ω) (m : SortedMap κ ν) :
    ofList (m.toList.map fun e => (e.1, f e.1 e.2)) = m.mapValues f := by
  have hkeys : ((m.toList.map fun e => (e.1, f e.1 e.2)).map Prod.fst).Nodup := by
    rw [List.map_map]
    exact m.nodup_keys
  refine ext_get? fun k => ?_
  rw [get?_ofList hkeys]
  exact lookup_toList (m.mapValues f) k

/-- A map is what its entries make. -/
@[simp] theorem ofList_toList (m : SortedMap κ ν) : ofList m.toList = m :=
  ext_get? fun k => by rw [get?_ofList m.nodup_keys, lookup_toList]

end SortedMap

end DiffAnalyzer
