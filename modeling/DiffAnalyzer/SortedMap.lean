/-!
# Maps sorted by key

A finite map is its list of entries, strictly increasing by key.  Two maps with the
same entries are therefore equal (`SortedMap.ext_get?`), and every walk over a map is
in key order.
-/

namespace DiffAnalyzer

/-- Entries with strictly increasing keys. -/
@[ext]
structure SortedMap (κ ν : Type) [Ord κ] where
  toList : List (κ × ν)
  sorted : toList.Pairwise fun a b => compare a.1 b.1 = .lt

namespace SortedMap

variable {κ ν ω : Type} [Ord κ]

instance [DecidableEq κ] [DecidableEq ν] : DecidableEq (SortedMap κ ν) := fun m n =>
  decidable_of_iff (m.toList = n.toList) SortedMap.ext_iff.symm

def empty : SortedMap κ ν := ⟨[], .nil⟩

instance : EmptyCollection (SortedMap κ ν) := ⟨empty⟩

instance : Inhabited (SortedMap κ ν) := ⟨empty⟩

def keys (m : SortedMap κ ν) : List κ := m.toList.map Prod.fst

def values (m : SortedMap κ ν) : List ν := m.toList.map Prod.snd

def size (m : SortedMap κ ν) : Nat := m.toList.length

def isEmpty (m : SortedMap κ ν) : Bool := m.toList.isEmpty

def get? (m : SortedMap κ ν) (k : κ) : Option ν :=
  (m.toList.find? fun e => compare k e.1 == .eq).map Prod.snd

def contains (m : SortedMap κ ν) (k : κ) : Bool := (m.get? k).isSome

/-- Replace the values, with the keys at hand. -/
def mapValues (f : κ → ν → ω) (m : SortedMap κ ν) : SortedMap κ ω where
  toList := m.toList.map fun e => (e.1, f e.1 e.2)
  sorted := List.pairwise_map.mpr m.sorted

def filter (p : κ → ν → Bool) (m : SortedMap κ ν) : SortedMap κ ν where
  toList := m.toList.filter fun e => p e.1 e.2
  sorted := m.sorted.filter _

def erase (m : SortedMap κ ν) (k : κ) : SortedMap κ ν := m.filter fun j _ => compare k j != .eq

/-- Put an entry in its place, over an entry with the same key. -/
def insertEntry (k : κ) (v : ν) : List (κ × ν) → List (κ × ν)
  | [] => [(k, v)]
  | e :: rest =>
    match compare k e.1 with
    | .lt => (k, v) :: e :: rest
    | .eq => (k, v) :: rest
    | .gt => e :: insertEntry k v rest

theorem mem_of_mem_insertEntry {k : κ} {v : ν} {e : κ × ν} {l : List (κ × ν)}
    (h : e ∈ insertEntry k v l) : e = (k, v) ∨ e ∈ l := by
  induction l with
  | nil => simpa [insertEntry] using h
  | cons d rest ih =>
    rw [insertEntry] at h
    split at h <;> simp only [List.mem_cons] at h ⊢
    · exact h
    · exact h.imp_right .inr
    · rcases h with h | h
      · exact .inr (.inl h)
      · exact (ih h).imp_right .inr

variable [Std.TransOrd κ]

theorem sorted_insertEntry (k : κ) (v : ν) {l : List (κ × ν)}
    (h : l.Pairwise fun a b => compare a.1 b.1 = .lt) :
    (insertEntry k v l).Pairwise fun a b => compare a.1 b.1 = .lt := by
  induction l with
  | nil => simp [insertEntry]
  | cons d rest ih =>
    obtain ⟨hd, hrest⟩ := List.pairwise_cons.mp h
    rw [insertEntry]
    split
    case h_1 hk =>
      refine List.pairwise_cons.mpr ⟨fun e he => ?_, h⟩
      rcases List.mem_cons.mp he with rfl | he
      · exact hk
      · exact Std.TransCmp.lt_trans hk (hd e he)
    case h_2 hk =>
      exact List.pairwise_cons.mpr
        ⟨fun e he => Std.TransCmp.lt_of_eq_of_lt hk (hd e he), hrest⟩
    case h_3 hk =>
      refine List.pairwise_cons.mpr ⟨fun e he => ?_, ih hrest⟩
      rcases mem_of_mem_insertEntry he with rfl | he
      · exact Std.OrientedCmp.gt_iff_lt.mp hk
      · exact hd e he

def insert (m : SortedMap κ ν) (k : κ) (v : ν) : SortedMap κ ν where
  toList := insertEntry k v m.toList
  sorted := sorted_insertEntry k v m.sorted

/-- Insert entries one after another, so that the last one for a key stays. -/
def insertAll (m : SortedMap κ ν) (entries : List (κ × ν)) : SortedMap κ ν :=
  entries.foldl (fun m e => m.insert e.1 e.2) m

def ofList (entries : List (κ × ν)) : SortedMap κ ν := insertAll ∅ entries

variable [Std.LawfulEqOrd κ]

omit [Std.TransOrd κ] in
theorem get?_eq_some_iff {m : SortedMap κ ν} {k : κ} {v : ν} :
    m.get? k = some v ↔ (k, v) ∈ m.toList := by
  obtain ⟨l, h⟩ := m
  unfold get?
  induction l with
  | nil => simp
  | cons d rest ih =>
    obtain ⟨hd, hrest⟩ := List.pairwise_cons.mp h
    by_cases hk : compare k d.1 = .eq
    · have hkd := Std.LawfulEqCmp.eq_of_compare hk
      subst hkd
      simp only [hk, List.find?_cons, beq_self_eq_true, Option.map_some, Option.some.injEq,
        List.mem_cons]
      constructor
      · rintro rfl
        exact .inl rfl
      · rintro (h | h)
        · rw [← h]
        · have := hd _ h
          rw [@Std.ReflCmp.compare_self κ compare] at this
          cases this
    · have : (compare k d.1 == Ordering.eq) = false := by simpa using hk
      simp only [List.find?_cons, this, List.mem_cons]
      rw [ih hrest]
      constructor
      · exact .inr
      · rintro (h | h)
        · subst h
          exact absurd Std.ReflCmp.compare_self hk
        · exact h

omit [Std.TransOrd κ] in
theorem get?_eq_none_iff {m : SortedMap κ ν} {k : κ} : m.get? k = none ↔ k ∉ m.keys := by
  rw [Option.eq_none_iff_forall_ne_some]
  simp only [ne_eq, get?_eq_some_iff, keys, List.mem_map, Prod.exists, exists_and_right,
    exists_eq_right, not_exists]

/-- Maps that answer every look-up alike are equal. -/
theorem ext_get? {m n : SortedMap κ ν} (h : ∀ k, m.get? k = n.get? k) : m = n := by
  obtain ⟨l, hl⟩ := m
  obtain ⟨l', hl'⟩ := n
  have hmem : ∀ e, e ∈ l ↔ e ∈ l' := fun ⟨k, v⟩ => by
    rw [← get?_eq_some_iff (m := ⟨l, hl⟩), ← get?_eq_some_iff (m := ⟨l', hl'⟩), h]
  clear h
  ext1
  simp only
  induction l generalizing l' with
  | nil =>
    cases l' with
    | nil => rfl
    | cons e _ => exact absurd ((hmem e).mpr List.mem_cons_self) List.not_mem_nil
  | cons d rest ih =>
    cases l' with
    | nil => exact absurd ((hmem d).mp List.mem_cons_self) List.not_mem_nil
    | cons d' rest' =>
      obtain ⟨hd, hrest⟩ := List.pairwise_cons.mp hl
      obtain ⟨hd', hrest'⟩ := List.pairwise_cons.mp hl'
      have irrefl (k : κ) : compare k k ≠ .lt := by
        rw [@Std.ReflCmp.compare_self κ compare]
        nofun
      have hdd : d = d' := by
        rcases List.mem_cons.mp ((hmem d).mp List.mem_cons_self) with h | h
        · exact h
        · rcases List.mem_cons.mp ((hmem d').mpr List.mem_cons_self) with h' | h'
          · exact h'.symm
          · exact absurd (Std.TransCmp.lt_trans (hd d' h') (hd' d h)) (irrefl _)
      subst hdd
      refine congrArg _ (ih hrest rest' hrest' fun e => ?_)
      constructor
      · intro he
        rcases List.mem_cons.mp ((hmem e).mp (List.mem_cons_of_mem _ he)) with rfl | h
        · exact absurd (hd _ he) (irrefl _)
        · exact h
      · intro he
        rcases List.mem_cons.mp ((hmem e).mpr (List.mem_cons_of_mem _ he)) with rfl | h
        · exact absurd (hd' _ he) (irrefl _)
        · exact h

end SortedMap

end DiffAnalyzer
