/-!
# Sorted lists without repetitions

`sortDistinct` lists the members of a list once each, in increasing order.
-/

namespace DiffAnalyzer

variable {α : Type} [Ord α]

/-- Put a member in its place unless it is there already. -/
def insertDistinct (x : α) : List α → List α
  | [] => [x]
  | y :: rest =>
    match compare x y with
    | .lt => x :: y :: rest
    | .eq => y :: rest
    | .gt => y :: insertDistinct x rest

/-- The members of a list, each once, in increasing order. -/
def sortDistinct (l : List α) : List α := l.foldr insertDistinct []

variable [Std.LawfulEqOrd α]

@[simp] theorem mem_insertDistinct {x z : α} {l : List α} :
    z ∈ insertDistinct x l ↔ z = x ∨ z ∈ l := by
  induction l with
  | nil => simp [insertDistinct]
  | cons y rest ih =>
    rw [insertDistinct]
    split
    · simp
    · rename_i h
      have := Std.LawfulEqCmp.eq_of_compare h
      subst this
      simp
    · simp only [List.mem_cons, ih]
      constructor
      · rintro (h | h | h)
        · exact .inr (.inl h)
        · exact .inl h
        · exact .inr (.inr h)
      · rintro (h | h | h)
        · exact .inr (.inl h)
        · exact .inl h
        · exact .inr (.inr h)

@[simp] theorem mem_sortDistinct {z : α} {l : List α} : z ∈ sortDistinct l ↔ z ∈ l := by
  induction l with
  | nil => simp [sortDistinct]
  | cons y rest ih =>
    show z ∈ insertDistinct y (sortDistinct rest) ↔ _
    rw [mem_insertDistinct, ih, List.mem_cons]

theorem sorted_insertDistinct [Std.TransOrd α] (x : α) {l : List α}
    (h : l.Pairwise fun a b => compare a b = .lt) :
    (insertDistinct x l).Pairwise fun a b => compare a b = .lt := by
  induction l with
  | nil => simp [insertDistinct]
  | cons y rest ih =>
    obtain ⟨hy, hrest⟩ := List.pairwise_cons.mp h
    rw [insertDistinct]
    split
    case h_1 hx =>
      refine List.pairwise_cons.mpr ⟨fun z hz => ?_, h⟩
      rcases List.mem_cons.mp hz with rfl | hz
      · exact hx
      · exact Std.TransCmp.lt_trans hx (hy z hz)
    case h_2 => exact h
    case h_3 hx =>
      refine List.pairwise_cons.mpr ⟨fun z hz => ?_, ih hrest⟩
      rcases mem_insertDistinct.mp hz with rfl | hz
      · exact Std.OrientedCmp.gt_iff_lt.mp hx
      · exact hy z hz

theorem sorted_sortDistinct [Std.TransOrd α] (l : List α) :
    (sortDistinct l).Pairwise fun a b => compare a b = .lt := by
  induction l with
  | nil => exact .nil
  | cons y rest ih => exact sorted_insertDistinct y ih

end DiffAnalyzer
