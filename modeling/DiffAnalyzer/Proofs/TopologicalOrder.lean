import DiffAnalyzer.Program.Basic
import DiffAnalyzer.Proofs.SortedMap
import DiffAnalyzer.TopologicalOrder
import Mathlib

/-!
# Correctness of the topological order

`TopologicalOrder.Invariant` relates the counts of waiting edges to the nodes in place;
placing a ready node keeps it (`Invariant.place_one`).  The bound on the number of steps
suffices, so that at the end no node is ready and the nodes that are not placed are those
with edges left.
-/

namespace DiffAnalyzer

variable {α : Type} [DecidableEq α]

namespace TopologicalOrder

/-- How many edges to a node wait for their dependent. -/
def Progress.count (p : Progress α) (node : α) : Nat := (p.waiting.lookup node).getD 0

/-- The number of edges to a node from nodes that are not in place. -/
def pending (edges : List (α × α)) (placed : List α) (node : α) : Nat :=
  edges.countP fun e => decide (e.2 = node ∧ e.1 ∉ placed)

/-- The ends of the edges. -/
def IsNode (edges : List (α × α)) (node : α) : Prop :=
  node ∈ edges.map Prod.fst ∨ node ∈ edges.map Prod.snd

omit [DecidableEq α] in
theorem isNode_fst {edges : List (α × α)} {u v : α} (h : (u, v) ∈ edges) : IsNode edges u :=
  .inl (List.mem_map_of_mem (f := Prod.fst) h)

omit [DecidableEq α] in
theorem isNode_snd {edges : List (α × α)} {u v : α} (h : (u, v) ∈ edges) : IsNode edges v :=
  .inr (List.mem_map_of_mem (f := Prod.snd) h)

theorem mem_dependenciesOf {edges : List (α × α)} {u v : α} :
    v ∈ dependenciesOf edges u ↔ (u, v) ∈ edges := by
  simp [dependenciesOf]

theorem pending_eq_zero_iff {edges : List (α × α)} {placed : List α} {node : α} :
    pending edges placed node = 0 ↔ ∀ u, (u, node) ∈ edges → u ∈ placed := by
  rw [pending, List.countP_eq_zero]
  constructor
  · intro h u hu
    by_contra hplaced
    exact h (u, node) hu (decide_eq_true ⟨rfl, hplaced⟩)
  · rintro h ⟨u, v⟩ he hp
    obtain ⟨rfl, hplaced⟩ := of_decide_eq_true hp
    exact hplaced (h u he)

/-- Placing a node takes its own edges off the counts. -/
theorem pending_cons (edges : List (α × α)) {placed : List α} {node : α} (h : node ∉ placed)
    (v : α) : pending edges placed v =
      pending edges (node :: placed) v + (dependenciesOf edges node).count v := by
  induction edges with
  | nil => rfl
  | cons e rest ih =>
    unfold pending at ih ⊢
    rw [List.countP_cons, List.countP_cons, ih]
    by_cases hnode : e.1 = node
    · have hdeps : dependenciesOf (e :: rest) node = e.2 :: dependenciesOf rest node := by
        simp [dependenciesOf, hnode]
      rw [hdeps, List.count_cons]
      by_cases hv : e.2 = v
      · simp [hnode, hv, h]
        omega
      · simp [hv]
    · have hdeps : dependenciesOf (e :: rest) node = dependenciesOf rest node := by
        simp [dependenciesOf, hnode]
      rw [hdeps]
      simp only [List.mem_cons, hnode, false_or]
      omega

section Release

/-- Setting the count of a node. -/
theorem lookup_map_set (waiting : List (α × Nat)) (node v : α) (count : Nat) :
    List.lookup v (waiting.map fun e => if e.1 == node then (node, count) else e) =
      if v = node then (waiting.lookup node).map fun _ => count else waiting.lookup v := by
  induction waiting with
  | nil => simp
  | cons e rest ih =>
    rw [List.map_cons, List.lookup_cons, List.lookup_cons]
    by_cases hnode : e.1 = node
    · rw [if_pos (beq_iff_eq.mpr hnode), List.lookup_cons, ih, hnode]
      by_cases hv : v = node
      · simp [hv]
      · simp [hv, beq_eq_false_iff_ne.mpr hv]
    · rw [if_neg (mt beq_iff_eq.mp hnode), List.lookup_cons, ih]
      by_cases hv : v = node
      · simp [hv, beq_eq_false_iff_ne.mpr (Ne.symm hnode)]
      · simp [hv]

/-- What releasing one edge does while some edge waits. -/
theorem release_spec {p : Progress α} {node : α} (h : 0 < p.count node) :
    (release p node).placed = p.placed ∧
      (release p node).waiting.map Prod.fst = p.waiting.map Prod.fst ∧
      (∀ v, (release p node).count v = p.count v - if v = node then 1 else 0) ∧
      (release p node).ready = if p.count node = 1 then p.ready ++ [node] else p.ready := by
  unfold Progress.count at h ⊢
  unfold release
  cases hlookup : p.waiting.lookup node with
  | none => rw [hlookup] at h; exact absurd h (Nat.lt_irrefl 0)
  | some count =>
    cases count with
    | zero => rw [hlookup] at h; exact absurd h (Nat.lt_irrefl 0)
    | succ count =>
      refine ⟨rfl, ?_, fun v => ?_, ?_⟩
      · dsimp only
        rw [List.map_map]
        refine List.map_congr_left fun e _ => ?_
        by_cases he : e.1 = node
        · simp [he]
        · simp [he]
      · dsimp only
        rw [lookup_map_set]
        by_cases hv : v = node
        · simp [hv, hlookup]
        · simp [hv]
      · by_cases hcount : count = 0
        · simp [hcount]
        · simp [hcount]

theorem count_cons_eq (node : α) (rest : List α) (v : α) :
    (node :: rest).count v = rest.count v + if v = node then 1 else 0 := by
  rw [List.count_cons]
  by_cases hv : v = node
  · rw [if_pos hv, if_pos (beq_iff_eq.mpr hv.symm)]
  · rw [if_neg hv, if_neg (mt beq_iff_eq.mp (Ne.symm hv))]

/-- Counts that cover a list of nodes cover the rest of it once the first is released. -/
theorem count_le_count_release {p : Progress α} {node : α} {rest : List α}
    (h : ∀ v, (node :: rest).count v ≤ p.count v) (v : α) :
    rest.count v ≤ (release p node).count v := by
  have hself := h node
  rw [List.count_cons_self] at hself
  obtain ⟨-, -, hcount, -⟩ := release_spec (show 0 < p.count node by omega)
  have hv := h v
  rw [count_cons_eq] at hv
  rw [hcount]
  exact Nat.le_sub_of_add_le hv

/-- Releasing the edges to a list of nodes, as many to each as it occurs in the list:
those whose last edge is released become ready. -/
theorem foldl_release_spec (p : Progress α) (nodes : List α)
    (h : ∀ v, nodes.count v ≤ p.count v) :
    (nodes.foldl release p).placed = p.placed ∧
      (nodes.foldl release p).waiting.map Prod.fst = p.waiting.map Prod.fst ∧
      (∀ v, (nodes.foldl release p).count v = p.count v - nodes.count v) ∧
      ∃ freed : List α, (nodes.foldl release p).ready = p.ready ++ freed ∧ freed.Nodup ∧
        ∀ v, v ∈ freed ↔ v ∈ nodes ∧ p.count v = nodes.count v := by
  induction nodes generalizing p with
  | nil => exact ⟨rfl, rfl, fun _ => rfl, [], by simp, .nil, by simp⟩
  | cons node rest ih =>
    have hself := h node
    rw [List.count_cons_self] at hself
    obtain ⟨hplaced, hkeys, hcount, hready⟩ := release_spec (show 0 < p.count node by omega)
    have hbound : ∀ v, rest.count v + (if v = node then 1 else 0) ≤ p.count v := fun v =>
      count_cons_eq node rest v ▸ h v
    obtain ⟨hplaced', hkeys', hcount', freed, hfreed, hnodup, hmem⟩ :=
      ih (release p node) (count_le_count_release h)
    have hmem' : ∀ v, v ∈ freed ↔ v ∈ rest ∧ p.count v = (node :: rest).count v := fun v => by
      have := hbound v
      rw [hmem, hcount, count_cons_eq]
      exact and_congr_right fun _ => by omega
    refine ⟨hplaced'.trans hplaced, hkeys'.trans hkeys, fun v => ?_, ?_⟩
    · change (rest.foldl release (release p node)).count v = _
      rw [hcount', hcount, count_cons_eq]
      omega
    · change ∃ freed, (rest.foldl release (release p node)).ready = p.ready ++ freed ∧ _
      rw [hfreed, hready]
      by_cases hlast : p.count node = 1
      · -- The edge released first was the last one, so the node does not occur again.
        have hnot : node ∉ rest := List.count_eq_zero.mp (by omega)
        refine ⟨node :: freed, ?_, List.nodup_cons.mpr ⟨fun hin => hnot ((hmem' node).mp hin).1,
          hnodup⟩, fun v => ?_⟩
        · rw [if_pos hlast, List.append_assoc]
          rfl
        · rw [List.mem_cons, List.mem_cons, hmem']
          by_cases hv : v = node
          · rw [hv, List.count_cons_self, List.count_eq_zero_of_not_mem hnot]
            simp [hlast]
          · simp [hv]
      · refine ⟨freed, by rw [if_neg hlast], hnodup, fun v => ?_⟩
        rw [hmem', List.mem_cons]
        refine and_congr_left fun heq => ⟨.inr, fun hv => hv.elim (fun hv => ?_) id⟩
        rw [hv, List.count_cons_self] at heq
        exact hv ▸ List.count_pos_iff.mp (by omega)

end Release

/-- What holds between two placements. -/
structure Invariant (edges : List (α × α)) (p : Progress α) : Prop where
  keys : p.waiting.map Prod.fst = (edges.map Prod.snd).eraseDups
  count : ∀ v, p.count v = pending edges p.placed v
  nodup : (p.placed ++ p.ready).Nodup
  /-- A node is free once all its dependents are in place. -/
  free_iff : ∀ v, v ∈ p.placed ++ p.ready ↔
    IsNode edges v ∧ ∀ u, (u, v) ∈ edges → u ∈ p.placed
  /-- Dependents are placed first, and so further down the list. -/
  after : ∀ before v behind, p.placed = before ++ v :: behind →
    ∀ u, (u, v) ∈ edges → u ∈ behind

variable {edges : List (α × α)} {p : Progress α}

theorem lookup_map_pair (f : α → Nat) (nodes : List α) (v : α) :
    List.lookup v (nodes.map fun node => (node, f node)) =
      if v ∈ nodes then some (f v) else none := by
  induction nodes with
  | nil => rfl
  | cons node rest ih =>
    rw [List.map_cons, List.lookup_cons, ih]
    by_cases hv : v = node
    · simp [hv]
    · simp [hv, beq_eq_false_iff_ne.mpr hv]

theorem invariant_start (edges : List (α × α)) :
    Invariant edges ⟨demand edges, roots edges, []⟩ where
  keys := by
    rw [demand, List.map_map]
    exact List.map_id _
  count v := by
    have hpending : pending edges [] v = (edges.map Prod.snd).count v := by
      rw [pending, List.count, List.countP_map]
      refine List.countP_congr fun e _ => ?_
      simp
    rw [Progress.count, demand, lookup_map_pair, hpending]
    by_cases hv : v ∈ edges.map Prod.snd
    · rw [if_pos (List.mem_eraseDups.mpr hv)]
      rfl
    · rw [if_neg (mt List.mem_eraseDups.mp hv), List.count_eq_zero_of_not_mem hv]
      rfl
  nodup := (nodup_eraseDups _).filter _
  free_iff v := by
    have hroots : v ∈ roots edges ↔ v ∈ edges.map Prod.fst ∧ v ∉ edges.map Prod.snd := by
      simp [roots]
    rw [List.nil_append, hroots]
    constructor
    · rintro ⟨hfst, hsnd⟩
      exact ⟨.inl hfst, fun u hu => absurd (List.mem_map_of_mem (f := Prod.snd) hu) hsnd⟩
    · rintro ⟨hnode, hnone⟩
      have hsnd : v ∉ edges.map Prod.snd := fun hmem => by
        obtain ⟨⟨u, w⟩, hu, rfl⟩ := List.mem_map.mp hmem
        exact List.not_mem_nil (hnone u hu)
      exact ⟨hnode.resolve_right hsnd, hsnd⟩
  after before v behind h := by simp at h

/-- What is free once the first ready node is in place: what was, and the nodes that waited
for it alone. -/
theorem Invariant.free_iff_cons {node : α} {rest : List α} (h : Invariant edges p)
    (hready : p.ready = node :: rest) (v : α) :
    v ∈ node :: p.placed ∨ v ∈ rest ∨
        (node, v) ∈ edges ∧ (∀ u, (u, v) ∈ edges → u ∈ node :: p.placed) ↔
      IsNode edges v ∧ ∀ u, (u, v) ∈ edges → u ∈ node :: p.placed := by
  have hfree : v ∈ node :: p.placed ∨ v ∈ rest ↔
      IsNode edges v ∧ ∀ u, (u, v) ∈ edges → u ∈ p.placed := by
    rw [← h.free_iff, hready, List.mem_append, List.mem_cons, List.mem_cons, or_assoc]
    exact or_left_comm
  constructor
  · intro hv
    rcases or_assoc.mpr hv with hv | ⟨hedge, hall⟩
    · obtain ⟨hnode, hall⟩ := hfree.mp hv
      exact ⟨hnode, fun u hu => List.mem_cons_of_mem _ (hall u hu)⟩
    · exact ⟨isNode_snd hedge, hall⟩
  · rintro ⟨hnode, hall⟩
    by_cases hedge : (node, v) ∈ edges
    · exact .inr (.inr ⟨hedge, hall⟩)
    · refine or_assoc.mp (.inl (hfree.mpr ⟨hnode, fun u hu => ?_⟩))
      exact (List.mem_cons.mp (hall u hu)).resolve_left fun heq => hedge (heq ▸ hu)

theorem Invariant.not_mem_placed {node : α} {rest : List α} (h : Invariant edges p)
    (hready : p.ready = node :: rest) : node ∉ p.placed := fun hmem => by
  have hnodup := h.nodup
  rw [hready] at hnodup
  exact (List.nodup_append.mp hnodup).2.2 node hmem node List.mem_cons_self rfl

/-- The edges of a ready node are all waiting. -/
theorem Invariant.count_of_ready {node : α} {rest : List α} (h : Invariant edges p)
    (hready : p.ready = node :: rest) (v : α) :
    p.count v = pending edges (node :: p.placed) v + (dependenciesOf edges node).count v :=
  (h.count v).trans (pending_cons edges (h.not_mem_placed hready) v)

/-- Placing the first ready node keeps the invariant. -/
theorem Invariant.place_one {node : α} {rest : List α} (h : Invariant edges p)
    (hready : p.ready = node :: rest) :
    Invariant edges ((dependenciesOf edges node).foldl release
        { p with ready := rest, placed := node :: p.placed }) ∧
      ((dependenciesOf edges node).foldl release
        { p with ready := rest, placed := node :: p.placed }).placed = node :: p.placed := by
  have hnodup := h.nodup
  rw [hready] at hnodup
  have hnode := h.not_mem_placed hready
  have hcount : ∀ v, Progress.count { p with ready := rest, placed := node :: p.placed } v =
      pending edges (node :: p.placed) v + (dependenciesOf edges node).count v :=
    h.count_of_ready hready
  obtain ⟨hplaced, hkeys, hcount', freed, hfreed, hfreedNodup, hmem⟩ :=
    foldl_release_spec { p with ready := rest, placed := node :: p.placed }
      (dependenciesOf edges node) fun v => by
        rw [hcount]
        exact Nat.le_add_left _ _
  have hmem' : ∀ v, v ∈ freed ↔
      (node, v) ∈ edges ∧ ∀ u, (u, v) ∈ edges → u ∈ node :: p.placed := fun v => by
    rw [hmem, hcount, mem_dependenciesOf, ← pending_eq_zero_iff]
    refine and_congr_right fun _ => ?_
    omega
  have hfree : ∀ v ∈ p.placed ++ node :: rest, ∀ u, (u, v) ∈ edges → u ∈ p.placed := fun v hv =>
    ((h.free_iff v).mp (hready ▸ hv)).2
  refine ⟨⟨hkeys.trans h.keys, fun v => ?_, ?_, fun v => ?_, ?_⟩, hplaced⟩
  · rw [hplaced, hcount', hcount, Nat.add_sub_cancel]
  · rw [hplaced, hfreed, ← List.append_assoc, List.nodup_append]
    refine ⟨List.nodup_middle.mp hnodup, hfreedNodup, fun a ha b hb hab => hnode ?_⟩
    have hold : b ∈ p.placed ++ node :: rest := List.perm_middle.symm.subset (hab ▸ ha)
    exact hfree b hold node ((hmem' b).mp hb).1
  · rw [hplaced, hfreed, List.mem_append, List.mem_append, hmem']
    exact h.free_iff_cons hready v
  · rw [hplaced]
    intro before v behind heq u hu
    cases before with
    | nil =>
      obtain ⟨rfl, rfl⟩ := List.cons.inj heq
      exact hfree node (List.mem_append_right _ List.mem_cons_self) u hu
    | cons first before =>
      exact h.after before v behind (List.cons.inj heq).2 u hu

theorem Invariant.place (h : Invariant edges p) (steps : Nat) :
    Invariant edges (place edges steps p) := by
  induction steps generalizing p with
  | zero => exact h
  | succ steps ih =>
    rw [TopologicalOrder.place]
    split
    · exact h
    · rename_i node rest hready
      exact ih (h.place_one hready).1

/-- No more nodes can be free than there are roots and edges. -/
theorem Invariant.length_le (h : Invariant edges p) :
    p.placed.length + p.ready.length ≤ (roots edges).length + edges.length := by
  have hedges : edges.length = (edges.map Prod.snd).length := (List.length_map _).symm
  rw [← List.length_append, hedges, ← List.length_append]
  refine (List.subperm_of_subset h.nodup fun v hv => ?_).length_le
  obtain ⟨hnode, -⟩ := (h.free_iff v).mp hv
  rw [List.mem_append]
  by_cases hsnd : v ∈ edges.map Prod.snd
  · exact .inr hsnd
  · refine .inl ?_
    have hfst : v ∈ edges.map Prod.fst := hnode.resolve_right hsnd
    simp only [roots, List.mem_filter, List.mem_eraseDups, List.contains_eq_mem, hsnd,
      decide_false, Bool.not_false, and_true]
    exact hfst

/-- Enough steps leave no node ready. -/
theorem Invariant.ready_place (h : Invariant edges p) {steps : Nat}
    (hsteps : (roots edges).length + edges.length ≤ p.placed.length + steps) :
    (TopologicalOrder.place edges steps p).ready = [] := by
  induction steps generalizing p with
  | zero =>
    change p.ready = []
    have := h.length_le
    exact List.eq_nil_of_length_eq_zero (by omega)
  | succ steps ih =>
    rw [TopologicalOrder.place]
    split
    · assumption
    · rename_i node rest hready
      obtain ⟨hinv, hplaced⟩ := h.place_one hready
      refine ih hinv ?_
      rw [hplaced, List.length_cons]
      omega

/-- The sort ends with no node ready. -/
theorem exists_invariant (edges : List (α × α)) :
    ∃ p, Invariant edges p ∧ p.ready = [] ∧ (topologicalSort edges).ordered = p.placed ∧
      (topologicalSort edges).cyclic =
        ((p.waiting.filter fun e => 0 < e.2).map Prod.fst).reverse := by
  have h := invariant_start edges
  refine ⟨_, h.place ((roots edges).length + edges.length), h.ready_place ?_, rfl, rfl⟩
  exact Nat.le_add_left _ _

end TopologicalOrder

/-- Some loop leads to the node, or the node is on it. -/
def IsBelowLoop {α : Type} (R : α → α → Prop) (v : α) : Prop :=
  ∃ u, Relation.TransGen R u u ∧ Relation.ReflTransGen R u v

omit [DecidableEq α] in
theorem IsBelowLoop.exists_edge {R : α → α → Prop} {v : α} (h : IsBelowLoop R v) :
    ∃ u, R u v := by
  obtain ⟨u, hloop, huv⟩ := h
  obtain ⟨w, -, hw⟩ := Relation.TransGen.tail'_iff.mp (hloop.trans_left huv)
  exact ⟨w, hw⟩

omit [DecidableEq α] in
/-- What comes before the first loop need not be looked at. -/
theorem isBelowLoop_restrict_iff {R : α → α → Prop} {P : α → Prop} (hP : ∀ u v, R u v → P v)
    {v : α} : IsBelowLoop (fun u v => P u ∧ R u v) v ↔ IsBelowLoop R v := by
  have hleads : ∀ {u w}, Relation.TransGen R u w → P u →
      Relation.TransGen (fun u v => P u ∧ R u v) u w := by
    intro u w huw hu
    induction huw with
    | single h => exact .single ⟨hu, h⟩
    | tail hleads h ih =>
      obtain ⟨_, -, h'⟩ := Relation.TransGen.tail'_iff.mp hleads
      exact .tail ih ⟨hP _ _ h', h⟩
  constructor
  · rintro ⟨u, hloop, hbelow⟩
    exact ⟨u, hloop.lift id fun _ _ h => h.2, hbelow.lift id fun _ _ h => h.2⟩
  · rintro ⟨u, hloop, hbelow⟩
    obtain ⟨w, -, hw⟩ := Relation.TransGen.tail'_iff.mp hloop
    have hu := hP w u hw
    refine ⟨u, hleads hloop hu, ?_⟩
    rcases Relation.reflTransGen_iff_eq_or_transGen.mp hbelow with rfl | hbelow
    · exact .refl
    · exact (hleads hbelow hu).to_reflTransGen

namespace Sorted

open TopologicalOrder

variable (edges : List (α × α)) {u v : α}

theorem nodup_ordered : (topologicalSort edges).ordered.Nodup := by
  obtain ⟨p, h, -, hordered, -⟩ := exists_invariant edges
  rw [hordered]
  exact (List.nodup_append.mp h.nodup).1

/-- A node is in place if all its dependents are. -/
theorem mem_ordered_iff :
    v ∈ (topologicalSort edges).ordered ↔
      IsNode edges v ∧ ∀ u, (u, v) ∈ edges → u ∈ (topologicalSort edges).ordered := by
  obtain ⟨p, h, hready, hordered, -⟩ := exists_invariant edges
  have := h.free_iff v
  rw [hready, List.append_nil] at this
  rw [hordered, this]

theorem nodup_cyclic : (topologicalSort edges).cyclic.Nodup := by
  obtain ⟨p, h, -, -, hcyclic⟩ := exists_invariant edges
  rw [hcyclic]
  refine List.nodup_reverse.mpr ?_
  have hkeys : (p.waiting.map Prod.fst).Nodup := h.keys ▸ nodup_eraseDups _
  exact hkeys.sublist (List.filter_sublist.map _)

/-- The nodes that are not in place still wait for a dependent. -/
theorem mem_cyclic_iff :
    v ∈ (topologicalSort edges).cyclic ↔
      IsNode edges v ∧ v ∉ (topologicalSort edges).ordered := by
  obtain ⟨p, h, hready, hordered, hcyclic⟩ := exists_invariant edges
  have hkeys : (p.waiting.map Prod.fst).Nodup := h.keys ▸ nodup_eraseDups _
  have hwaits : v ∈ (topologicalSort edges).cyclic ↔ 0 < p.count v := by
    rw [hcyclic, List.mem_reverse, List.mem_map, Progress.count]
    constructor
    · rintro ⟨⟨w, count⟩, he, rfl⟩
      obtain ⟨he, hpos⟩ := List.mem_filter.mp he
      rw [lookup_eq_some_of_mem hkeys he]
      exact of_decide_eq_true hpos
    · intro hpos
      cases hlookup : List.lookup v p.waiting with
      | none => rw [hlookup] at hpos; exact absurd hpos (Nat.lt_irrefl 0)
      | some count =>
        rw [hlookup] at hpos
        obtain ⟨_, _, hmem, -⟩ := List.lookup_eq_some_iff.mp hlookup
        refine ⟨(v, count), List.mem_filter.mpr ⟨?_, decide_eq_true hpos⟩, rfl⟩
        rw [hmem]
        exact List.mem_append_right _ List.mem_cons_self
  have hfree := h.free_iff v
  rw [hready, List.append_nil] at hfree
  rw [hwaits, Nat.pos_iff_ne_zero, h.count, Ne, pending_eq_zero_iff, hordered, hfree]
  constructor
  · intro hwait
    refine ⟨?_, fun hall => hwait hall.2⟩
    by_contra hnode
    exact hwait fun u hu => absurd (isNode_snd hu) hnode
  · rintro ⟨hnode, hwait⟩ hall
    exact hwait ⟨hnode, hall⟩

/-- Dependencies come before their dependents. -/
theorem mem_behind {before behind : List α}
    (h : (topologicalSort edges).ordered = before ++ v :: behind) (hedge : (u, v) ∈ edges) :
    u ∈ behind := by
  obtain ⟨p, hp, -, hordered, -⟩ := exists_invariant edges
  exact hp.after before v behind (hordered ▸ h) u hedge

/-- What depends on a node in place stands behind it. -/
theorem pair_sublist_ordered (h : v ∈ (topologicalSort edges).ordered) (hedge : (u, v) ∈ edges) :
    [v, u].Sublist (topologicalSort edges).ordered := by
  obtain ⟨before, behind, hsplit⟩ := List.append_of_mem h
  have hbehind := mem_behind edges hsplit hedge
  rw [hsplit]
  exact ((List.singleton_sublist.mpr hbehind).cons_cons v).trans (List.sublist_append_right _ _)

/-- No node in place depends on itself. -/
theorem not_mem_self (h : v ∈ (topologicalSort edges).ordered) : (v, v) ∉ edges := by
  intro hedge
  obtain ⟨before, behind, hsplit⟩ := List.append_of_mem h
  have hnodup := nodup_ordered edges
  rw [hsplit, List.nodup_middle, List.nodup_cons] at hnodup
  exact hnodup.1 (List.mem_append_right _ (mem_behind edges hsplit hedge))

/-- No node depends on one that comes later. -/
theorem pairwise_ordered : (topologicalSort edges).ordered.Pairwise fun u v => (u, v) ∉ edges := by
  rw [List.pairwise_iff_forall_sublist]
  intro u v hsub hedge
  obtain ⟨front, rest, hordered, hu, hv⟩ := List.cons_sublist_iff.mp hsub
  obtain ⟨middle, behind, rfl⟩ := List.append_of_mem (List.singleton_sublist.mp hv)
  have hbehind : u ∈ behind := mem_behind edges (hordered.trans (List.append_assoc ..).symm) hedge
  have hnodup := nodup_ordered edges
  rw [hordered] at hnodup
  refine (List.nodup_append.mp hnodup).2.2 u hu u ?_ rfl
  exact List.mem_append_right _ (List.mem_cons_of_mem _ hbehind)

/-- The place of a dependency is before that of its dependents. -/
theorem idxOf_lt_idxOf (h : v ∈ (topologicalSort edges).ordered) (hedge : (u, v) ∈ edges) :
    (topologicalSort edges).ordered.idxOf v < (topologicalSort edges).ordered.idxOf u := by
  obtain ⟨before, behind, hsplit⟩ := List.append_of_mem h
  have hbehind := mem_behind edges hsplit hedge
  have hnodup := nodup_ordered edges
  rw [hsplit] at hnodup ⊢
  obtain ⟨-, hnodup, hdisjoint⟩ := List.nodup_append.mp hnodup
  have hv : v ∉ before := fun hmem => hdisjoint v hmem v List.mem_cons_self rfl
  have hu : u ∉ before := fun hmem => hdisjoint u hmem u (List.mem_cons_of_mem _ hbehind) rfl
  have hne : v ≠ u := fun heq => (List.nodup_cons.mp hnodup).1 (heq ▸ hbehind)
  rw [List.idxOf_append_of_notMem hv, List.idxOf_append_of_notMem hu, List.idxOf_cons_self,
    List.idxOf_cons_ne _ hne]
  omega

/-- A node that is not in place has a dependent that is not. -/
theorem exists_dependent (h : v ∈ (topologicalSort edges).cyclic) :
    ∃ u ∈ (topologicalSort edges).cyclic, (u, v) ∈ edges := by
  obtain ⟨hnode, hordered⟩ := (mem_cyclic_iff edges).mp h
  rw [mem_ordered_iff, not_and] at hordered
  obtain ⟨u, hu⟩ := not_forall.mp (hordered hnode)
  obtain ⟨hedge, hu⟩ := Classical.not_imp.mp hu
  exact ⟨u, (mem_cyclic_iff edges).mpr ⟨isNode_fst hedge, hu⟩, hedge⟩

/-- What leads to a node in place is in place. -/
theorem mem_ordered_of_reflTransGen (h : v ∈ (topologicalSort edges).ordered)
    (huv : Relation.ReflTransGen (fun u v => (u, v) ∈ edges) u v) :
    u ∈ (topologicalSort edges).ordered := by
  induction huv using Relation.ReflTransGen.head_induction_on with
  | refl => exact h
  | head hedge _ ih => exact ((mem_ordered_iff edges).mp ih).2 _ hedge

/-- What leads to a node in place comes later. -/
theorem idxOf_lt_idxOf_of_transGen (h : v ∈ (topologicalSort edges).ordered)
    (huv : Relation.TransGen (fun u v => (u, v) ∈ edges) u v) :
    (topologicalSort edges).ordered.idxOf v < (topologicalSort edges).ordered.idxOf u := by
  induction huv using Relation.TransGen.head_induction_on with
  | single hedge => exact idxOf_lt_idxOf edges h hedge
  | head hedge hrest ih =>
    have hnext := mem_ordered_of_reflTransGen edges h hrest.to_reflTransGen
    exact ih.trans (idxOf_lt_idxOf edges hnext hedge)

/-- The nodes that are not in place are those on or below loops. -/
theorem mem_cyclic_iff_isBelowLoop : v ∈ (topologicalSort edges).cyclic ↔
    IsBelowLoop (fun u v => (u, v) ∈ edges) v := by
  constructor
  · intro hv
    -- Going up from dependency to dependent never ends, but there are only finitely many nodes.
    by_contra hnone
    let Above := { u // u ∈ (topologicalSort edges).cyclic ∧
      Relation.ReflTransGen (fun u v => (u, v) ∈ edges) u v }
    let Leads (u w : Above) : Prop := Relation.TransGen (fun u v => (u, v) ∈ edges) u.1 w.1
    have hfinite : Finite Above :=
      ((topologicalSort edges).cyclic.finite_toSet.subset fun _ hu => hu.1).to_subtype
    have htrans : IsTrans _ Leads := ⟨fun _ _ _ huw hwx => huw.trans hwx⟩
    have hirrefl : Std.Irrefl Leads := ⟨fun u hu => hnone ⟨u.1, hu, u.2.2⟩⟩
    have hwf : WellFounded Leads := Finite.wellFounded_of_trans_of_irrefl Leads
    obtain ⟨⟨m, hm, hmv⟩, -, hmin⟩ := hwf.has_min Set.univ ⟨⟨v, hv, .refl⟩, trivial⟩
    obtain ⟨u, hu, hedge⟩ := exists_dependent edges hm
    exact hmin ⟨u, hu, .head hedge hmv⟩ trivial (.single hedge)
  · intro hbelow
    obtain ⟨w, hedge⟩ := hbelow.exists_edge
    obtain ⟨u, hloop, huv⟩ := hbelow
    refine (mem_cyclic_iff edges).mpr ⟨isNode_snd hedge, fun hv => ?_⟩
    have hu := mem_ordered_of_reflTransGen edges hv huv
    exact Nat.lt_irrefl _ (idxOf_lt_idxOf_of_transGen edges hu hloop)

/-- Without loops all nodes are in place. -/
theorem cyclic_eq_nil (h : WellFounded fun v u => (u, v) ∈ edges) :
    (topologicalSort edges).cyclic = [] := by
  refine List.eq_nil_iff_forall_not_mem.mpr fun v hv => ?_
  obtain ⟨u, hloop, -⟩ := (mem_cyclic_iff_isBelowLoop edges).mp hv
  exact h.transGen.irrefl.irrefl u (Relation.transGen_swap.mp hloop)

end Sorted

end DiffAnalyzer
