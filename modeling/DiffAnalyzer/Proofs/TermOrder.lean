import DiffAnalyzer.Term.Order
import Mathlib

/-!
# Arguments and terms are totally ordered

Arguments are compared through all their levels, literals by their patterns.  The comparison of a
first argument with a third follows from those with one in between (`Composes`), node by node and
list by list, and two arguments compare as equal only if they are the same.  So arguments, terms
and literals are in a total order that agrees with equality (`Arg.isTotallyOrdered`), whatever
literals there are: the order of literals is that of their patterns as integers with the sign taken
into account (`Number.rank_eq_signAdjusted`).
-/

namespace DiffAnalyzer

/-- Comparing is a total order, and members that compare as equal are the same. -/
structure IsTotallyOrdered (α : Type) [Ord α] : Prop where
  /-- The other way round the answer is the opposite. -/
  swap : ∀ a b : α, compare a b = (compare b a).swap
  trans : ∀ a b c : α, (compare a b).isLE → (compare b c).isLE → (compare a c).isLE
  total : ∀ a b : α, (compare a b).isLE ∨ (compare b a).isLE
  antisymm : ∀ a b : α, (compare a b).isLE → (compare b a).isLE → a = b
  eq_iff : ∀ a b : α, compare a b = .eq ↔ a = b

theorem isTotallyOrdered_of_lawful (α : Type) [Ord α] [Std.TransOrd α] [Std.LawfulEqOrd α] :
    IsTotallyOrdered α where
  swap _ _ := Std.OrientedCmp.eq_swap
  trans _ _ _ := Std.TransCmp.isLE_trans
  total a b := by
    have hswap : compare b a = (compare a b).swap := Std.OrientedCmp.eq_swap
    rw [hswap]
    cases compare a b with
    | lt => exact .inl rfl
    | eq => exact .inl rfl
    | gt => exact .inr rfl
  antisymm _ _ hab hba := Std.LawfulEqCmp.eq_of_compare (Std.OrientedCmp.isLE_antisymm hab hba)
  eq_iff _ _ := Std.LawfulEqCmp.compare_eq_iff_eq

namespace Number

/-- The pattern as a signed integer, with all bits but the sign flipped where that is set. -/
def signAdjusted (x : Number) : Int :=
  let pattern := x.bits.toBitVec
  (pattern ^^^ pattern.sshiftRight 63 >>> 1).toInt

/-- The sign, shifted over the whole pattern and back by one, marks the bits to flip. -/
theorem signMask_eq (pattern : BitVec 64) : pattern.sshiftRight 63 >>> 1 =
    if pattern.msb then (BitVec.allOnes 63).setWidth 64 else 0 := by
  have hshift : ∀ y : BitVec 64, y.msb = false → y >>> 63 = 0 := by
    intro y hy
    rw [BitVec.msb_eq_decide, decide_eq_false_iff_not, not_le] at hy
    apply BitVec.eq_of_toNat_eq
    rw [BitVec.toNat_ushiftRight, Nat.shiftRight_eq_div_pow, Nat.div_eq_of_lt hy]
    rfl
  cases hmsb : pattern.msb with
  | false =>
    rw [BitVec.sshiftRight_eq_of_msb_false hmsb, hshift pattern hmsb]
    rfl
  | true =>
    rw [BitVec.sshiftRight_eq_of_msb_true hmsb, hshift (~~~pattern) (by simp [hmsb])]
    rfl

/-- The place of a literal is its sign-adjusted pattern. -/
theorem rank_eq_signAdjusted (x : Number) : x.rank = x.signAdjusted := by
  have hmsb : x.bits.toBitVec.msb = x.negative := BitVec.msb_eq_decide _
  have hbits : x.bits.toBitVec.toNat = x.bits.toNat := rfl
  rw [rank, signAdjusted, signMask_eq, hmsb]
  cases hnegative : x.negative with
  | false =>
    rw [hnegative] at hmsb
    rw [negative, decide_eq_false_iff_not, not_le] at hnegative
    rw [if_neg (by decide), if_neg (by decide), BitVec.toInt_eq_msb_cond]
    simp [hmsb, magnitude, hbits, Nat.mod_eq_of_lt hnegative]
  | true =>
    rw [hnegative] at hmsb
    generalize x.bits.toBitVec = pattern at hmsb hbits
    have hlow : (pattern ^^^ (BitVec.allOnes 63).setWidth 64).setWidth 63 =
        ~~~(pattern.setWidth 63) := by
      rw [BitVec.setWidth_xor, ← BitVec.xor_allOnes]
      rfl
    have hhigh : (pattern ^^^ (BitVec.allOnes 63).setWidth 64).msb = true := by
      rw [BitVec.msb_xor, hmsb]
      rfl
    rw [if_pos rfl, if_pos rfl, BitVec.toInt_eq_msb_cond, if_pos hhigh]
    generalize pattern ^^^ (BitVec.allOnes 63).setWidth 64 = flipped at hlow hhigh
    have hlow := congrArg BitVec.toNat hlow
    rw [BitVec.toNat_not, BitVec.toNat_setWidth, BitVec.toNat_setWidth, hbits] at hlow
    rw [BitVec.msb_eq_decide, decide_eq_true_iff] at hhigh
    have hlt := flipped.isLt
    have bit : signBit = 0x8000000000000000 := rfl
    rw [magnitude, bit]
    omega

end Number

/-- What comparing `a` with `c` may give when comparing `a` with `b` and `b` with `c` gives the
first two answers. -/
inductive Composes : (ab bc ac : Ordering) → Prop
  | eq_left (o : Ordering) : Composes .eq o o
  | eq_right (o : Ordering) : Composes o .eq o
  | same (o : Ordering) : Composes o o o
  | lt_gt (o : Ordering) : Composes .lt .gt o
  | gt_lt (o : Ordering) : Composes .gt .lt o

namespace Composes

variable {ab bc ac ab' bc' ac' : Ordering}

theorem isLE (h : Composes ab bc ac) (hab : ab.isLE) (hbc : bc.isLE) : ac.isLE := by
  cases h with
  | eq_left => exact hbc
  | eq_right => exact hab
  | same => exact hab
  | lt_gt => cases hbc
  | gt_lt => cases hab

theorem lt_left (o : Ordering) : Composes .lt o .lt := by
  cases o
  · exact .same .lt
  · exact .eq_right .lt
  · exact .lt_gt .lt

theorem lt_right (o : Ordering) : Composes o .lt .lt := by
  cases o
  · exact .same .lt
  · exact .eq_left .lt
  · exact .gt_lt .lt

theorem gt_left (o : Ordering) : Composes .gt o .gt := by
  cases o
  · exact .gt_lt .gt
  · exact .eq_right .gt
  · exact .same .gt

theorem gt_right (o : Ordering) : Composes o .gt .gt := by
  cases o
  · exact .lt_gt .gt
  · exact .eq_left .gt
  · exact .same .gt

/-- Lexicographic comparisons compose when those of the parts do. -/
theorem lex (h : Composes ab bc ac) (h' : Composes ab' bc' ac') :
    Composes (ab.then ab') (bc.then bc') (ac.then ac') := by
  cases h with
  | eq_left =>
    cases bc
    · exact .lt_right ab'
    · exact h'
    · exact .gt_right ab'
  | eq_right =>
    cases ab
    · exact .lt_left bc'
    · exact h'
    · exact .gt_left bc'
  | same =>
    cases ab
    · exact .same .lt
    · exact h'
    · exact .same .gt
  | lt_gt => exact .lt_gt _
  | gt_lt => exact .gt_lt _

theorem of_transOrd {α : Type} [Ord α] [Std.TransOrd α] (a b c : α) :
    Composes (compare a b) (compare b c) (compare a c) := by
  cases hab : compare a b with
  | eq =>
    rw [Std.TransCmp.congr_left hab]
    exact .eq_left _
  | lt =>
    cases hbc : compare b c with
    | eq =>
      rw [← Std.TransCmp.congr_right hbc, hab]
      exact .eq_right .lt
    | lt =>
      rw [Std.TransCmp.lt_trans hab hbc]
      exact .same .lt
    | gt => exact .lt_gt _
  | gt =>
    cases hbc : compare b c with
    | eq =>
      rw [← Std.TransCmp.congr_right hbc, hab]
      exact .eq_right .gt
    | lt => exact .gt_lt _
    | gt =>
      rw [Std.TransCmp.gt_trans hab hbc]
      exact .same .gt

end Composes

namespace Arg

mutual

theorem order_swap : ∀ a b : Arg, order a b = (order b a).swap
  | .number x, .number y =>
    have hswap : compare x y = (compare y x).swap := Std.OrientedCmp.eq_swap
    hswap
  | .number _, .node _ _ => rfl
  | .node _ _, .number _ => rfl
  | .node h s, .node k t => by
    rw [order, order, Ordering.swap_then, ← orderList_swap s t]
    exact congrArg (Ordering.then · _) Std.OrientedCmp.eq_swap

theorem orderList_swap : ∀ s t : List Arg, orderList s t = (orderList t s).swap
  | [], [] => rfl
  | [], _ :: _ => rfl
  | _ :: _, [] => rfl
  | a :: s, b :: t => by
    rw [orderList, orderList, Ordering.swap_then, ← order_swap a b, ← orderList_swap s t]

end

mutual

theorem eq_of_order_eq : ∀ a b : Arg, order a b = .eq → a = b
  | .number x, .number y, heq =>
    have hxy : compare x y = .eq := heq
    congrArg Arg.number (Std.LawfulEqCmp.eq_of_compare hxy)
  | .node h s, .node k t, heq => by
    rw [order, Ordering.then_eq_eq] at heq
    rw [Std.LawfulEqCmp.eq_of_compare heq.1, eq_of_orderList_eq s t heq.2]

theorem eq_of_orderList_eq : ∀ s t : List Arg, orderList s t = .eq → s = t
  | [], [], _ => rfl
  | a :: s, b :: t, heq => by
    rw [orderList, Ordering.then_eq_eq] at heq
    rw [eq_of_order_eq a b heq.1, eq_of_orderList_eq s t heq.2]

end

mutual

theorem composes_order : ∀ a b c : Arg, Composes (order a b) (order b c) (order a c)
  | .number x, .number y, .number z => .of_transOrd x y z
  | .number _, .number _, .node _ _ => .lt_right _
  | .number _, .node _ _, .number _ => .lt_gt _
  | .number _, .node _ _, .node _ _ => .lt_left _
  | .node _ _, .number _, .number _ => .gt_left _
  | .node _ _, .number _, .node _ _ => .gt_lt _
  | .node _ _, .node _ _, .number _ => .gt_right _
  | .node h s, .node k t, .node l u => by
    rw [order, order, order]
    exact (Composes.of_transOrd h k l).lex (composes_orderList s t u)

theorem composes_orderList : ∀ s t u : List Arg,
    Composes (orderList s t) (orderList t u) (orderList s u)
  | [], [], [] => .eq_left _
  | [], [], _ :: _ => .eq_left _
  | [], _ :: _, [] => .lt_gt _
  | [], _ :: _, _ :: _ => .lt_left _
  | _ :: _, [], [] => .eq_right _
  | _ :: _, [], _ :: _ => .gt_lt _
  | _ :: _, _ :: _, [] => .gt_right _
  | a :: s, b :: t, c :: u => by
    rw [orderList, orderList, orderList]
    exact (composes_order a b c).lex (composes_orderList s t u)

end

instance : Std.TransOrd Arg where
  eq_swap {a b} := order_swap a b
  isLE_trans {a b c} := (composes_order a b c).isLE

instance : Std.LawfulEqOrd Arg where
  compare_self := Std.ReflCmp.compare_self
  eq_of_compare {a b} := eq_of_order_eq a b

end Arg

namespace Term

instance : Std.TransOrd Term where
  eq_swap {s t} := by
    rw [compare_eq, compare_eq]
    exact Std.OrientedCmp.eq_swap
  isLE_trans {s t u} := by
    rw [compare_eq, compare_eq, compare_eq]
    exact Std.TransCmp.isLE_trans

instance : Std.LawfulEqOrd Term where
  compare_self := Std.ReflCmp.compare_self
  eq_of_compare {s t} h := by
    rw [compare_eq] at h
    have hsame := congrArg Arg.term? (Std.LawfulEqCmp.eq_of_compare h)
    rwa [term?_toArg, term?_toArg, Option.some.injEq] at hsame

end Term

/-- Arguments, terms and literals are totally ordered in agreement with equality.  Literals are the
same when their patterns are, and are compared by their sign-adjusted patterns. -/
theorem Arg.isTotallyOrdered :
    IsTotallyOrdered Arg ∧ IsTotallyOrdered Term ∧ IsTotallyOrdered Number ∧
      ∀ x y : Number, (x = y ↔ x.bits = y.bits) ∧
        compare x y = compare x.signAdjusted y.signAdjusted := by
  refine ⟨isTotallyOrdered_of_lawful Arg, isTotallyOrdered_of_lawful Term,
    isTotallyOrdered_of_lawful Number, fun x y => ⟨Number.ext_iff, ?_⟩⟩
  rw [Number.compare_eq, x.rank_eq_signAdjusted, y.rank_eq_signAdjusted]

/-- The zeros differ, and a NaN with a sign comes before everything else. -/
example : compare (⟨0x8000000000000000⟩ : Number) .zero = .lt ∧
    compare (⟨0xfff8000000000000⟩ : Number) ⟨0xfff0000000000000⟩ = .lt := by decide

end DiffAnalyzer
