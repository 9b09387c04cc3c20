import DiffAnalyzer.Number.Decimal

/-!
# Shortest decimals

`Number.shortest` picks, among the decimals that read back as a given finite
magnitude, one with the fewest digits and, of those, the nearest; of two equally
near ones it takes the larger.  Whatever it picks reads back: seventeen digits
are enough for every magnitude, and the exact expansion stands in past them.
-/

namespace DiffAnalyzer

namespace Number

/-- How many decimal digits `n` has, none for zero. -/
def digitCount (n : Nat) : Nat := if n = 0 then 0 else (Nat.toDigits 10 n).length

/-- The least `k` with `num / den < 10 ^ k`, or `10 ^ k` itself below one. -/
def decimalPoint (num den : Nat) : Int :=
  if den ≤ num then digitCount (num / den)
  else 1 - (digitCount ((den - 1) / num) : Int)

/-- The magnitude `m` as a multiple of `10 ^ e`: the whole part, and whether the next
whole number is at least as near. -/
def multipleOf (m : Nat) (e : Int) : Nat × Bool :=
  let num := unitsOf m * Nat.pow 10 (-e).toNat
  let den := unitsPerOne * Nat.pow 10 e.toNat
  (num / den, den ≤ 2 * (num % den))

/-- The multiple of `10 ^ e` nearest to the magnitude `m` that reads back as `m`. -/
def atScale (m : Nat) (e : Int) : Option (Nat × Int) :=
  let (low, upper) := multipleOf m e
  let order := if upper then [low + 1, low] else [low, low + 1]
  (order.find? fun c => Decimal.nearest c e == m).map (·, e)

/-- All digits of the magnitude `m`. -/
def exactDigits (m : Nat) : Nat × Int := (unitsOf m * Nat.pow 5 1074, -1074)

/-- Coefficient and exponent of the shortest decimal for the finite magnitude `m`. -/
def shortest (m : Nat) : Nat × Int :=
  if m = 0 then (0, 0)
  else
    let point := decimalPoint (unitsOf m) unitsPerOne
    ((List.range 18).findSome? fun i : Nat => atScale m (point - i)).getD (exactDigits m)

theorem nearest_of_atScale {m : Nat} {e : Int} {d : Nat × Int} (h : atScale m e = some d) :
    Decimal.nearest d.1 d.2 = m := by
  obtain ⟨c, hc, rfl⟩ := Option.map_eq_some_iff.mp h
  exact beq_iff_eq.mp (List.find?_some (p := fun c => Decimal.nearest c e == m) hc)

end Number

end DiffAnalyzer
