/-!
# Numeric literals

A literal is a binary64 pattern: a sign bit over a 63-bit magnitude whose upper
eleven bits are the exponent field.  Two literals are equal exactly when their
patterns are, so both zeros and every NaN payload stay apart; the order is the
total order on sign and magnitude.

Every finite magnitude is a whole number of *units* of size `2 ^ -1074`
(`Number.units`), which lets reading and writing work with natural numbers only.
-/

namespace DiffAnalyzer

/-- A binary64 literal, compared by bit pattern. -/
@[ext]
structure Number where
  bits : UInt64
deriving DecidableEq, Inhabited, Repr

namespace Number

/-- The bit that marks a pattern as negative. -/
def signBit : Nat := 1 <<< 63

/-- The lowest bit of the exponent field, and the leading bit of a significand. -/
def leadingBit : Nat := 1 <<< 52

/-- The magnitude of the infinities: an exponent field of all ones. -/
def infiniteMagnitude : Nat := 0x7ff <<< 52

/-- The magnitude of the NaN that arithmetic produces. -/
def quietMagnitude : Nat := 0xfff <<< 51

def negative (x : Number) : Bool := signBit ≤ x.bits.toNat

/-- The pattern without its sign. -/
def magnitude (x : Number) : Nat := x.bits.toNat % signBit

def isNaN (x : Number) : Bool := infiniteMagnitude < x.magnitude

def isInfinite (x : Number) : Bool := x.magnitude == infiniteMagnitude

def isFinite (x : Number) : Bool := x.magnitude < infiniteMagnitude

/-- The literal with the given sign and magnitude. -/
def ofMagnitude (negative : Bool) (magnitude : Nat) : Number :=
  ⟨UInt64.ofNat (if negative then signBit + magnitude else magnitude)⟩

def zero : Number := ofMagnitude false 0

def infinity : Number := ofMagnitude false infiniteMagnitude

def nan : Number := ofMagnitude false quietMagnitude

def ofFloat (x : Float) : Number := ⟨x.toBits⟩

def toFloat (x : Number) : Float := Float.ofBits x.bits

/-- How many units make one. -/
@[irreducible]
def unitsPerOne : Nat := 1 <<< 1074

/-- The size of a finite magnitude, counted in units of `2 ^ -1074`. -/
def unitsOf (magnitude : Nat) : Nat :=
  if magnitude < leadingBit then magnitude
  else (leadingBit + magnitude % leadingBit) <<< (magnitude / leadingBit - 1)

def units (x : Number) : Nat := unitsOf x.magnitude

/-- Place in the total order: negative patterns come first, larger magnitudes
before smaller ones, and the negative zero right before the positive one. -/
def rank (x : Number) : Int :=
  if x.negative then -(x.magnitude : Int) - 1 else x.magnitude

instance : Ord Number where
  compare x y := compare x.rank y.rank

theorem compare_eq (x y : Number) : compare x y = compare x.rank y.rank := rfl

theorem bits_eq_of_parts {x y : Number} (hs : x.negative = y.negative)
    (hm : x.magnitude = y.magnitude) : x = y := by
  have hx := x.bits.toNat_lt
  have hy := y.bits.toNat_lt
  have bit : signBit = 0x8000000000000000 := rfl
  simp only [negative, magnitude, decide_eq_decide, bit] at hs hm
  exact Number.ext (UInt64.toNat_inj.mp (by omega))

theorem rank_injective {x y : Number} (h : x.rank = y.rank) : x = y := by
  unfold rank at h
  split at h <;> split at h
  · exact bits_eq_of_parts (by simp_all) (by omega)
  · omega
  · omega
  · exact bits_eq_of_parts (by simp_all) (by omega)

instance : Std.TransOrd Number where
  eq_swap {a b} := @Std.OrientedCmp.eq_swap Int compare _ a.rank b.rank
  isLE_trans {a b c} := @Std.TransCmp.isLE_trans Int compare _ a.rank b.rank c.rank

instance : Std.LawfulEqOrd Number where
  compare_self {a} := @Std.ReflCmp.compare_self Int compare _ a.rank
  eq_of_compare h := rank_injective (@Std.LawfulEqCmp.eq_of_compare Int compare _ _ _ h)

end Number

end DiffAnalyzer
