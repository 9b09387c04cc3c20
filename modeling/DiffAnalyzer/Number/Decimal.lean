import DiffAnalyzer.Number.Basic

/-!
# Decimals and their nearest literals

A decimal `± c * 10 ^ e` is rounded to the literal nearest to it, a tie going to
the even pattern.  `Decimal.scan` splits the longest decimal off a text:

    sign? (digits ("." digits*)? | "." digits) (("e" | "E") sign? digits)?
-/

namespace DiffAnalyzer

/-- The quotient `num / den` rounded to a whole number, halves to the even one. -/
def roundHalfEven (num den : Nat) : Nat :=
  let quotient := num / den
  let rest := num % den
  if 2 * rest < den then quotient
  else if den < 2 * rest then quotient + 1
  else quotient + quotient % 2

theorem roundHalfEven_mul_right (n : Nat) {den : Nat} (h : 0 < den) :
    roundHalfEven (n * den) den = n := by
  simp [roundHalfEven, Nat.mul_div_cancel _ h, h]

/-- The magnitude nearest to `num / den`: the significand keeps 53 bits, or as many
as the units of `2 ^ -1074` leave, and a carry moves on into the exponent field. -/
def nearestMagnitude (num den : Nat) : Nat :=
  let scaled := num * Number.unitsPerOne
  let shift := (scaled / den).log2 - 52
  min Number.infiniteMagnitude (shift <<< 52 + roundHalfEven scaled (den <<< shift))

/-- The decimal `± coefficient * 10 ^ exponent`. -/
structure Decimal where
  negative : Bool
  coefficient : Nat
  exponent : Int
deriving DecidableEq, Repr

namespace Decimal

/-- The magnitude nearest to `c * 10 ^ e`.  Above `10 ^ 400` and below `10 ^ -400`
the answer is known without forming the power. -/
def nearest (c : Nat) (e : Int) : Nat :=
  if c = 0 then 0
  else if 400 < e then Number.infiniteMagnitude
  else if e + 400 + c.log2 < 0 then 0
  else if 0 ≤ e then nearestMagnitude (c * Nat.pow 10 e.toNat) 1
  else nearestMagnitude c (Nat.pow 10 (-e).toNat)

def toNumber (d : Decimal) : Number :=
  .ofMagnitude d.negative (nearest d.coefficient d.exponent)

/-- Split a sign off; no sign counts as plus. -/
def scanSign : List Char → Bool × List Char
  | '-' :: rest => (true, rest)
  | '+' :: rest => (false, rest)
  | rest => (false, rest)

/-- Split an exponent off.  A mark without digits is no exponent. -/
def scanExponent : List Char → Int × List Char
  | [] => (0, [])
  | c :: rest =>
    if c = 'e' ∨ c = 'E' then
      let (negative, body) := scanSign rest
      let digits := body.takeWhile Char.isDigit
      let size : Int := Nat.ofDigitChars 10 digits 0
      if digits.isEmpty then (0, c :: rest)
      else (if negative then -size else size, body.dropWhile Char.isDigit)
    else (0, c :: rest)

/-- Split the digits after a decimal point off, if there is a point. -/
def scanFraction : List Char → List Char × List Char
  | '.' :: rest => (rest.takeWhile Char.isDigit, rest.dropWhile Char.isDigit)
  | rest => ([], rest)

/-- Split the longest decimal off the front of a text. -/
def scan (text : List Char) : Option (Decimal × List Char) :=
  let (negative, body) := scanSign text
  let whole := body.takeWhile Char.isDigit
  let (fraction, rest) := scanFraction (body.dropWhile Char.isDigit)
  if (whole ++ fraction).isEmpty then none
  else
    let (exponent, rest) := scanExponent rest
    some (⟨negative, Nat.ofDigitChars 10 (whole ++ fraction) 0, exponent - fraction.length⟩, rest)

end Decimal

end DiffAnalyzer
