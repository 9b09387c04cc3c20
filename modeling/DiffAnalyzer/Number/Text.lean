import DiffAnalyzer.Number.Shortest

/-!
# Texts of literals

Circuits, listings and simulation output write numbers positionally, with the
fewest digits that read back and never an exponent (`Number.text`).  Generated C
marks every number as floating point and turns to an exponent outside
`1e-4 ≤ |x| < 1e16` (`Number.sourceText`).  `Number.ofText?` reads a whole text,
names of infinity and NaN included.
-/

namespace DiffAnalyzer

namespace Number

def minus (x : Number) : List Char := if x.negative then ['-'] else []

/-- `c * 10 ^ e` without an exponent. -/
def positional (c : Nat) (e : Int) : List Char :=
  let digits := Nat.toDigits 10 c
  if 0 ≤ e then digits ++ List.replicate e.toNat '0'
  else
    let places := (-e).toNat
    let padded := List.replicate (places + 1 - digits.length) '0' ++ digits
    padded.take (padded.length - places) ++ '.' :: padded.drop (padded.length - places)

/-- `c * 10 ^ e` with one digit before the point. -/
def scientific (c : Nat) (e : Int) : List Char :=
  let digits := Nat.toDigits 10 c
  let power := e + (digits.length - 1 : Nat)
  let fraction := digits.drop 1
  digits.take 1 ++ (if fraction.isEmpty then [] else '.' :: fraction) ++
    'e' :: (if power < 0 then ['-'] else []) ++ Nat.toDigits 10 power.natAbs

/-- The text of a literal in circuits and output. -/
def text (x : Number) : List Char :=
  if x.isNaN then "NaN".toList
  else if x.isInfinite then x.minus ++ "inf".toList
  else
    let (c, e) := shortest x.magnitude
    x.minus ++ positional c e

/-- The text of a literal in generated source. -/
def sourceText (x : Number) : List Char :=
  if x.isNaN then "NAN".toList
  else if x.isInfinite then (if x.negative then "(-INFINITY)" else "INFINITY").toList
  else
    let (c, e) := shortest x.magnitude
    let power := e + (digitCount c - 1 : Nat)
    if c ≠ 0 ∧ (power < -4 ∨ 16 ≤ power) then x.minus ++ scientific c e
    else x.minus ++ positional c e ++ (if 0 ≤ e then ".0".toList else [])

instance : ToString Number := ⟨fun x => String.ofList x.text⟩

/-- The literals that are spelled as words, in any letter case. -/
def ofWord? (negative : Bool) (word : List Char) : Option Number :=
  let word := word.map Char.toLower
  if word = "inf".toList ∨ word = "infinity".toList then
    some (ofMagnitude negative infiniteMagnitude)
  else if word = "nan".toList then some (ofMagnitude negative quietMagnitude)
  else none

/-- The literal a whole text stands for. -/
def ofText? (text : List Char) : Option Number :=
  match Decimal.scan text with
  | some (decimal, []) => some decimal.toNumber
  | _ =>
    let (negative, word) := Decimal.scanSign text
    ofWord? negative word

end Number

end DiffAnalyzer
