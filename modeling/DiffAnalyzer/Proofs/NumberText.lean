import DiffAnalyzer.Number.Text
import Mathlib

/-!
# Texts of numbers read back

The digits chosen for a finite number round to it again (`Number.nearest_shortest`): those
that are found at some scale do by construction, and the exact expansion does because a
whole number of units is a significand of 53 bits, shifted.  Read off the front of a text
that does not go on with digits, they yield the number, its sign included
(`Number.exists_scan_text`).
-/

namespace DiffAnalyzer

namespace Number

variable {m : Nat}

/-- A magnitude is its exponent field above its significand. -/
theorem exists_significand (m : Nat) : ∃ significand shift,
    unitsOf m = significand <<< shift ∧ (unitsOf m).log2 - 52 = shift ∧
      shift <<< 52 + significand = m := by
  have hbit : leadingBit = 2 ^ 52 := rfl
  by_cases hm : m < leadingBit
  · refine ⟨m, 0, ?_, ?_, ?_⟩
    · rw [unitsOf, if_pos hm, Nat.shiftLeft_zero]
    · rw [unitsOf, if_pos hm]
      by_cases hzero : m = 0
      · rw [hzero, Nat.log2_zero]
      · have : m.log2 < 52 := (Nat.log2_lt hzero).mpr (hbit ▸ hm)
        omega
    · rw [Nat.zero_shiftLeft, Nat.zero_add]
  · have hunits : unitsOf m = (leadingBit + m % leadingBit) <<< (m / leadingBit - 1) := by
      rw [unitsOf, if_neg hm]
    refine ⟨leadingBit + m % leadingBit, m / leadingBit - 1, hunits, ?_, ?_⟩
    · have hlog : (unitsOf m).log2 = 52 + (m / leadingBit - 1) := by
        have hlt : m % leadingBit < leadingBit := Nat.mod_lt _ (by decide)
        have hpos : 0 < 2 ^ (m / leadingBit - 1) := Nat.two_pow_pos _
        rw [hunits, Nat.shiftLeft_eq, Nat.log2_eq_iff]
        · constructor
          · rw [Nat.pow_add, ← hbit]
            exact Nat.mul_le_mul_right _ (Nat.le_add_right _ _)
          · rw [Nat.add_right_comm, Nat.pow_add, Nat.mul_lt_mul_right hpos]
            omega
        · refine Nat.mul_ne_zero ?_ hpos.ne'
          omega
      rw [hlog, Nat.add_sub_cancel_left]
    · have hdiv := Nat.div_add_mod m leadingBit
      have hone : 1 ≤ m / leadingBit := (Nat.one_le_div_iff (by decide)).mpr (Nat.not_lt.mp hm)
      rw [Nat.shiftLeft_eq, Nat.sub_mul, ← hbit]
      have := Nat.le_mul_of_pos_left leadingBit hone
      rw [Nat.mul_comm] at hdiv
      omega

/-- A quotient that is a whole number of units is the magnitude of so many units. -/
theorem nearestMagnitude_eq {num den : Nat} (hm : m < infiniteMagnitude) (hden : 0 < den)
    (h : num * unitsPerOne = unitsOf m * den) : nearestMagnitude num den = m := by
  obtain ⟨significand, shift, hunits, hlog, hsum⟩ := exists_significand m
  have hround : roundHalfEven (num * unitsPerOne) (den <<< shift) = significand := by
    have hscaled : num * unitsPerOne = significand * (den <<< shift) := by
      rw [h, hunits, Nat.shiftLeft_eq, Nat.shiftLeft_eq, Nat.mul_assoc, Nat.mul_comm (2 ^ shift)]
    rw [hscaled]
    refine roundHalfEven_mul_right _ ?_
    rw [Nat.shiftLeft_eq]
    exact Nat.mul_pos hden (Nat.two_pow_pos _)
  have hdiv : num * unitsPerOne / den = unitsOf m := by rw [h, Nat.mul_div_cancel _ hden]
  rw [nearestMagnitude]
  simp only [hdiv, hlog, hround, hsum]
  exact Nat.min_eq_right hm.le

theorem unitsPerOne_eq : unitsPerOne = 1 <<< 1074 := by
  unfold unitsPerOne
  rfl

theorem unitsOf_ne_zero (h : m ≠ 0) : unitsOf m ≠ 0 := by
  rw [unitsOf]
  split
  · exact h
  · rw [Nat.shiftLeft_eq]
    have : 0 < leadingBit := by decide
    exact Nat.mul_ne_zero (by omega) (Nat.two_pow_pos _).ne'

/-- All digits of a number read back. -/
theorem nearest_exactDigits (hm : m < infiniteMagnitude) (hzero : m ≠ 0) :
    Decimal.nearest (exactDigits m).1 (exactDigits m).2 = m := by
  -- The number of places is kept abstract, so that no power of it is computed.
  obtain ⟨n, hn⟩ : ∃ n : Nat, n = 1074 := ⟨_, rfl⟩
  have hexact : exactDigits m = (unitsOf m * Nat.pow 5 n, -(n : Int)) := by
    rw [exactDigits, ← hn]
    exact Prod.ext rfl (by dsimp only; omega)
  have hone : unitsPerOne = 1 <<< n := by rw [hn, unitsPerOne_eq]
  have hunits : 0 < unitsOf m := Nat.pos_of_ne_zero (unitsOf_ne_zero hzero)
  have hne : unitsOf m * Nat.pow 5 n ≠ 0 :=
    Nat.mul_ne_zero hunits.ne' (Nat.pow_pos (by decide)).ne'
  have hlog : n ≤ (unitsOf m * Nat.pow 5 n).log2 := by
    rw [Nat.le_log2 hne]
    calc 2 ^ n ≤ 5 ^ n := Nat.pow_le_pow_left (by decide) n
      _ ≤ unitsOf m * 5 ^ n := Nat.le_mul_of_pos_left _ hunits
  rw [hexact]
  dsimp only
  rw [Decimal.nearest, if_neg hne, if_neg (by omega), if_neg (by omega), if_neg (by omega)]
  rw [Int.neg_neg, Int.toNat_natCast]
  refine nearestMagnitude_eq hm (Nat.pow_pos (by decide)) ?_
  rw [hone, Nat.one_shiftLeft, Nat.mul_assoc]
  exact congrArg _ (Nat.mul_pow 5 2 n).symm

/-- The shortest digits read back. -/
theorem nearest_shortest (hm : m < infiniteMagnitude) :
    Decimal.nearest (shortest m).1 (shortest m).2 = m := by
  rw [shortest]
  split
  · rename_i hzero
    rw [hzero]
    rfl
  · rename_i hzero
    dsimp only
    cases hfind : (List.range 18).findSome? fun i : Nat =>
        atScale m (decimalPoint (unitsOf m) unitsPerOne - i) with
    | none => exact nearest_exactDigits hm hzero
    | some d =>
      obtain ⟨i, -, hi⟩ := List.exists_of_findSome?_eq_some hfind
      exact nearest_of_atScale hi

end Number

/-- A run of characters of a kind ends where another character stands. -/
theorem takeWhile_dropWhile_append {p : Char → Bool} {front rest : List Char}
    (hfront : ∀ c ∈ front, p c = true) (hrest : ∀ c ∈ rest.head?, p c = false) :
    (front ++ rest).takeWhile p = front ∧ (front ++ rest).dropWhile p = rest := by
  rw [List.takeWhile_append_of_pos hfront, List.dropWhile_append_of_pos hfront]
  cases rest with
  | nil => exact ⟨List.append_nil _, rfl⟩
  | cons c rest =>
    have hc : ¬ p c = true := ne_true_of_eq_false (hrest c rfl)
    rw [List.takeWhile_cons_of_neg hc, List.dropWhile_cons_of_neg hc, List.append_nil]
    exact ⟨rfl, rfl⟩

namespace Decimal

/-- Zeros at the end of a whole number stand for its scale. -/
theorem nearest_scaled {c : Nat} {e : Int} (he : 0 ≤ e)
    (h : nearest c e < Number.infiniteMagnitude) :
    nearest (c * Nat.pow 10 e.toNat) 0 = nearest c e := by
  have hpow : 0 < Nat.pow 10 e.toNat := Nat.pow_pos (by decide)
  by_cases hc : c = 0
  · subst hc
    rw [Nat.zero_mul, nearest, nearest, if_pos rfl, if_pos rfl]
  · have hsize : ¬ 400 < e := fun hlarge => by
      rw [nearest, if_neg hc, if_pos hlarge] at h
      exact Nat.lt_irrefl _ h
    rw [nearest, if_neg (Nat.mul_ne_zero hc hpow.ne'), if_neg (by decide), if_neg (by omega),
      if_pos (by decide), nearest, if_neg hc, if_neg hsize, if_neg (by omega), if_pos he]
    exact congrArg (nearestMagnitude · 1) (Nat.mul_one _)

/-- A decimal at the front of a text does not go on in it. -/
def Stops (rest : List Char) : Prop :=
  ∀ c ∈ rest.head?, c.isDigit = false ∧ c ≠ '.' ∧ c ≠ 'e' ∧ c ≠ 'E'

variable {rest : List Char}

theorem scanExponent_of_stops (h : Stops rest) : scanExponent rest = (0, rest) := by
  cases rest with
  | nil => rfl
  | cons c rest =>
    obtain ⟨-, -, he, hE⟩ := h c rfl
    rw [scanExponent, if_neg (not_or.mpr ⟨he, hE⟩)]

theorem scanFraction_of_stops (h : Stops rest) : scanFraction rest = ([], rest) := by
  cases rest with
  | nil => rfl
  | cons c rest =>
    obtain ⟨-, hpoint, -, -⟩ := h c rfl
    unfold scanFraction
    split
    · rename_i heq
      cases heq
      exact absurd rfl hpoint
    · rfl

theorem scanFraction_point {fraction : List Char} (hfraction : ∀ c ∈ fraction, c.isDigit = true)
    (h : Stops rest) : scanFraction ('.' :: fraction ++ rest) = (fraction, rest) := by
  obtain ⟨htake, hdrop⟩ := takeWhile_dropWhile_append hfraction fun c hc => (h c hc).1
  rw [List.cons_append, scanFraction, htake, hdrop]

/-- A decimal, split into the parts that are scanned. -/
theorem scan_of_parts {text whole fraction tail mark : List Char} {negative : Bool} {exponent : Int}
    (hsign : scanSign text = (negative, whole ++ tail)) (hne : whole ≠ [])
    (hwhole : ∀ c ∈ whole, c.isDigit = true) (htail : ∀ c ∈ tail.head?, c.isDigit = false)
    (hfraction : scanFraction tail = (fraction, mark))
    (hexponent : scanExponent mark = (exponent, rest)) :
    scan text = some (⟨negative, Nat.ofDigitChars 10 (whole ++ fraction) 0,
      exponent - fraction.length⟩, rest) := by
  obtain ⟨htake, hdrop⟩ := takeWhile_dropWhile_append hwhole htail
  have hempty : ¬ (whole ++ fraction).isEmpty = true := by
    rw [List.isEmpty_iff, List.append_eq_nil_iff]
    exact fun h => hne h.1
  unfold scan
  simp only [hsign, htake, hdrop, hfraction, if_neg hempty, hexponent]

/-- Digits without an exponent. -/
theorem scan_eq {text whole fraction tail : List Char} {negative : Bool}
    (hsign : scanSign text = (negative, whole ++ tail)) (hne : whole ≠ [])
    (hwhole : ∀ c ∈ whole, c.isDigit = true) (htail : ∀ c ∈ tail.head?, c.isDigit = false)
    (hfraction : scanFraction tail = (fraction, rest)) (hrest : Stops rest) :
    scan text = some (⟨negative, Nat.ofDigitChars 10 (whole ++ fraction) 0, -fraction.length⟩,
      rest) := by
  rw [scan_of_parts hsign hne hwhole htail hfraction (scanExponent_of_stops hrest), zero_sub]

end Decimal

namespace Number

open Decimal

variable {rest : List Char}

/-- A sign and digits, and the sign alone. -/
theorem scanSign_minus (x : Number) {digits : List Char} (hne : digits ≠ [])
    (hdigits : ∀ c ∈ digits, c.isDigit = true) :
    scanSign (x.minus ++ (digits ++ rest)) = (x.negative, digits ++ rest) := by
  obtain ⟨d, digits, rfl⟩ := List.exists_cons_of_ne_nil hne
  have hd : d.isDigit = true := hdigits d List.mem_cons_self
  rw [minus]
  cases x.negative with
  | true => rfl
  | false =>
    change scanSign (d :: (digits ++ rest)) = _
    unfold scanSign
    split
    · rename_i heq
      cases heq
      cases hd
    · rename_i heq
      cases heq
      cases hd
    · rfl

theorem isDigit_of_mem_digits {c k : Nat} {d : Char}
    (h : d ∈ Nat.toDigits 10 c ∨ d ∈ List.replicate k '0') : d.isDigit = true := by
  rcases h with h | h
  · exact Nat.isDigit_of_mem_toDigits (by decide) (by decide) h
  · rw [List.eq_of_mem_replicate h]
    rfl

/-- A whole number has zeros for its scale. -/
theorem positional_of_nonneg (c : Nat) {e : Int} (he : 0 ≤ e) : ∃ whole,
    whole ≠ [] ∧ (∀ d ∈ whole, d.isDigit = true) ∧ positional c e = whole ∧
      Nat.ofDigitChars 10 whole 0 = c * Nat.pow 10 e.toNat := by
  refine ⟨Nat.toDigits 10 c ++ List.replicate e.toNat '0', ?_, ?_, ?_, ?_⟩
  · exact fun hnil => Nat.toDigits_ne_nil (List.append_eq_nil_iff.mp hnil).1
  · exact fun d hd => isDigit_of_mem_digits (List.mem_append.mp hd)
  · rw [positional, if_pos he]
  · rw [Nat.ofDigitChars_append, Nat.ofDigitChars_ten_toDigits, Nat.ofDigitChars_replicate_zero,
      Nat.mul_comm]
    rfl

/-- Below one unit a point stands before as many digits as the scale says. -/
theorem positional_of_neg (c : Nat) {e : Int} (he : ¬ 0 ≤ e) : ∃ whole fraction,
    whole ≠ [] ∧ (∀ d ∈ whole, d.isDigit = true) ∧ (∀ d ∈ fraction, d.isDigit = true) ∧
      positional c e = whole ++ '.' :: fraction ∧
      Nat.ofDigitChars 10 (whole ++ fraction) 0 = c ∧ -(fraction.length : Int) = e := by
  unfold positional
  dsimp only
  generalize hpadded : List.replicate ((-e).toNat + 1 - (Nat.toDigits 10 c).length) '0' ++
    Nat.toDigits 10 c = padded
  have hall : ∀ d ∈ padded, d.isDigit = true := by
    subst hpadded
    exact fun d hd => isDigit_of_mem_digits (List.mem_append.mp hd).symm
  have hlength : (-e).toNat < padded.length := by
    rw [← hpadded, List.length_append, List.length_replicate]
    omega
  have hvalue : Nat.ofDigitChars 10 padded 0 = c := by
    rw [← hpadded, Nat.ofDigitChars_append, Nat.ofDigitChars_replicate_zero, Nat.mul_zero,
      Nat.ofDigitChars_ten_toDigits]
  generalize hplace : padded.length - (-e).toNat = place
  refine ⟨padded.take place, padded.drop place, ?_, fun d hd => hall d (List.mem_of_mem_take hd),
    fun d hd => hall d (List.mem_of_mem_drop hd), ?_, ?_, ?_⟩
  · intro hnil
    have := congrArg List.length hnil
    rw [List.length_take, List.length_nil] at this
    omega
  · rw [if_neg he]
  · rw [List.take_append_drop, hvalue]
  · rw [List.length_drop]
    omega

theorem scan_positional (x : Number) {c : Nat} {e : Int}
    (h : nearest c e < infiniteMagnitude) (hrest : Stops rest) :
    ∃ d : Decimal, scan (x.minus ++ positional c e ++ rest) = some (d, rest) ∧
      d.negative = x.negative ∧ nearest d.coefficient d.exponent = nearest c e := by
  by_cases he : 0 ≤ e
  · obtain ⟨whole, hne, hwhole, htext, hvalue⟩ := positional_of_nonneg c he
    rw [htext, List.append_assoc]
    refine ⟨_, scan_eq (scanSign_minus x hne hwhole) hne hwhole (fun c hc => (hrest c hc).1)
      (scanFraction_of_stops hrest) hrest, rfl, ?_⟩
    rw [List.append_nil, hvalue]
    exact nearest_scaled he h
  · obtain ⟨whole, fraction, hne, hwhole, hfraction, htext, hvalue, hexponent⟩ :=
      positional_of_neg c he
    have hpoint : ∀ c ∈ ('.' :: fraction ++ rest).head?, c.isDigit = false := by
      rintro _ ⟨⟩
      rfl
    rw [htext, List.append_assoc, List.append_assoc]
    refine ⟨_, scan_eq (scanSign_minus x hne hwhole) hne hwhole hpoint
      (scanFraction_point hfraction hrest) hrest, rfl, ?_⟩
    dsimp only
    rw [hvalue, hexponent]

theorem magnitude_ofMagnitude (negative : Bool) {m : Nat} (h : m ≤ infiniteMagnitude) :
    (ofMagnitude negative m).magnitude = m := by
  have hinfinite : infiniteMagnitude = 0x7ff0000000000000 := rfl
  have hbit : signBit = 0x8000000000000000 := rfl
  rw [magnitude, ofMagnitude, UInt64.toNat_ofNat', hbit]
  split
  · omega
  · omega

theorem ofMagnitude_magnitude (x : Number) : ofMagnitude x.negative x.magnitude = x := by
  have hbit : signBit = 0x8000000000000000 := rfl
  have hlt := x.bits.toNat_lt
  rw [ofMagnitude, magnitude, negative]
  refine Number.ext (UInt64.toNat_inj.mp ?_)
  by_cases hneg : signBit ≤ x.bits.toNat
  · rw [if_pos (decide_eq_true hneg), UInt64.toNat_ofNat']
    rw [hbit] at hneg ⊢
    omega
  · rw [if_neg (mt of_decide_eq_true hneg), UInt64.toNat_ofNat']
    rw [hbit] at hneg ⊢
    omega

theorem text_of_isFinite {x : Number} (hx : x.isFinite = true) :
    x.text = x.minus ++ positional (shortest x.magnitude).1 (shortest x.magnitude).2 := by
  have hlt : x.magnitude < infiniteMagnitude := of_decide_eq_true hx
  have hnan : ¬ x.isNaN = true := fun h => absurd (of_decide_eq_true h) (Nat.lt_asymm hlt)
  have hinfinite : ¬ x.isInfinite = true := fun h => hlt.ne (beq_iff_eq.mp h)
  rw [text, if_neg hnan, if_neg hinfinite]

/-- The text of a finite number starts with a sign or a digit. -/
theorem exists_text_eq_cons {x : Number} (hx : x.isFinite = true) :
    ∃ c cs, x.text = c :: cs ∧ (c = '-' ∨ c.isDigit = true) := by
  rw [text_of_isFinite hx, minus]
  split
  · exact ⟨'-', _, rfl, .inl rfl⟩
  · have hdigits : ∃ whole tail, whole ≠ [] ∧ (∀ d ∈ whole, d.isDigit = true) ∧
        positional (shortest x.magnitude).1 (shortest x.magnitude).2 = whole ++ tail := by
      by_cases he : 0 ≤ (shortest x.magnitude).2
      · obtain ⟨whole, hne, hwhole, htext, -⟩ := positional_of_nonneg (shortest x.magnitude).1 he
        exact ⟨whole, [], hne, hwhole, htext.trans (List.append_nil _).symm⟩
      · obtain ⟨whole, fraction, hne, hwhole, -, htext, -⟩ :=
          positional_of_neg (shortest x.magnitude).1 he
        exact ⟨whole, '.' :: fraction, hne, hwhole, htext⟩
    obtain ⟨whole, tail, hne, hwhole, htext⟩ := hdigits
    obtain ⟨c, cs, rfl⟩ := List.exists_cons_of_ne_nil hne
    exact ⟨c, cs ++ tail, htext, .inr (hwhole c List.mem_cons_self)⟩

/-- The text of a finite number reads back, in front of anything but more digits. -/
theorem exists_scan_text {x : Number} (hx : x.isFinite = true) (hrest : Stops rest) :
    ∃ d, scan (x.text ++ rest) = some (d, rest) ∧ d.toNumber = x := by
  have hlt : x.magnitude < infiniteMagnitude := of_decide_eq_true hx
  have hnearest := nearest_shortest hlt
  obtain ⟨d, hscan, hnegative, hd⟩ := scan_positional x (hnearest.symm ▸ hlt) hrest
  refine ⟨d, ?_, ?_⟩
  · rw [text_of_isFinite hx, hscan]
  · rw [Decimal.toNumber, hd, hnearest, hnegative, ofMagnitude_magnitude]

end Number

end DiffAnalyzer
