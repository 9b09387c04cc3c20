import DiffAnalyzer.Proofs.NumberText
import Mathlib

/-!
# Literals of generated programs

In a generated program a finite number has a point or an exponent.  Its literal is a sign, a
digit, more digits with at most one point, and perhaps an exponent
(`Number.exists_sourceText_eq`), and it reads back as the number (`Number.ofText?_sourceText`).
-/

namespace DiffAnalyzer

theorem roundHalfEven_mul_mul (num den : Nat) {k : Nat} (hk : 0 < k) :
    roundHalfEven (num * k) (den * k) = roundHalfEven num den := by
  have hrest : 2 * (num % den * k) = 2 * (num % den) * k := by rw [Nat.mul_assoc]
  simp only [roundHalfEven, Nat.mul_div_mul_right _ _ hk, Nat.mul_mod_mul_right, hrest,
    Nat.mul_lt_mul_right hk]

/-- A fraction may be expanded. -/
theorem nearestMagnitude_mul_mul (num den : Nat) {k : Nat} (hk : 0 < k) :
    nearestMagnitude (num * k) (den * k) = nearestMagnitude num den := by
  have hscaled : num * k * Number.unitsPerOne = num * Number.unitsPerOne * k :=
    Nat.mul_right_comm _ _ _
  have hshift : ∀ shift, (den * k) <<< shift = den <<< shift * k := fun shift => by
    rw [Nat.shiftLeft_eq, Nat.shiftLeft_eq, Nat.mul_right_comm]
  simp only [nearestMagnitude, hscaled, hshift, Nat.mul_div_mul_right _ _ hk,
    roundHalfEven_mul_mul _ _ hk]

namespace Decimal

/-- A zero behind the point adds nothing. -/
theorem nearest_tenfold (c : Nat) : nearest (c * 10) (-1) = nearest c 0 := by
  by_cases hc : c = 0
  · rw [hc]
    rfl
  · rw [nearest, nearest, if_neg (by omega), if_neg (by omega), if_neg (by omega),
      if_neg (by omega), if_neg hc, if_neg (by omega), if_neg (by omega), if_pos (by omega)]
    show nearestMagnitude (c * 10) 10 = nearestMagnitude (c * 1) 1
    rw [Nat.mul_one, ← nearestMagnitude_mul_mul c 1 (k := 10) (by omega)]

theorem scanExponent_mark {digits : List Char} (hne : digits ≠ [])
    (hdigits : ∀ c ∈ digits, c.isDigit = true) :
    scanExponent ('e' :: digits) = ((Nat.ofDigitChars 10 digits 0 : Int), []) ∧
      scanExponent ('e' :: '-' :: digits) = (-(Nat.ofDigitChars 10 digits 0 : Int), []) := by
  have htake : digits.takeWhile Char.isDigit = digits := by simpa using hdigits
  have hdrop : digits.dropWhile Char.isDigit = [] := by simpa using hdigits
  have hsign : scanSign digits = (false, digits) := by
    obtain ⟨d, digits, rfl⟩ := List.exists_cons_of_ne_nil hne
    have hd := hdigits d List.mem_cons_self
    unfold scanSign
    split
    · rename_i heq
      cases heq
      cases hd
    · rename_i heq
      cases heq
      cases hd
    · rfl
  constructor
  · simp [scanExponent, hsign, htake, hdrop, hne]
  · simp [scanExponent, scanSign, htake, hdrop, hne]

end Decimal

namespace Number

open Decimal

variable {x : Number}

/-- The shortest digits of a number with their scale. -/
theorem sourceText_of_isFinite (hx : x.isFinite = true) :
    x.sourceText = x.minus ++ scientific (shortest x.magnitude).1 (shortest x.magnitude).2 ∨
      0 ≤ (shortest x.magnitude).2 ∧ x.sourceText =
        x.minus ++ (positional (shortest x.magnitude).1 (shortest x.magnitude).2 ++ ['.', '0']) ∨
      ¬0 ≤ (shortest x.magnitude).2 ∧ x.sourceText =
        x.minus ++ positional (shortest x.magnitude).1 (shortest x.magnitude).2 := by
  have hlt : x.magnitude < infiniteMagnitude := of_decide_eq_true hx
  have hnan : ¬x.isNaN = true := fun h => absurd (of_decide_eq_true h) (Nat.lt_asymm hlt)
  have hinfinite : ¬x.isInfinite = true := fun h => hlt.ne (beq_iff_eq.mp h)
  rw [sourceText, if_neg hnan, if_neg hinfinite]
  dsimp only
  split
  · exact .inl rfl
  · split
    · rename_i he
      exact .inr (.inl ⟨he, by simp⟩)
    · rename_i he
      exact .inr (.inr ⟨he, by simp⟩)

/-- One digit, the others behind a point, and the exponent. -/
theorem exists_scientific_eq (c : Nat) (e : Int) : ∃ d fraction,
    Nat.toDigits 10 c = d :: fraction ∧ scientific c e =
      d :: ((if fraction = [] then [] else '.' :: fraction) ++
        'e' :: ((if e + fraction.length < 0 then ['-'] else []) ++
          Nat.toDigits 10 (e + fraction.length).natAbs)) := by
  obtain ⟨d, fraction, hdigits⟩ :=
    List.exists_cons_of_ne_nil (Nat.toDigits_ne_nil (b := 10) (n := c))
  refine ⟨d, fraction, hdigits, ?_⟩
  simp [scientific, hdigits]

theorem isDigit_of_mem_toDigits {n : Nat} {d : Char} (h : d ∈ Nat.toDigits 10 n) :
    d.isDigit = true :=
  isDigit_of_mem_digits (k := 0) (.inl h)

/-- A sign, a digit, digits with points, and perhaps an exponent. -/
theorem exists_sourceText_eq (hx : x.isFinite = true) : ∃ d front back,
    x.sourceText = x.minus ++ d :: (front ++ back) ∧ d.isDigit = true ∧
      (∀ c ∈ front, c.isDigit = true ∨ c = '.') ∧
      (back = [] ∨ ∃ power, (∀ c ∈ power, c.isDigit = true) ∧
        (back = 'e' :: power ∨ back = 'e' :: '-' :: power)) := by
  rcases sourceText_of_isFinite hx with h | ⟨he, h⟩ | ⟨he, h⟩
  · obtain ⟨d, fraction, hdigits, htext⟩ :=
      exists_scientific_eq (shortest x.magnitude).1 (shortest x.magnitude).2
    have hall := hdigits ▸ fun c => isDigit_of_mem_toDigits (n := (shortest x.magnitude).1) (d := c)
    obtain ⟨hd, hfraction⟩ := List.forall_mem_cons.mp hall
    refine ⟨d, _, _, h.trans (congrArg _ htext), hd, ?_,
      .inr ⟨Nat.toDigits 10 ((shortest x.magnitude).2 + fraction.length).natAbs,
        fun c hc => isDigit_of_mem_toDigits hc, ?_⟩⟩
    · intro c hc
      split at hc
      · cases hc
      · exact (List.mem_cons.mp hc).symm.imp_left (hfraction c)
    · split
      · exact .inr rfl
      · exact .inl rfl
  · obtain ⟨whole, hne, hwhole, htext, -⟩ := positional_of_nonneg (shortest x.magnitude).1 he
    obtain ⟨d, whole, rfl⟩ := List.exists_cons_of_ne_nil hne
    obtain ⟨hd, hwhole⟩ := List.forall_mem_cons.mp hwhole
    refine ⟨d, whole ++ ['.', '0'], [], by simp [h, htext], hd, fun c hc => ?_, .inl rfl⟩
    simp only [List.mem_append, List.mem_cons, List.not_mem_nil, or_false] at hc
    rcases hc with hc | rfl | rfl
    · exact .inl (hwhole c hc)
    · exact .inr rfl
    · exact .inl rfl
  · obtain ⟨whole, fraction, hne, hwhole, hfraction, htext, -⟩ :=
      positional_of_neg (shortest x.magnitude).1 he
    obtain ⟨d, whole, rfl⟩ := List.exists_cons_of_ne_nil hne
    obtain ⟨hd, hwhole⟩ := List.forall_mem_cons.mp hwhole
    refine ⟨d, whole ++ '.' :: fraction, [], by simp [h, htext], hd, fun c hc => ?_, .inl rfl⟩
    simp only [List.mem_append, List.mem_cons] at hc
    rcases hc with hc | rfl | hc
    · exact .inl (hwhole c hc)
    · exact .inr rfl
    · exact .inl (hfraction c hc)

/-- The digits with an exponent are those without. -/
theorem scan_scientific (x : Number) (c : Nat) (e : Int) :
    scan (x.minus ++ scientific c e) = some (⟨x.negative, c, e⟩, []) := by
  obtain ⟨d, fraction, hdigits, htext⟩ := exists_scientific_eq c e
  have hall := hdigits ▸ fun b => isDigit_of_mem_toDigits (n := c) (d := b)
  obtain ⟨hd, hfraction⟩ := List.forall_mem_cons.mp hall
  obtain ⟨mark, hmark⟩ : ∃ mark, mark =
    'e' :: ((if e + fraction.length < 0 then ['-'] else []) ++
      Nat.toDigits 10 (e + fraction.length).natAbs) := ⟨_, rfl⟩
  have hexponent : scanExponent mark = (e + fraction.length, []) := by
    obtain ⟨hplus, hminus⟩ := scanExponent_mark (Nat.toDigits_ne_nil (b := 10))
      fun b => isDigit_of_mem_toDigits (n := (e + fraction.length).natAbs) (d := b)
    rw [Nat.ofDigitChars_ten_toDigits] at hplus hminus
    rw [hmark]
    split
    · rw [List.singleton_append, hminus]
      exact Prod.ext (by dsimp only; omega) rfl
    · rw [List.nil_append, hplus]
      exact Prod.ext (by dsimp only; omega) rfl
  have hhead : ∀ b ∈ mark.head?, b.isDigit = false := by
    rw [hmark]
    rintro _ ⟨⟩
    rfl
  have hscan : scanFraction ((if fraction = [] then [] else '.' :: fraction) ++ mark) =
      (fraction, mark) := by
    rw [hmark]
    split
    · rename_i hnil
      rw [hnil]
      rfl
    · obtain ⟨htake, hdrop⟩ := takeWhile_dropWhile_append hfraction hhead
      rw [List.cons_append, scanFraction, ← hmark, htake, hdrop]
  have hvalue : Nat.ofDigitChars 10 ([d] ++ fraction) 0 = c := by
    rw [List.singleton_append, ← hdigits, Nat.ofDigitChars_ten_toDigits]
  have hone : ∀ b ∈ [d], b.isDigit = true := List.forall_mem_singleton.mpr hd
  have hsign : scanSign (x.minus ++ ([d] ++ ((if fraction = [] then [] else '.' :: fraction) ++
      mark))) = (x.negative, [d] ++ ((if fraction = [] then [] else '.' :: fraction) ++ mark)) :=
    scanSign_minus x (List.cons_ne_nil d []) hone
  rw [htext, ← hmark]
  refine (scan_of_parts hsign (List.cons_ne_nil d []) hone ?_ hscan hexponent).trans ?_
  · split
    · exact hhead
    · rintro _ ⟨⟩
      rfl
  · rw [hvalue, Int.add_sub_cancel]

/-- Digits with a zero behind the point. -/
theorem scan_positional_point (x : Number) {c : Nat} {e : Int} (he : 0 ≤ e)
    (h : nearest c e < infiniteMagnitude) : ∃ d : Decimal,
      scan (x.minus ++ (positional c e ++ ['.', '0'])) = some (d, []) ∧ d.negative = x.negative ∧
        nearest d.coefficient d.exponent = nearest c e := by
  obtain ⟨whole, hne, hwhole, htext, hvalue⟩ := positional_of_nonneg c he
  have hpoint : ∀ c ∈ ['.', '0'].head?, c.isDigit = false := by simp
  have hfraction : scanFraction ['.', '0'] = (['0'], []) := rfl
  rw [htext]
  refine ⟨_, scan_of_parts (scanSign_minus x hne hwhole) hne hwhole hpoint hfraction rfl, rfl, ?_⟩
  have htenfold : Nat.ofDigitChars 10 (whole ++ ['0']) 0 = c * Nat.pow 10 e.toNat * 10 := by
    have hzero : ['0'] = List.replicate 1 '0' := rfl
    rw [Nat.ofDigitChars_append, hvalue, hzero, Nat.ofDigitChars_replicate_zero, Nat.mul_comm,
      Nat.pow_one]
  dsimp only
  rw [htenfold]
  exact (nearest_tenfold _).trans (nearest_scaled he h)

/-- The literal of a finite number reads back. -/
theorem ofText?_sourceText (hx : x.isFinite = true) : ofText? x.sourceText = some x := by
  have hlt : x.magnitude < infiniteMagnitude := of_decide_eq_true hx
  have hnearest := nearest_shortest hlt
  have hscan : ∃ d, scan x.sourceText = some (d, []) ∧ d.negative = x.negative ∧
      nearest d.coefficient d.exponent = x.magnitude := by
    rcases sourceText_of_isFinite hx with h | ⟨he, h⟩ | ⟨-, h⟩
    · exact ⟨_, h ▸ scan_scientific x _ _, rfl, hnearest⟩
    · obtain ⟨d, hd, hnegative, hvalue⟩ := scan_positional_point x he (hnearest.symm ▸ hlt)
      exact ⟨d, h ▸ hd, hnegative, hvalue.trans hnearest⟩
    · have hstops : Stops [] := fun c hc => nomatch hc
      obtain ⟨d, hd, hnegative, hvalue⟩ := scan_positional x (hnearest.symm ▸ hlt) hstops
      rw [List.append_nil] at hd
      exact ⟨d, h ▸ hd, hnegative, hvalue.trans hnearest⟩
  obtain ⟨d, hd, hnegative, hvalue⟩ := hscan
  rw [ofText?, hd]
  show some d.toNumber = some x
  rw [Decimal.toNumber, hvalue, hnegative, ofMagnitude_magnitude]

end Number

end DiffAnalyzer
