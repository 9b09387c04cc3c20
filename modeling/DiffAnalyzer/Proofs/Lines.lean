import DiffAnalyzer.Proofs.RoundTrip
import Mathlib

/-!
# Circuits line by line

No rule of the grammar but the gaps between definitions reads past a line feed
(`Recognizer.IsLocal`).  So the definitions of texts that are joined by line feeds are those
of each text in turn (`Grammar.spells_append_iff`), whatever the texts end with.
-/

namespace DiffAnalyzer

namespace Recognizer

variable {α β : Type} {x x' y : Recognizer α} {f g : α → Recognizer β} {text : List Char}

theorem result_bind_congr (hx : (x text).result = (x' text).result)
    (h : ∀ a rest, (x text).result = some (a, rest) → (f a rest).result = (g a rest).result) :
    ((x >>= f) text).result = ((x' >>= g) text).result := by
  rw [result_bind, result_bind, ← hx]
  cases hresult : (x text).result with
  | none => rfl
  | some r => exact h r.1 r.2 hresult

/-- The text behind a line feed is left as it is. -/
def IsLocal (x : Recognizer α) : Prop := ∀ front behind,
  (x (front ++ '\n' :: behind)).result =
    (x front).result.map fun r => (r.1, r.2 ++ '\n' :: behind)

/-- What is left is no longer than the text. -/
def Shrinks (x : Recognizer α) : Prop := ∀ text r,
  (x text).result = some r → r.2.length ≤ text.length

/-- What is left is shorter than the text. -/
def Consumes (x : Recognizer α) : Prop := ∀ text r,
  (x text).result = some r → r.2.length < text.length

namespace IsLocal

theorem pure (a : α) : IsLocal (pure a) := fun _ _ => rfl

theorem refuse : IsLocal (refuse : Recognizer α) := fun _ _ => rfl

theorem bind (hx : IsLocal x) (hf : ∀ a, IsLocal (f a)) : IsLocal (x >>= f) := by
  intro front behind
  rw [result_bind, result_bind, hx front behind]
  cases (x front).result with
  | none => rfl
  | some r => exact hf r.1 r.2 behind

theorem orElse (hx : IsLocal x) (hy : IsLocal y) : IsLocal (x <|> y) := by
  intro front behind
  change ((OrElse.orElse x fun _ => y) _).result = ((OrElse.orElse x fun _ => y) _).result.map _
  rw [result_orElse, result_orElse, hx front behind, hy front behind, Option.map_or]

theorem attempt (rule : Rule) (hx : IsLocal x) : IsLocal (attempt rule x) := hx

theorem oneOf {p : Char → Bool} (hp : p '\n' = false) : IsLocal (oneOf p) := by
  intro front behind
  cases front with
  | nil =>
    change (if p '\n' then some ((), behind) else none) = none
    rw [if_neg (by simp [hp])]
  | cons c front =>
    change (if p c then some ((), front ++ '\n' :: behind) else none) =
      (if p c then some ((), front) else none).map _
    split <;> rfl

end IsLocal

namespace Shrinks

theorem pure (a : α) : Shrinks (pure a) := by
  rintro text _ ⟨⟩
  exact Nat.le_refl _

theorem bind (hx : Shrinks x) (hf : ∀ a, Shrinks (f a)) : Shrinks (x >>= f) := by
  intro text r h
  rw [result_bind] at h
  obtain ⟨s, hs, h⟩ := Option.bind_eq_some_iff.mp h
  exact (hf s.1 s.2 r h).trans (hx text s hs)

theorem orElse (hx : Shrinks x) (hy : Shrinks y) : Shrinks (x <|> y) := by
  intro text r h
  change ((OrElse.orElse x fun _ => y) text).result = some r at h
  rw [result_orElse, Option.or_eq_some_iff] at h
  rcases h with h | ⟨-, h⟩
  · exact hx text r h
  · exact hy text r h

theorem attempt (rule : Rule) (hx : Shrinks x) : Shrinks (attempt rule x) := hx

end Shrinks

namespace Consumes

theorem shrinks (hx : Consumes x) : Shrinks x := fun text r h => (hx text r h).le

theorem oneOf (p : Char → Bool) : Consumes (oneOf p) := by
  intro text r h
  cases text with
  | nil => cases h
  | cons c rest =>
    change (if p c then some ((), rest) else none) = some r at h
    split at h
    · cases h
      exact Nat.lt_succ_self _
    · cases h

theorem bind (hx : Consumes x) (hf : ∀ a, Shrinks (f a)) : Consumes (x >>= f) := by
  intro text r h
  rw [result_bind] at h
  obtain ⟨s, hs, h⟩ := Option.bind_eq_some_iff.mp h
  exact (hf s.1 s.2 r h).trans_lt (hx text s hs)

theorem of_shrinks_bind (hx : Shrinks x) (hf : ∀ a, Consumes (f a)) : Consumes (x >>= f) := by
  intro text r h
  rw [result_bind] at h
  obtain ⟨s, hs, h⟩ := Option.bind_eq_some_iff.mp h
  exact (hf s.1 s.2 r h).trans_le (hx text s hs)

end Consumes

end Recognizer

/-- A run of characters ends where the text goes on with one that does not belong to it. -/
theorem takeWhile_dropWhile_of_head? {p : Char → Bool} (front : List Char) {behind : List Char}
    (hbehind : ∀ c ∈ behind.head?, p c = false) :
    (front ++ behind).takeWhile p = front.takeWhile p ∧
      (front ++ behind).dropWhile p = front.dropWhile p ++ behind := by
  induction front with
  | nil =>
    cases behind with
    | nil => exact ⟨rfl, rfl⟩
    | cons c behind => simp [hbehind c rfl]
  | cons c front ih =>
    rw [List.cons_append, List.takeWhile_cons, List.dropWhile_cons, List.takeWhile_cons,
      List.dropWhile_cons]
    split
    · exact ⟨congrArg (c :: ·) ih.1, ih.2⟩
    · exact ⟨rfl, rfl⟩

namespace Decimal

/-- The characters that decimals are made up of. -/
def isNumeral (c : Char) : Bool :=
  c.isDigit || c == '-' || c == '+' || c == '.' || c == 'e' || c == 'E'

variable {front behind : List Char} (hbehind : ∀ c ∈ behind.head?, isNumeral c = false)

include hbehind

theorem stops_of_head? : Stops behind := by
  intro c hc
  have h := hbehind c hc
  simp only [isNumeral, Bool.or_eq_false_iff, beq_eq_false_iff_ne] at h
  exact ⟨h.1.1.1.1.1, h.1.1.2, h.1.2, h.2⟩

theorem scanSign_append : scanSign (front ++ behind) =
    ((scanSign front).1, (scanSign front).2 ++ behind) := by
  have hother : ∀ c text, c ≠ '-' → c ≠ '+' → scanSign (c :: text) = (false, c :: text) := by
    intro c text hminus hplus
    simp [scanSign, hminus, hplus]
  cases front with
  | nil =>
    cases behind with
    | nil => rfl
    | cons c behind =>
      have h := hbehind c rfl
      simp only [isNumeral, Bool.or_eq_false_iff, beq_eq_false_iff_ne] at h
      exact hother c behind h.1.1.1.1.2 h.1.1.1.2
  | cons c front =>
    by_cases hminus : c = '-'
    · rw [hminus]
      rfl
    · by_cases hplus : c = '+'
      · rw [hplus]
        rfl
      · rw [List.cons_append, hother c _ hminus hplus, hother c _ hminus hplus]
        rfl

theorem scanFraction_append : scanFraction (front ++ behind) =
    ((scanFraction front).1, (scanFraction front).2 ++ behind) := by
  cases front with
  | nil => exact scanFraction_of_stops (stops_of_head? hbehind)
  | cons c front =>
    by_cases hpoint : c = '.'
    · obtain ⟨htake, hdrop⟩ :=
        takeWhile_dropWhile_of_head? front fun c hc => (stops_of_head? hbehind c hc).1
      rw [hpoint]
      exact Prod.ext htake hdrop
    · simp [scanFraction, hpoint]

theorem scanExponent_append : scanExponent (front ++ behind) =
    ((scanExponent front).1, (scanExponent front).2 ++ behind) := by
  cases front with
  | nil => exact scanExponent_of_stops (stops_of_head? hbehind)
  | cons c front =>
    obtain ⟨htake, hdrop⟩ :=
      takeWhile_dropWhile_of_head? (scanSign front).2 fun c hc => (stops_of_head? hbehind c hc).1
    rw [List.cons_append, scanExponent, scanExponent]
    simp only [scanSign_append hbehind, htake, hdrop]
    split
    · split <;> rfl
    · rfl

/-- A decimal ends where the text goes on with what cannot belong to it. -/
theorem scan_append : scan (front ++ behind) =
    (scan front).map fun r => (r.1, r.2 ++ behind) := by
  obtain ⟨htake, hdrop⟩ :=
    takeWhile_dropWhile_of_head? (scanSign front).2 fun c hc => (stops_of_head? hbehind c hc).1
  rw [scan, scan]
  simp only [scanSign_append hbehind, htake, hdrop, scanFraction_append hbehind,
    scanExponent_append hbehind]
  split <;> rfl

omit hbehind

/-- The rest of a text behind some characters of a decimal. -/
def Leaves (text rest : List Char) : Prop :=
  ∃ front, text = front ++ rest ∧ ∀ c ∈ front, isNumeral c = true

namespace Leaves

variable {text rest rest' : List Char}

theorem refl (text : List Char) : Leaves text text := ⟨[], rfl, nofun⟩

theorem cons {c : Char} (hc : isNumeral c = true) (h : Leaves text rest) :
    Leaves (c :: text) rest := by
  obtain ⟨front, rfl, hfront⟩ := h
  exact ⟨c :: front, rfl, List.forall_mem_cons.mpr ⟨hc, hfront⟩⟩

theorem trans (h : Leaves text rest) (h' : Leaves rest rest') : Leaves text rest' := by
  obtain ⟨front, rfl, hfront⟩ := h
  obtain ⟨front', rfl, hfront'⟩ := h'
  exact ⟨front ++ front', (List.append_assoc _ _ _).symm,
    List.forall_mem_append.mpr ⟨hfront, hfront'⟩⟩

theorem length_le (h : Leaves text rest) : rest.length ≤ text.length := by
  obtain ⟨front, rfl, -⟩ := h
  rw [List.length_append]
  exact Nat.le_add_left _ _

theorem digits (text : List Char) : Leaves text (text.dropWhile Char.isDigit) := by
  refine ⟨text.takeWhile Char.isDigit, List.takeWhile_append_dropWhile.symm, fun c hc => ?_⟩
  have hdigit : c.isDigit = true := List.mem_takeWhile_imp hc
  simp [isNumeral, hdigit]

theorem scanSign (text : List Char) : Leaves text (scanSign text).2 := by
  unfold Decimal.scanSign
  split
  · exact .cons (by decide) (.refl _)
  · exact .cons (by decide) (.refl _)
  · exact .refl _

theorem scanFraction (text : List Char) : Leaves text (scanFraction text).2 := by
  unfold Decimal.scanFraction
  split
  · exact .cons (by decide) (.digits _)
  · exact .refl _

theorem scanExponent (text : List Char) : Leaves text (scanExponent text).2 := by
  cases text with
  | nil => exact .refl _
  | cons c text =>
    rw [Decimal.scanExponent]
    split
    · rename_i hmark
      have hc : isNumeral c = true := by
        rcases hmark with rfl | rfl <;> decide
      dsimp only
      split
      · exact .refl _
      · exact .cons hc ((Leaves.scanSign text).trans (.digits _))
    · exact .refl _

end Leaves

theorem length_scanFraction_lt {text : List Char} (h : (scanFraction text).1 ≠ []) :
    (scanFraction text).2.length < text.length := by
  unfold scanFraction at h ⊢
  split at h
  · exact Nat.lt_succ_of_le (List.length_dropWhile_le _ _)
  · exact absurd rfl h

/-- A decimal is some characters at the front of a text, and one at least. -/
theorem leaves_scan {text rest : List Char} {d : Decimal} (h : scan text = some (d, rest)) :
    Leaves text rest ∧ rest.length < text.length := by
  have hsign := Leaves.scanSign text
  have hwhole := Leaves.digits (scanSign text).2
  have hfraction := Leaves.scanFraction ((scanSign text).2.dropWhile Char.isDigit)
  have hexponent := Leaves.scanExponent
    (scanFraction ((scanSign text).2.dropWhile Char.isDigit)).2
  rw [scan] at h
  dsimp only at h
  split at h
  · cases h
  · rename_i hdigits
    cases h
    refine ⟨((hsign.trans hwhole).trans hfraction).trans hexponent, ?_⟩
    have hcount := congrArg List.length
      (List.takeWhile_append_dropWhile (p := Char.isDigit) (l := (scanSign text).2))
    rw [List.length_append] at hcount
    have hsign := hsign.length_le
    have hfraction := hfraction.length_le
    refine hexponent.length_le.trans_lt ?_
    by_cases hwhole : (scanSign text).2.takeWhile Char.isDigit = []
    · rw [hwhole, List.nil_append, List.isEmpty_iff] at hdigits
      have hshort := length_scanFraction_lt hdigits
      omega
    · have hpos := List.length_pos_of_ne_nil hwhole
      omega

end Decimal

namespace Grammar

open Recognizer

variable {text front behind : List Char}

section Layout

/-- Layout ends at a line feed or goes on over it, also from within a comment. -/
theorem dropLayout_lineFeed (also : Char → Bool) (comment : Bool) (front behind : List Char) :
    dropLayout also comment (front ++ '\n' :: behind) =
      if dropLayout also comment front = [] then dropLayout also false ('\n' :: behind)
      else dropLayout also comment front ++ '\n' :: behind := by
  fun_induction dropLayout also comment front with
  | case1 comment =>
    cases comment with
    | true => cases h : also '\n' <;> simp [dropLayout, isBlank, h]
    | false => rfl
  | case2 c rest h ih => rwa [List.cons_append, dropLayout, if_pos h]
  | case3 c rest h hfeed =>
    rw [List.cons_append, dropLayout, if_neg h, if_pos hfeed]
    rfl
  | case4 c rest h hfeed ih => rwa [List.cons_append, dropLayout, if_neg h, if_neg hfeed]
  | case5 c rest h ih => rwa [List.cons_append, dropLayout, if_pos h]
  | case6 c rest h hcomment ih => rwa [List.cons_append, dropLayout, if_neg h, if_pos hcomment]
  | case7 c rest h hcomment =>
    rw [List.cons_append, dropLayout, if_neg h, if_neg hcomment]
    rfl

theorem length_dropLayout_le (also : Char → Bool) (comment : Bool) (text : List Char) :
    (dropLayout also comment text).length ≤ text.length := by
  fun_induction dropLayout also comment text with
  | case1 => exact Nat.le_refl _
  | case2 _ _ _ ih => exact ih.trans (Nat.le_succ _)
  | case3 => exact Nat.le_refl _
  | case4 _ _ _ _ ih => exact ih.trans (Nat.le_succ _)
  | case5 _ _ _ ih => exact ih.trans (Nat.le_succ _)
  | case6 _ _ _ _ ih => exact ih.trans (Nat.le_succ _)
  | case7 => exact Nat.le_refl _

/-- Behind layout there is something else. -/
theorem startsPlain_dropLayout (also : Char → Bool) (comment : Bool) (text : List Char) :
    StartsPlain also (dropLayout also comment text) := by
  fun_induction dropLayout also comment text with
  | case1 => exact nofun
  | case2 _ _ _ ih => exact ih
  | case3 c rest h hfeed =>
    obtain rfl := beq_iff_eq.mp hfeed
    exact startsPlain_cons ⟨rfl, by simpa using h, by decide⟩
  | case4 _ _ _ _ ih => exact ih
  | case5 _ _ _ ih => exact ih
  | case6 _ _ _ _ ih => exact ih
  | case7 c rest h hcomment =>
    rw [Bool.not_eq_true, Bool.or_eq_false_iff] at h
    exact startsPlain_cons ⟨h.1, h.2, by simpa using hcomment⟩

/-- A gap goes on from where layout ends. -/
theorem dropLayout_dropLayout (comment : Bool) (text : List Char) :
    dropLayout isSeparator false (dropLayout (fun _ => false) comment text) =
      dropLayout isSeparator comment text := by
  fun_induction dropLayout (fun _ => false) comment text with
  | case1 comment => cases comment <;> rfl
  | case2 c rest h ih =>
    obtain rfl : c = '\r' := by simpa using h
    exact ih
  | case3 c rest h hfeed =>
    obtain rfl := beq_iff_eq.mp hfeed
    rfl
  | case4 c rest h hfeed ih =>
    rw [ih, dropLayout, if_neg (by simpa [hfeed] using h), if_neg hfeed]
  | case5 c rest h ih =>
    rw [Bool.or_false] at h
    rw [ih, dropLayout, if_pos (by rw [h, Bool.true_or])]
  | case6 c rest h hcomment ih =>
    obtain rfl := beq_iff_eq.mp hcomment
    exact ih
  | case7 => rfl

end Layout

section Rules

theorem isLocal_layout : IsLocal layout := by
  intro front behind
  change some ((), dropLayout _ false (front ++ '\n' :: behind)) =
    some ((), dropLayout _ false front ++ '\n' :: behind)
  rw [dropLayout_lineFeed]
  split
  · rename_i hnil
    rw [hnil]
    rfl
  · rfl

theorem isLocal_delimiter {c : Char} (hc : c ≠ '\n') : IsLocal (delimiter c) :=
  isLocal_layout.bind fun _ => (IsLocal.oneOf (by simpa using hc.symm)).bind fun _ => isLocal_layout

theorem isNameStart_eq_false {c : Char} (h : isNamePart c = false) : isNameStart c = false := by
  simp only [isNamePart, Char.isAlphanum, Bool.or_eq_false_iff] at h
  rw [isNameStart, h.1.1.1.1, h.1.1.2]
  rfl

theorem scanIdentifier_eq_none {c : Char} (h : isNameStart c = false) (rest : List Char) :
    scanIdentifier (c :: rest) = none := by
  rw [scanIdentifier, dif_neg (ne_true_of_eq_false h)]

/-- A name ends where the text goes on with what cannot belong to it. -/
theorem scanIdentifier_append_of_head? (hbehind : ∀ c ∈ behind.head?, isNamePart c = false) :
    scanIdentifier (front ++ behind) =
      (scanIdentifier front).map fun r => (r.1, r.2 ++ behind) := by
  cases front with
  | nil =>
    cases behind with
    | nil => rfl
    | cons c behind => exact scanIdentifier_eq_none (isNameStart_eq_false (hbehind c rfl)) behind
  | cons c front =>
    obtain ⟨htake, hdrop⟩ := takeWhile_dropWhile_of_head? front hbehind
    rw [List.cons_append, scanIdentifier, scanIdentifier]
    simp only [htake, hdrop]
    split <;> rfl

theorem isLocal_identifier : IsLocal identifier := by
  intro front behind
  refine scanIdentifier_append_of_head? ?_
  rintro _ ⟨⟩
  decide

theorem isLocal_number : IsLocal number := by
  intro front behind
  have hfeed : ∀ c ∈ ('\n' :: behind).head?, Decimal.isNumeral c = false := by
    rintro _ ⟨⟩
    decide
  change (Decimal.scan (front ++ '\n' :: behind)).map _ = ((Decimal.scan front).map _).map _
  rw [Decimal.scan_append hfeed, Option.map_map, Option.map_map]
  rfl

theorem isLocal_reference : IsLocal reference := isLocal_identifier.bind fun _ => .pure _

theorem isLocal_expression (depth : Nat) :
    IsLocal (expression depth) ∧ IsLocal (arguments depth) := by
  induction depth with
  | zero => exact ⟨.refuse, .pure _⟩
  | succ depth ih =>
    constructor
    · rw [expression]
      refine .orElse ?_ (.orElse isLocal_reference isLocal_number)
      refine isLocal_identifier.bind fun head => ?_
      refine (isLocal_delimiter (by decide)).bind fun _ => ih.1.bind fun first => ?_
      refine ih.2.bind fun rest => isLocal_layout.bind fun _ => ?_
      exact (IsLocal.oneOf (by decide)).bind fun _ => .pure _
    · rw [arguments]
      refine .orElse ?_ (.pure _)
      refine (isLocal_delimiter (by decide)).bind fun _ => ih.1.bind fun argument => ?_
      exact ih.2.bind fun rest => .pure _

theorem shrinks_layout : Shrinks layout := by
  rintro text _ ⟨⟩
  exact length_dropLayout_le _ _ _

theorem consumes_delimiter (c : Char) : Consumes (delimiter c) :=
  .of_shrinks_bind shrinks_layout fun _ => (Consumes.oneOf _).bind fun _ => shrinks_layout

theorem shrinks_identifier : Shrinks identifier := by
  intro text r h
  change scanIdentifier text = some r at h
  cases text with
  | nil => cases h
  | cons c text =>
    rw [scanIdentifier] at h
    split at h
    · cases h
      exact (List.length_dropWhile_le _ _).trans (Nat.le_succ _)
    · cases h

theorem shrinks_number : Shrinks number := by
  intro text r h
  obtain ⟨s, hs, rfl⟩ := Option.map_eq_some_iff.mp h
  exact (Decimal.leaves_scan hs).1.length_le

theorem shrinks_expression (depth : Nat) :
    Shrinks (expression depth) ∧ Shrinks (arguments depth) := by
  induction depth with
  | zero => exact ⟨nofun, .pure _⟩
  | succ depth ih =>
    constructor
    · rw [expression]
      refine .orElse ?_ (.orElse (shrinks_identifier.bind fun _ => .pure _) shrinks_number)
      refine shrinks_identifier.bind fun head => ?_
      refine (consumes_delimiter '(').shrinks.bind fun _ => ih.1.bind fun first => ?_
      refine ih.2.bind fun rest => shrinks_layout.bind fun _ => ?_
      exact (Consumes.oneOf _).shrinks.bind fun _ => .pure _
    · rw [arguments]
      refine .orElse ?_ (.pure _)
      refine (consumes_delimiter ',').shrinks.bind fun _ => ih.1.bind fun argument => ?_
      exact ih.2.bind fun rest => .pure _

/-- The depth does not matter as long as it exceeds the length of the text. -/
theorem result_expression_congr {d e : Nat} (hd : text.length < d) (he : text.length < e) :
    (expression d text).result = (expression e text).result ∧
      (arguments d text).result = (arguments e text).result := by
  induction d generalizing e text with
  | zero => exact absurd hd (Nat.not_lt_zero _)
  | succ d ih =>
    obtain ⟨e, rfl⟩ : ∃ k, e = k + 1 := ⟨e - 1, by omega⟩
    constructor
    · rw [expression, expression]
      refine (result_orElse _ _ _).trans (Eq.trans ?_ (result_orElse _ _ _).symm)
      refine congrArg (Option.or · _) ?_
      rw [result_attempt, result_attempt]
      refine result_bind_congr rfl fun head rest hhead => ?_
      refine result_bind_congr rfl fun _ rest' hparen => ?_
      have hrest := shrinks_identifier _ _ hhead
      have hrest' := consumes_delimiter '(' _ _ hparen
      dsimp only at hrest hrest'
      refine result_bind_congr (ih (by omega) (by omega)).1 fun first rest'' hfirst => ?_
      have hrest'' := (shrinks_expression d).1 _ _ hfirst
      dsimp only at hrest''
      exact result_bind_congr (ih (by omega) (by omega)).2 fun _ _ _ => rfl
    · rw [arguments, arguments]
      refine (result_orElse _ _ _).trans (Eq.trans ?_ (result_orElse _ _ _).symm)
      refine congrArg (Option.or · _) ?_
      refine result_bind_congr rfl fun _ rest hcomma => ?_
      have hrest := consumes_delimiter ',' _ _ hcomma
      dsimp only at hrest
      refine result_bind_congr (ih (by omega) (by omega)).1 fun argument rest' hargument => ?_
      have hrest' := (shrinks_expression d).1 _ _ hargument
      dsimp only at hrest'
      exact result_bind_congr (ih (by omega) (by omega)).2 fun _ _ _ => rfl

end Rules

section Equations

/-- An equation, with expressions of limited depth. -/
def equationWithin (depth : Nat) : Recognizer (Atom × Term) := do
  let name ← identifier
  delimiter '='
  let rhs ← expression depth
  pure (name, rightHandSide rhs)

/-- An equation of any depth. -/
def equation : Recognizer (Atom × Term) := fun text => equationWithin (text.length + 1) text

theorem result_equation {depth : Nat} (h : text.length < depth) :
    (equationWithin depth text).result = (equation text).result := by
  refine result_bind_congr rfl fun name rest hname => ?_
  refine result_bind_congr rfl fun _ rest' hequals => ?_
  have hrest := shrinks_identifier _ _ hname
  have hrest' := consumes_delimiter '=' _ _ hequals
  dsimp only at hrest hrest'
  exact result_bind_congr (result_expression_congr (by omega) (by omega)).1 fun _ _ _ => rfl

theorem isLocal_equation : IsLocal equation := by
  intro front behind
  have hlocal : IsLocal (equationWithin ((front ++ '\n' :: behind).length + 1)) :=
    isLocal_identifier.bind fun _ => (isLocal_delimiter (by decide)).bind fun _ =>
      (isLocal_expression _).1.bind fun _ => .pure _
  have hlength : front.length < (front ++ '\n' :: behind).length + 1 := by
    rw [List.length_append]
    omega
  rw [equation, hlocal, result_equation hlength]

theorem shrinks_equation : Shrinks equation := fun text r h => by
  have hshrinks : Shrinks (equationWithin (text.length + 1)) :=
    shrinks_identifier.bind fun _ => (consumes_delimiter _).shrinks.bind fun _ =>
      (shrinks_expression _).1.bind fun _ => .pure _
  exact hshrinks text r h

/-- A definition is an equation, with its text. -/
theorem result_definition_eq {depth : Nat} (h : text.length < depth) :
    (definition depth text).result =
      (equation text).result.map fun r => (⟨r.1.1, r.1.2, text⟩, r.2) := by
  have hremaining : (remaining text).result = some (text, text) := rfl
  rw [definition, result_attempt, result_bind_of_some hremaining, ← result_equation h,
    equationWithin]
  simp only [result_bind, Option.map_bind, Function.comp_def]
  rfl

end Equations

section Programs

/-- The text behind layout. -/
def pastLayout (text : List Char) : List Char := dropLayout (fun _ => false) false text

/-- The text behind layout and separators. -/
def pastGap (text : List Char) : List Char := dropLayout isSeparator false text

theorem length_pastLayout_le (text : List Char) : (pastLayout text).length ≤ text.length :=
  length_dropLayout_le _ _ _

theorem length_pastGap_le (text : List Char) : (pastGap text).length ≤ text.length :=
  length_dropLayout_le _ _ _

theorem result_layout_eq (text : List Char) : (layout text).result = some ((), pastLayout text) := rfl

theorem result_gap_eq (text : List Char) : (gap text).result = some ((), pastGap text) := rfl

theorem result_separator (c : Char) (next : List Char) :
    (separator (c :: next)).result = if isSeparator c then some ((), next) else none := rfl

/-- The text is made up of some equations, in this order. -/
inductive Spells : List Char → List (Atom × Term) → Prop where
  | empty {text : List Char} (h : pastGap text = []) : Spells text []
  | last {text rest : List Char} {e : Atom × Term}
    (he : (equation (pastGap text)).result = some (e, rest)) (hend : pastLayout rest = []) :
    Spells text [e]
  | cons {text rest next : List Char} {e : Atom × Term} {c : Char} {es : List (Atom × Term)}
    (he : (equation (pastGap text)).result = some (e, rest)) (hnext : pastLayout rest = c :: next)
    (hc : isSeparator c = true) (hes : Spells next es) : Spells text (e :: es)

variable {es : List (Atom × Term)}

/-- Only what stands behind the first gap matters. -/
theorem Spells.congr {other : List Char} (h : Spells text es) (heq : pastGap text = pastGap other) :
    Spells other es := by
  cases h with
  | empty h => exact .empty (heq ▸ h)
  | last he hend => exact .last (heq ▸ he) hend
  | cons he hnext hc hes => exact .cons (heq ▸ he) hnext hc hes

theorem pastLayout_lineFeed (front behind : List Char) :
    pastLayout (front ++ '\n' :: behind) = pastLayout front ++ '\n' :: behind := by
  rw [pastLayout, dropLayout_lineFeed, pastLayout]
  split
  · rename_i hnil
    rw [hnil]
    rfl
  · rfl

theorem pastGap_lineFeed (front behind : List Char) :
    pastGap (front ++ '\n' :: behind) =
      if pastGap front = [] then pastGap behind else pastGap front ++ '\n' :: behind :=
  dropLayout_lineFeed isSeparator false front behind

/-- A text that does not end in its first gap goes on with the same equation when it is
joined with another. -/
theorem result_equation_lineFeed (behind : List Char) (hne : pastGap front ≠ []) :
    (equation (pastGap (front ++ '\n' :: behind))).result =
      (equation (pastGap front)).result.map fun r => (r.1, r.2 ++ '\n' :: behind) := by
  rw [pastGap_lineFeed, if_neg hne]
  exact isLocal_equation _ _

theorem pastGap_ne_nil {e : Atom × Term} {rest : List Char}
    (he : (equation (pastGap text)).result = some (e, rest)) : pastGap text ≠ [] := fun hnil => by
  rw [hnil] at he
  cases he

theorem result_equation_of_some {e : Atom × Term} {rest : List Char} (behind : List Char)
    (he : (equation (pastGap front)).result = some (e, rest)) :
    (equation (pastGap (front ++ '\n' :: behind))).result =
      some (e, rest ++ '\n' :: behind) := by
  rw [result_equation_lineFeed behind (pastGap_ne_nil he), he, Option.map_some]

theorem Spells.append {fs : List (Atom × Term)} (h : Spells front es) (h' : Spells behind fs) :
    Spells (front ++ '\n' :: behind) (es ++ fs) := by
  induction h with
  | @empty text h =>
    refine h'.congr ?_
    rw [pastGap_lineFeed, if_pos h]
  | @last text rest e he hend =>
    refine .cons (result_equation_of_some behind he) ?_ (c := '\n') (by decide) h'
    rw [pastLayout_lineFeed, hend]
    rfl
  | @cons text rest next e c es he hnext hc _ ih =>
    refine .cons (result_equation_of_some behind he) ?_ hc ih
    rw [pastLayout_lineFeed, hnext]
    rfl

/-- What a joined text is made up of is split at the line feed. -/
theorem Spells.exists_of_append (h : Spells (front ++ '\n' :: behind) es) :
    ∃ fs gs, es = fs ++ gs ∧ Spells front fs ∧ Spells behind gs := by
  generalize htext : front ++ '\n' :: behind = text at h
  induction h generalizing front with
  | @empty text h =>
    rw [← htext, pastGap_lineFeed] at h
    split at h
    · rename_i hnil
      exact ⟨[], [], rfl, .empty hnil, .empty h⟩
    · exact absurd (List.append_eq_nil_iff.mp h).2 (List.cons_ne_nil _ _)
  | @last text rest e he hend =>
    rw [← htext] at he
    by_cases hnil : pastGap front = []
    · rw [pastGap_lineFeed, if_pos hnil] at he
      exact ⟨[], [e], rfl, .empty hnil, .last he hend⟩
    · rw [result_equation_lineFeed behind hnil] at he
      obtain ⟨⟨e', rest'⟩, -, heq⟩ := Option.map_eq_some_iff.mp he
      cases heq
      rw [pastLayout_lineFeed] at hend
      exact absurd (List.append_eq_nil_iff.mp hend).2 (List.cons_ne_nil _ _)
  | @cons text rest next e c es he hnext hc hes ih =>
    rw [← htext] at he
    by_cases hnil : pastGap front = []
    · rw [pastGap_lineFeed, if_pos hnil] at he
      exact ⟨[], e :: es, rfl, .empty hnil, .cons he hnext hc hes⟩
    · rw [result_equation_lineFeed behind hnil] at he
      obtain ⟨⟨e', rest'⟩, hfirst, heq⟩ := Option.map_eq_some_iff.mp he
      cases heq
      rw [pastLayout_lineFeed] at hnext
      -- The separator is the line feed itself, or one in the first text.
      rcases List.append_eq_cons_iff.mp hnext with ⟨hend, hbehind⟩ | ⟨next', hnext', rfl⟩
      · cases hbehind
        exact ⟨[e'], es, rfl, .last hfirst hend, hes⟩
      · obtain ⟨fs, gs, rfl, hfs, hgs⟩ := ih rfl
        exact ⟨e' :: fs, gs, rfl, .cons hfirst hnext' hc hfs, hgs⟩

/-- Line feeds between texts separate their equations. -/
theorem spells_append_iff : Spells (front ++ '\n' :: behind) es ↔
    ∃ fs gs, es = fs ++ gs ∧ Spells front fs ∧ Spells behind gs := by
  constructor
  · exact Spells.exists_of_append
  · rintro ⟨fs, gs, rfl, hfs, hgs⟩
    exact hfs.append hgs

theorem spells_nil_iff : Spells [] es ↔ es = [] := by
  constructor
  · rintro (h | ⟨⟨⟩, -⟩ | ⟨⟨⟩, -, -, -⟩)
    rfl
  · rintro rfl
    exact .empty rfl

/-- Joining any number of texts by line feeds joins their equations. -/
theorem spells_intercalate_iff {texts : List (List Char)} :
    Spells (['\n'].intercalate texts) es ↔
      ∃ ess, List.Forall₂ Spells texts ess ∧ es = ess.flatten := by
  induction texts generalizing es with
  | nil =>
    rw [List.intercalate_nil, spells_nil_iff]
    constructor
    · rintro rfl
      exact ⟨[], .nil, rfl⟩
    · rintro ⟨_, ⟨⟩, rfl⟩
      rfl
  | cons first texts ih =>
    simp only [List.forall₂_cons_left_iff]
    cases texts with
    | nil =>
      rw [List.intercalate_singleton]
      constructor
      · exact fun h => ⟨[es], ⟨es, [], h, .nil, rfl⟩, by simp⟩
      · rintro ⟨_, ⟨fs, _, h, ⟨⟩, rfl⟩, rfl⟩
        simpa using h
    | cons second texts =>
      have hjoin : ['\n'].intercalate (first :: second :: texts) =
          first ++ '\n' :: ['\n'].intercalate (second :: texts) := by
        simp [List.intercalate]
      rw [hjoin, spells_append_iff]
      constructor
      · rintro ⟨fs, gs, rfl, hfs, hgs⟩
        obtain ⟨ess, hess, rfl⟩ := ih.mp hgs
        exact ⟨fs :: ess, ⟨fs, ess, hfs, hess, rfl⟩, rfl⟩
      · rintro ⟨_, ⟨fs, ess, hfs, hess, rfl⟩, rfl⟩
        exact ⟨fs, ess.flatten, rfl, hfs, ih.mpr ⟨ess, hess, rfl⟩⟩

/-- What may follow an equation: the end of the text, or a separator and further equations. -/
def Continues (text : List Char) (es : List (Atom × Term)) : Prop :=
  pastLayout text = [] ∧ es = [] ∨
    ∃ c next, pastLayout text = c :: next ∧ isSeparator c = true ∧ Spells next es

theorem continues_of_separator {c : Char} {next : List Char} (hnext : pastLayout text = c :: next)
    (hc : isSeparator c = true) : Continues text es ↔ Spells next es := by
  rw [Continues, hnext]
  constructor
  · rintro (⟨⟨⟩, -⟩ | ⟨_, _, ⟨⟩, -, hes⟩)
    exact hes
  · exact fun hes => .inr ⟨c, next, rfl, hc, hes⟩

theorem continues_of_not_separator
    (h : ¬∃ c next, pastLayout text = c :: next ∧ isSeparator c = true) :
    Continues text es ↔ pastLayout text = [] ∧ es = [] := by
  constructor
  · rintro (hend | ⟨c, next, hnext, hc, -⟩)
    · exact hend
    · exact absurd ⟨c, next, hnext, hc⟩ h
  · exact .inl

theorem spells_iff : Spells text es ↔ pastGap text = [] ∧ es = [] ∨
    ∃ e rest es', (equation (pastGap text)).result = some (e, rest) ∧ es = e :: es' ∧
      Continues rest es' := by
  constructor
  · rintro (h | ⟨he, hend⟩ | ⟨he, hnext, hc, hes⟩)
    · exact .inl ⟨h, rfl⟩
    · exact .inr ⟨_, _, _, he, rfl, .inl ⟨hend, rfl⟩⟩
    · exact .inr ⟨_, _, _, he, rfl, .inr ⟨_, _, hnext, hc, hes⟩⟩
  · rintro (⟨h, rfl⟩ | ⟨e, rest, es', he, rfl, ⟨hend, rfl⟩ | ⟨c, next, hnext, hc, hes⟩⟩)
    · exact .empty h
    · exact .last he hend
    · exact .cons he hnext hc hes

/-- A gap is what layout leaves of it. -/
theorem pastGap_pastLayout (text : List Char) : pastGap (pastLayout text) = pastGap text :=
  dropLayout_dropLayout false text

theorem pastGap_pastGap (text : List Char) : pastGap (pastGap text) = pastGap text :=
  dropLayout_eq (startsPlain_dropLayout isSeparator false text)

theorem pastGap_of_pastLayout {c : Char} {next : List Char} (h : pastLayout text = c :: next) :
    pastGap text = if isSeparator c then pastGap next else c :: next := by
  have hplain := startsPlain_dropLayout (fun _ => false) false text c
  rw [show dropLayout _ false text = _ from h] at hplain
  obtain ⟨hblank, -, hcomment⟩ := hplain rfl
  rw [← pastGap_pastLayout, h, pastGap, dropLayout, hblank, Bool.false_or]
  split
  · rfl
  · rw [if_neg (by simpa using hcomment)]

/-- Where no separator stands, none is read, and the gap is layout. -/
theorem pastGap_of_not_separator
    (h : ¬∃ c next, pastLayout text = c :: next ∧ isSeparator c = true) :
    (separator (pastLayout text)).result = none ∧ pastGap text = pastLayout text := by
  cases hnext : pastLayout text with
  | nil =>
    rw [← pastGap_pastLayout, hnext]
    exact ⟨rfl, rfl⟩
  | cons c next =>
    have hc : ¬isSeparator c = true := fun hc => h ⟨c, next, hnext, hc⟩
    rw [pastGap_of_pastLayout hnext, result_separator, if_neg hc, if_neg hc]
    exact ⟨rfl, rfl⟩

/-- The equation that a definition states. -/
def Definition.entry (d : Definition) : Atom × Term := (d.name, d.rhs)

/-- The recognizer reads some equations and then at most a gap to the end of the text. -/
def ReadsAll (x : Recognizer (List Definition)) (text : List Char) (es : List (Atom × Term)) :
    Prop :=
  ∃ ds rest, (x text).result = some (ds, rest) ∧ ds.map Definition.entry = es ∧ pastGap rest = []

theorem readsAll_of_result {x : Recognizer (List Definition)} {ds : List Definition}
    {rest : List Char} (h : (x text).result = some (ds, rest)) :
    ReadsAll x text es ↔ ds.map Definition.entry = es ∧ pastGap rest = [] := by
  constructor
  · rintro ⟨ds', rest', h', hes⟩
    cases h.symm.trans h'
    exact hes
  · exact fun hes => ⟨ds, rest, h, hes⟩

/-- Where nothing is read there must be a gap to the end. -/
theorem readsAll_of_refuse {x : Recognizer (List Definition)} (hx : (x text).result = none) :
    ReadsAll (x <|> pure []) text es ↔ pastGap text = [] ∧ es = [] := by
  have hresult : ((x <|> pure []) text).result = some ([], text) := result_orElse_of_none hx
  rw [readsAll_of_result hresult, and_comm, List.map_nil, eq_comm (a := [])]

/-- A definition and what more there is. -/
def definitionThen (depth : Nat) (more : Recognizer (List Definition)) :
    Recognizer (List Definition) := do
  let first ← definition depth
  let rest ← more
  pure (first :: rest)

/-- Where a definition may stand, either there is one or the text ends. -/
theorem readsAll_orElse_iff {x : Recognizer (List Definition)} (depth : Nat)
    (more : Recognizer (List Definition))
    (hx : (x text).result = (definitionThen depth more (pastGap text)).result)
    (hmore : ∀ text, ∃ r, (more text).result = some r) (hdepth : (pastGap text).length < depth) :
    ReadsAll (x <|> pure []) text es ↔ pastGap text = [] ∧ es = [] ∨
      ∃ e rest es', (equation (pastGap text)).result = some (e, rest) ∧ es = e :: es' ∧
        ReadsAll more rest es' := by
  have hdefinition := result_definition_eq hdepth
  cases he : (equation (pastGap text)).result with
  | none =>
    rw [he, Option.map_none] at hdefinition
    rw [readsAll_of_refuse (hx.trans (result_bind_of_none hdefinition))]
    constructor
    · exact .inl
    · rintro (hend | ⟨_, _, _, ⟨⟩, -⟩)
      exact hend
  | some r =>
    obtain ⟨e, rest⟩ := r
    obtain ⟨⟨ds, rest'⟩, hds⟩ := hmore rest
    rw [he, Option.map_some] at hdefinition
    have hresult : ((x <|> pure []) text).result =
        some (⟨e.1, e.2, pastGap text⟩ :: ds, rest') := by
      refine result_orElse_of_some (hx.trans ?_)
      rw [definitionThen, result_bind_of_some hdefinition, result_bind_of_some hds]
      rfl
    rw [readsAll_of_result hresult]
    constructor
    · rintro ⟨rfl, hend⟩
      exact .inr ⟨e, rest, _, rfl, rfl, (readsAll_of_result hds).mpr ⟨rfl, hend⟩⟩
    · rintro (⟨hend, -⟩ | ⟨_, _, es', ⟨⟩, rfl, hread⟩)
      · exact absurd hend (pastGap_ne_nil he)
      · obtain ⟨rfl, hend⟩ := (readsAll_of_result hds).mp hread
        exact ⟨rfl, hend⟩

theorem exists_result_orElse_pure {α : Type} (x : Recognizer α) (a : α) (text : List Char) :
    ∃ r, ((x <|> pure a) text).result = some r := by
  change ∃ r, ((OrElse.orElse x fun _ => pure a) text).result = some r
  rw [result_orElse, ← Option.isSome_iff_exists, Option.isSome_or]
  exact Bool.or_true _

theorem exists_result_furtherDefinitions (depth count : Nat) (text : List Char) :
    ∃ r, (furtherDefinitions depth count text).result = some r := by
  cases count with
  | zero => exact ⟨_, rfl⟩
  | succ count =>
    rw [furtherDefinitions]
    exact exists_result_orElse_pure _ _ _

/-- Further definitions are read as far as they go. -/
theorem readsAll_furtherDefinitions_iff {depth count : Nat} (hdepth : text.length < depth)
    (hcount : text.length < count) :
    ReadsAll (furtherDefinitions depth count) text es ↔ Continues text es := by
  induction count generalizing text es with
  | zero => exact absurd hcount (Nat.not_lt_zero _)
  | succ count ih =>
    rw [furtherDefinitions]
    by_cases hseparator : ∃ c next, pastLayout text = c :: next ∧ isSeparator c = true
    · obtain ⟨c, next, hnext, hc⟩ := hseparator
      have hgap : pastGap text = pastGap next := by rw [pastGap_of_pastLayout hnext, if_pos hc]
      have hshort : (pastGap next).length < text.length := by
        have hlayout := length_pastLayout_le text
        rw [hnext, List.length_cons] at hlayout
        exact (length_pastGap_le next).trans_lt hlayout
      rw [readsAll_orElse_iff depth (furtherDefinitions depth count) ?_
        (exists_result_furtherDefinitions depth count) (by rw [hgap]; omega),
        continues_of_separator hnext hc, spells_iff, hgap]
      · refine or_congr Iff.rfl (exists_congr fun e => exists_congr fun rest =>
          exists_congr fun es' => and_congr_right fun he => and_congr_right fun _ => ?_)
        have hrest := shrinks_equation _ _ he
        dsimp only at hrest
        exact ih (by omega) (by omega)
      · rw [result_bind_of_some (result_layout_eq text), hnext,
          result_bind_of_some ((result_separator c next).trans (if_pos hc)),
          result_bind_of_some (result_gap_eq next), hgap]
        rfl
    · obtain ⟨hnone, hgap⟩ := pastGap_of_not_separator hseparator
      rw [readsAll_of_refuse ?_, hgap, continues_of_not_separator hseparator]
      rw [result_bind_of_some (result_layout_eq text)]
      exact result_bind_of_none hnone

/-- Nothing but a gap may follow the equations. -/
theorem exists_result_closed_iff (x : Recognizer (List Definition)) :
    (∃ ds rest, ((do
        let ds ← x
        gap
        endOfInput
        pure ds : Recognizer _) text).result = some (ds, rest) ∧ ds.map Definition.entry = es) ↔
      ReadsAll x text es := by
  cases hx : (x text).result with
  | none =>
    rw [result_bind_of_none hx]
    constructor
    · rintro ⟨_, _, ⟨⟩, -⟩
    · rintro ⟨_, _, h, -⟩
      cases hx.symm.trans h
  | some r =>
    obtain ⟨ds, rest⟩ := r
    rw [result_bind_of_some hx, result_bind_of_some (result_gap_eq rest), readsAll_of_result hx]
    cases hend : pastGap rest with
    | nil =>
      have hclosed : (endOfInput []).result = some ((), []) := rfl
      rw [result_bind_of_some hclosed]
      constructor
      · rintro ⟨_, _, ⟨⟩, hes⟩
        exact ⟨hes, rfl⟩
      · rintro ⟨hes, -⟩
        exact ⟨_, _, rfl, hes⟩
    | cons c next =>
      have hopen : (endOfInput (c :: next)).result = none := rfl
      rw [result_bind_of_none hopen]
      constructor
      · rintro ⟨_, _, ⟨⟩, -⟩
      · rintro ⟨-, ⟨⟩⟩

/-- A text is recognized when it is made up of equations, and as these. -/
theorem exists_result_recognize_iff : (∃ ds rest, (recognize text).result = some (ds, rest) ∧
    ds.map Definition.entry = es) ↔ Spells text es := by
  have hlength := length_pastGap_le text
  have hstart : ReadsAll ((definitionThen (text.length + 1)
      (furtherDefinitions (text.length + 1) (text.length + 1))) <|> pure []) (pastGap text) es ↔
        Spells text es := by
    rw [readsAll_orElse_iff (text.length + 1) _ (by rw [pastGap_pastGap])
      (exists_result_furtherDefinitions _ _) (by rw [pastGap_pastGap]; omega), spells_iff,
      pastGap_pastGap]
    refine or_congr Iff.rfl (exists_congr fun e => exists_congr fun rest =>
      exists_congr fun es' => and_congr_right fun he => and_congr_right fun _ => ?_)
    have hrest := shrinks_equation _ _ he
    dsimp only at hrest
    exact readsAll_furtherDefinitions_iff (by omega) (by omega)
  rw [← hstart, ← exists_result_closed_iff, recognize, program, result_attempt,
    result_bind_of_some (result_gap_eq text)]
  rfl

end Programs

end Grammar

end DiffAnalyzer
