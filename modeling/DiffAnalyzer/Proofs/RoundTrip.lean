import DiffAnalyzer.Proofs.Linearization
import DiffAnalyzer.Proofs.NumberText
import DiffAnalyzer.Source.Parse
import Mathlib

/-!
# Texts of circuits read back

Each rule of the grammar reads what is written for it off the front of a text, provided
that what follows cannot belong to it.  In a written circuit a comma, a parenthesis or a
line feed follows every expression, so that the whole text is recognized as its definitions
(`Grammar.result_recognize`).
-/

namespace DiffAnalyzer

namespace Recognizer

variable {α β : Type} {x : Recognizer α} {f : α → Recognizer β} {text rest : List Char} {a : α}

theorem result_bind_of_some (h : (x text).result = some (a, rest)) :
    ((x >>= f) text).result = (f a rest).result := by
  rw [result_bind, h]
  rfl

theorem result_bind_of_none (h : (x text).result = none) : ((x >>= f) text).result = none := by
  rw [result_bind, h]
  rfl

theorem result_orElse_of_some {y : Unit → Recognizer α} {r : α × List Char}
    (h : (x text).result = some r) : ((OrElse.orElse x y) text).result = some r := by
  rw [result_orElse, h]
  rfl

theorem result_orElse_of_none {y : Unit → Recognizer α} (h : (x text).result = none) :
    ((OrElse.orElse x y) text).result = (y () text).result := by
  rw [result_orElse, h]
  rfl

theorem result_symbol (c : Char) : (symbol c (c :: text)).result = some ((), text) := by
  change (if c == c then some ((), text) else none) = _
  rw [if_pos (beq_self_eq_true c)]

theorem result_symbol_of_ne {c : Char} (h : ∀ d ∈ text.head?, d ≠ c) :
    (symbol c text).result = none := by
  cases text with
  | nil => rfl
  | cons d text =>
    change (if d == c then some ((), text) else none) = _
    rw [if_neg (by simpa using h d rfl)]

end Recognizer

namespace Grammar

open Recognizer

variable {text rest : List Char}

/-- The text starts with something that is not layout, if at all. -/
def StartsPlain (also : Char → Bool) (text : List Char) : Prop :=
  ∀ c ∈ text.head?, isBlank c = false ∧ also c = false ∧ c ≠ '#'

theorem dropLayout_eq {also : Char → Bool} (h : StartsPlain also text) :
    dropLayout also false text = text := by
  cases text with
  | nil => rfl
  | cons c text =>
    obtain ⟨hblank, halso, hcomment⟩ := h c rfl
    rw [dropLayout, hblank, halso, if_neg (by decide), if_neg (by simpa using hcomment)]

theorem result_layout (h : StartsPlain (fun _ => false) text) :
    (layout text).result = some ((), text) := by
  change some ((), dropLayout _ false text) = _
  rw [dropLayout_eq h]

theorem result_layout_blank (h : StartsPlain (fun _ => false) text) :
    (layout (' ' :: text)).result = some ((), text) := by
  change some ((), dropLayout _ false text) = _
  rw [dropLayout_eq h]

theorem result_gap (h : StartsPlain isSeparator text) : (gap text).result = some ((), text) := by
  change some ((), dropLayout _ false text) = _
  rw [dropLayout_eq h]

/-- What may follow an expression. -/
def Ends (rest : List Char) : Prop := ∀ c ∈ rest.head?, c = ',' ∨ c = ')' ∨ c = '\n'

theorem Ends.startsPlain (h : Ends rest) : StartsPlain (fun _ => false) rest := by
  intro c hc
  rcases h c hc with rfl | rfl | rfl
  · exact ⟨rfl, rfl, by decide⟩
  · exact ⟨rfl, rfl, by decide⟩
  · exact ⟨rfl, rfl, by decide⟩

theorem Ends.stops (h : Ends rest) : Decimal.Stops rest := by
  intro c hc
  rcases h c hc with rfl | rfl | rfl
  · decide
  · decide
  · decide

theorem Ends.not_isNamePart (h : Ends rest) : ∀ c ∈ rest.head?, isNamePart c = false := by
  intro c hc
  rcases h c hc with rfl | rfl | rfl
  · decide
  · decide
  · decide

/-- Reading a name stops where its characters do. -/
theorem scanIdentifier_append (a : Atom) (hrest : ∀ c ∈ rest.head?, isNamePart c = false) :
    scanIdentifier (a.chars ++ rest) = some (a, rest) := by
  obtain ⟨chars, hvalid⟩ := a
  cases chars with
  | nil => cases hvalid
  | cons c chars =>
    have hname := hvalid
    rw [isName, Bool.and_eq_true, List.all_eq_true] at hname
    have htake := takeWhile_dropWhile_append hname.2 hrest
    rw [List.cons_append, scanIdentifier, dif_pos hname.1]
    simp only [htake.1, htake.2]

theorem plain_of_isNameStart {c : Char} (h : isNameStart c = true) :
    isBlank c = false ∧ isSeparator c = false ∧ c ≠ '#' := by
  refine ⟨?_, ?_, ?_⟩
  · rw [← Bool.not_eq_true, isBlank, Bool.or_eq_true, Bool.or_eq_true, beq_iff_eq, beq_iff_eq,
      beq_iff_eq]
    rintro ((rfl | rfl) | rfl)
    · cases h
    · cases h
    · cases h
  · rw [← Bool.not_eq_true, isSeparator, Bool.or_eq_true, beq_iff_eq, beq_iff_eq]
    rintro (rfl | rfl)
    · cases h
    · cases h
  · rintro rfl
    cases h

/-- Signs and digits start no name and are no layout. -/
theorem plain_of_isDigit {c : Char} (h : c = '-' ∨ c.isDigit = true) :
    isNameStart c = false ∧ isBlank c = false ∧ isSeparator c = false ∧ c ≠ '#' := by
  rcases h with rfl | hc
  · decide
  · have hne : ∀ d : Char, d.isDigit = false → c ≠ d := by
      rintro d hd rfl
      rw [hc] at hd
      cases hd
    refine ⟨?_, ?_, ?_, hne '#' rfl⟩
    · have hdigit := hc
      rw [Char.isDigit, Bool.and_eq_true, decide_eq_true_iff, decide_eq_true_iff] at hdigit
      simp only [isNameStart, Char.isAlpha, Char.isUpper, Char.isLower, Bool.or_eq_false_iff,
        Bool.and_eq_false_iff, decide_eq_false_iff_not, beq_eq_false_iff_ne]
      simp only [ge_iff_le, UInt32.le_iff_toNat_le] at hdigit ⊢
      have h9 : ('9' : Char).val.toNat = 57 := rfl
      have hA : ('A' : Char).val.toNat = 65 := rfl
      have ha : ('a' : Char).val.toNat = 97 := rfl
      exact ⟨⟨by omega, by omega⟩, hne '_' rfl⟩
    · rw [isBlank, Bool.or_eq_false_iff, Bool.or_eq_false_iff]
      exact ⟨⟨beq_false_of_ne (hne _ rfl), beq_false_of_ne (hne _ rfl)⟩,
        beq_false_of_ne (hne _ rfl)⟩
    · rw [isSeparator, Bool.or_eq_false_iff]
      exact ⟨beq_false_of_ne (hne _ rfl), beq_false_of_ne (hne _ rfl)⟩

theorem scanIdentifier_number {x : Number} (hx : x.isFinite = true) :
    scanIdentifier (x.text ++ rest) = none := by
  obtain ⟨c, cs, htext, hc⟩ := Number.exists_text_eq_cons hx
  rw [htext, List.cons_append, scanIdentifier,
    dif_neg (ne_true_of_eq_false (plain_of_isDigit hc).1)]

theorem startsPlain_chars (a : Atom) : StartsPlain isSeparator (a.chars ++ rest) := by
  obtain ⟨chars, hvalid⟩ := a
  cases chars with
  | nil => cases hvalid
  | cons c chars =>
    rw [isName, Bool.and_eq_true] at hvalid
    rintro _ ⟨⟩
    exact plain_of_isNameStart hvalid.1

theorem StartsPlain.mono (h : StartsPlain isSeparator text) :
    StartsPlain (fun _ => false) text := fun c hc => ⟨(h c hc).1, rfl, (h c hc).2.2⟩

/-- A written expression starts with its own first character. -/
theorem startsPlain_text {a : Arg} (hfinite : ∀ x, a = .number x → x.isFinite = true) :
    StartsPlain isSeparator (a.text ++ rest) := by
  cases a with
  | number x =>
    obtain ⟨c, cs, htext, hc⟩ := Number.exists_text_eq_cons (hfinite x rfl)
    rw [Arg.text, htext]
    rintro _ ⟨⟩
    exact (plain_of_isDigit hc).2
  | node head tail =>
    cases tail with
    | nil => exact startsPlain_chars head
    | cons b tail =>
      rw [Arg.text, List.append_assoc, List.append_assoc, List.append_assoc]
      exact startsPlain_chars head

theorem startsPlain_cons {also : Char → Bool} {c : Char}
    (h : isBlank c = false ∧ also c = false ∧ c ≠ '#') : StartsPlain also (c :: text) := by
  rintro _ ⟨⟩
  exact h

theorem result_delimiter {c : Char} {front : List Char}
    (hfront : (layout front).result = some ((), c :: text))
    (htext : (layout text).result = some ((), rest)) :
    (delimiter c front).result = some ((), rest) := by
  rw [delimiter, result_bind_of_some hfront, result_bind_of_some (result_symbol c), htext]

theorem result_delimiter_of_ne {c : Char} (hplain : StartsPlain (fun _ => false) text)
    (hne : ∀ d ∈ text.head?, d ≠ c) : (delimiter c text).result = none := by
  rw [delimiter, result_bind_of_some (result_layout hplain)]
  exact result_bind_of_none (result_symbol_of_ne hne)

/-- Wherever an expression may end, its text is read as the expression. -/
def Reads (a : Arg) : Prop := ∀ depth rest, a.text.length ≤ depth → Ends rest →
  (expression depth (a.text ++ rest)).result = some (a, rest)

theorem ends_textRest (args : List Arg) (rest : List Char) :
    Ends (Arg.textRest args ++ ')' :: rest) := by
  cases args with
  | nil =>
    rintro _ ⟨⟩
    exact .inr (.inl rfl)
  | cons a args =>
    rintro _ ⟨⟩
    exact .inl rfl

/-- A list of arguments is read up to its parenthesis. -/
theorem result_arguments {args : List Arg} (hreads : ∀ a ∈ args, Reads a)
    (hplain : ∀ a ∈ args, ∀ rest, StartsPlain isSeparator (a.text ++ rest)) {depth : Nat}
    (hdepth : (Arg.textRest args).length ≤ depth) :
    (arguments depth (Arg.textRest args ++ ')' :: rest)).result = some (args, ')' :: rest) := by
  induction args generalizing depth with
  | nil =>
    cases depth with
    | zero => rfl
    | succ depth =>
      rw [arguments]
      refine (result_orElse_of_none (result_bind_of_none ?_)).trans rfl
      refine result_delimiter_of_ne (ends_textRest [] rest).startsPlain ?_
      rintro _ ⟨⟩
      decide
  | cons a args ih =>
    rw [List.forall_mem_cons] at hreads hplain
    rw [Arg.textRest, List.cons_append, List.length_cons, List.cons_append, List.length_cons,
      List.length_append] at hdepth
    obtain ⟨depth, rfl⟩ : ∃ d, depth = d + 1 := ⟨depth - 1, by omega⟩
    have htext : Arg.textRest (a :: args) ++ ')' :: rest =
        ',' :: ' ' :: (a.text ++ (Arg.textRest args ++ ')' :: rest)) := by
      simp [Arg.textRest]
    rw [htext, arguments]
    refine result_orElse_of_some ?_
    rw [result_bind_of_some (result_delimiter (result_layout (startsPlain_cons (by decide)))
        (result_layout_blank (hplain.1 _).mono)),
      result_bind_of_some (hreads.1 depth _ (by omega) (ends_textRest args rest)),
      result_bind_of_some (ih hreads.2 hplain.2 (by omega))]
    rfl

theorem reads_number {x : Number} (hx : x.isFinite = true) : Reads (.number x) := by
  intro depth rest hdepth hrest
  obtain ⟨c, cs, htext, -⟩ := Number.exists_text_eq_cons hx
  obtain ⟨d, hscan, hd⟩ := Number.exists_scan_text hx hrest.stops
  rw [Arg.text, htext, List.length_cons] at hdepth
  obtain ⟨depth, rfl⟩ : ∃ d, depth = d + 1 := ⟨depth - 1, by omega⟩
  have hidentifier : (identifier (x.text ++ rest)).result = none := scanIdentifier_number hx
  rw [Arg.text, expression]
  refine (result_orElse_of_none ?_).trans ((result_orElse_of_none ?_).trans ?_)
  · rw [result_attempt, result_bind_of_none hidentifier]
  · rw [reference, result_attempt, result_bind_of_none hidentifier]
  · change (Decimal.scan (x.text ++ rest)).map _ = _
    rw [hscan, Option.map_some]
    exact congrArg (fun x => some (Arg.number x, rest)) hd

theorem chars_ne_nil (a : Atom) : a.chars ≠ [] := fun h => by
  have hvalid := a.valid
  rw [h] at hvalid
  cases hvalid

theorem reads_reference (head : Atom) : Reads (.node head []) := by
  intro depth rest hdepth hrest
  have hpos := List.length_pos_of_ne_nil (chars_ne_nil head)
  rw [Arg.text] at hdepth
  obtain ⟨depth, rfl⟩ : ∃ d, depth = d + 1 := ⟨depth - 1, by omega⟩
  have hidentifier : (identifier (head.chars ++ rest)).result = some (head, rest) :=
    scanIdentifier_append head hrest.not_isNamePart
  rw [Arg.text, expression]
  refine (result_orElse_of_none ?_).trans (result_orElse_of_some ?_)
  · -- An application would go on with a parenthesis.
    rw [result_attempt, result_bind_of_some hidentifier]
    refine result_bind_of_none (result_delimiter_of_ne hrest.startsPlain fun d hd => ?_)
    rcases hrest d hd with rfl | rfl | rfl
    · decide
    · decide
    · decide
  · rw [reference, result_attempt, result_bind_of_some hidentifier]
    rfl

theorem reads_application {head : Atom} {b : Arg} {args : List Arg}
    (hreads : ∀ a ∈ b :: args, Reads a)
    (hplain : ∀ a ∈ b :: args, ∀ rest, StartsPlain isSeparator (a.text ++ rest)) :
    Reads (.node head (b :: args)) := by
  intro depth rest hdepth hrest
  rw [List.forall_mem_cons] at hreads hplain
  have htext : (Arg.node head (b :: args)).text ++ rest =
      head.chars ++ '(' :: (b.text ++ (Arg.textRest args ++ ')' :: rest)) := by
    simp [Arg.text]
  have hlength : b.text.length + (Arg.textRest args).length < depth := by
    have := congrArg List.length htext
    simp only [List.length_append, List.length_cons] at this
    omega
  have hidentifier : (identifier (head.chars ++
      '(' :: (b.text ++ (Arg.textRest args ++ ')' :: rest)))).result =
        some (head, '(' :: (b.text ++ (Arg.textRest args ++ ')' :: rest))) := by
    refine scanIdentifier_append head ?_
    rintro _ ⟨⟩
    decide
  obtain ⟨depth, rfl⟩ : ∃ d, depth = d + 1 := ⟨depth - 1, by omega⟩
  rw [htext, expression]
  refine result_orElse_of_some ?_
  rw [result_attempt, result_bind_of_some hidentifier,
    result_bind_of_some (result_delimiter (result_layout (startsPlain_cons (by decide)))
      (result_layout (hplain.1 _).mono)),
    result_bind_of_some (hreads.1 depth _ (by omega) (ends_textRest args rest)),
    result_bind_of_some (result_arguments hreads.2 hplain.2 (by omega)),
    result_bind_of_some (result_layout (startsPlain_cons (by decide))),
    result_bind_of_some (result_symbol ')')]
  rfl

variable {s : EquationSet}

/-- The parts of a circuit are read back. -/
theorem reads_of_isPart (hfinite : ∀ x, s.IsPart (.number x) → x.isFinite = true) {a : Arg}
    (hpart : s.IsPart a) : Reads a := by
  induction a using Arg.induct with
  | number x => exact reads_number (hfinite x hpart)
  | node head tail ih =>
    cases tail with
    | nil => exact reads_reference head
    | cons b args =>
      refine reads_application (fun a ha => ih a ha (.argument hpart ha)) fun a ha rest => ?_
      exact startsPlain_text fun x hx => hfinite x (hx ▸ .argument hpart ha)

/-- The text of some equations, one on each line. -/
def textOf (entries : List (Atom × Term)) : List Char :=
  entries.flatMap fun e => e.1.chars ++ " = ".toList ++ e.2.text ++ ['\n']

theorem textOf_cons (name : Atom) (rhs : Term) (entries : List (Atom × Term)) :
    textOf ((name, rhs) :: entries) =
      name.chars ++ ' ' :: '=' :: ' ' :: (rhs.text ++ '\n' :: textOf entries) := by
  simp [textOf]

theorem result_definition (name : Atom) {rhs : Term} (depth : Nat) (rest : List Char)
    (hreads : Reads rhs.toArg) (hdepth : rhs.text.length ≤ depth) :
    ∃ d : Definition, d.name = name ∧ d.rhs = rhs ∧
      (definition depth (name.chars ++ ' ' :: '=' :: ' ' :: (rhs.text ++ '\n' :: rest))).result =
        some (d, '\n' :: rest) := by
  generalize htext : name.chars ++ ' ' :: '=' :: ' ' :: (rhs.text ++ '\n' :: rest) = text
  have hidentifier : (identifier text).result =
      some (name, ' ' :: '=' :: ' ' :: (rhs.text ++ '\n' :: rest)) := by
    rw [← htext]
    refine scanIdentifier_append name ?_
    rintro _ ⟨⟩
    decide
  have hremaining : (remaining text).result = some (text, text) := rfl
  have hplain : StartsPlain isSeparator (rhs.text ++ '\n' :: rest) :=
    startsPlain_text (a := rhs.toArg) fun x hx => nomatch hx
  have hends : Ends ('\n' :: rest) := by
    rintro _ ⟨⟩
    exact .inr (.inr rfl)
  have hrhs : (expression depth (rhs.text ++ '\n' :: rest)).result =
      some (rhs.toArg, '\n' :: rest) := hreads depth _ hdepth hends
  refine ⟨⟨name, rhs, text⟩, rfl, rfl, ?_⟩
  rw [definition, result_attempt, result_bind_of_some hremaining, result_bind_of_some hidentifier,
    result_bind_of_some (result_delimiter (result_layout_blank (startsPlain_cons (by decide)))
      (result_layout_blank hplain.mono)),
    result_bind_of_some hrhs]
  rfl

/-- Definitions are read up to the last line feed. -/
theorem result_furtherDefinitions {entries : List (Atom × Term)} (depth count : Nat)
    (hreads : ∀ e ∈ entries, Reads e.2.toArg) (hdepth : ∀ e ∈ entries, e.2.text.length ≤ depth)
    (hcount : entries.length ≤ count) :
    ∃ ds, ds.map (fun d => (d.name, d.rhs)) = entries ∧
      (furtherDefinitions depth count ('\n' :: textOf entries)).result = some (ds, ['\n']) := by
  induction entries generalizing count with
  | nil =>
    refine ⟨[], rfl, ?_⟩
    cases count with
    | zero => rfl
    | succ count =>
      rw [furtherDefinitions]
      refine (result_orElse_of_none ?_).trans rfl
      rfl
  | cons e entries ih =>
    obtain ⟨name, rhs⟩ := e
    rw [List.forall_mem_cons] at hreads hdepth
    rw [List.length_cons] at hcount
    obtain ⟨count, rfl⟩ : ∃ d, count = d + 1 := ⟨count - 1, by omega⟩
    obtain ⟨ds, hds, hrest⟩ := ih count hreads.2 hdepth.2 (Nat.le_of_succ_le_succ hcount)
    obtain ⟨d, rfl, rfl, hd⟩ := result_definition name depth (textOf entries) hreads.1 hdepth.1
    have hseparator : ∀ text, (separator ('\n' :: text)).result = some ((), text) := fun _ => rfl
    refine ⟨d :: ds, ?_, ?_⟩
    · rw [List.map_cons, hds]
    · rw [textOf_cons, furtherDefinitions]
      refine result_orElse_of_some ?_
      rw [result_bind_of_some (result_layout (startsPlain_cons (by decide))),
        result_bind_of_some (hseparator _),
        result_bind_of_some (result_gap (startsPlain_chars d.name)), result_bind_of_some hd,
        result_bind_of_some hrest]
      rfl

/-- The length of a text bounds its equations and their right-hand sides. -/
theorem length_le_textOf (entries : List (Atom × Term)) :
    entries.length ≤ (textOf entries).length ∧
      ∀ e ∈ entries, e.2.text.length ≤ (textOf entries).length := by
  induction entries with
  | nil => exact ⟨Nat.le_refl 0, nofun⟩
  | cons e entries ih =>
    obtain ⟨name, rhs⟩ := e
    have hlength : (textOf ((name, rhs) :: entries)).length =
        name.chars.length + (rhs.text.length + (textOf entries).length + 4) := by
      rw [textOf_cons]
      simp only [List.length_append, List.length_cons]
      omega
    rw [hlength, List.forall_mem_cons, List.length_cons]
    refine ⟨by omega, by dsimp only; omega, fun e he => ?_⟩
    have := ih.2 e he
    omega

/-- The text of a circuit is recognized as its definitions. -/
theorem result_recognize {entries : List (Atom × Term)} (hreads : ∀ e ∈ entries, Reads e.2.toArg) :
    ∃ ds, ds.map (fun d => (d.name, d.rhs)) = entries ∧
      (recognize (textOf entries)).result = some (ds, []) := by
  cases entries with
  | nil => exact ⟨[], rfl, rfl⟩
  | cons e entries =>
    obtain ⟨name, rhs⟩ := e
    obtain ⟨hcount, hdepth⟩ := length_le_textOf ((name, rhs) :: entries)
    generalize hlength : (textOf ((name, rhs) :: entries)).length = length at hcount hdepth
    rw [List.forall_mem_cons] at hreads hdepth
    rw [List.length_cons] at hcount
    obtain ⟨d, rfl, rfl, hd⟩ := result_definition name (length + 1) (textOf entries) hreads.1
      (Nat.le_succ_of_le hdepth.1)
    obtain ⟨ds, hds, hrest⟩ := result_furtherDefinitions (length + 1) (length + 1) hreads.2
      (fun e he => Nat.le_succ_of_le (hdepth.2 e he)) (by omega)
    have hend : (endOfInput []).result = some ((), []) := rfl
    have hgap : (gap ['\n']).result = some ((), []) := rfl
    refine ⟨d :: ds, ?_, ?_⟩
    · rw [List.map_cons, hds]
    · rw [recognize, hlength, textOf_cons, program, result_attempt,
        result_bind_of_some (result_gap (startsPlain_chars d.name))]
      refine (result_bind_of_some (result_orElse_of_some (r := (d :: ds, ['\n'])) ?_)).trans ?_
      · rw [result_bind_of_some hd, result_bind_of_some hrest]
        rfl
      · rw [result_bind_of_some hgap, result_bind_of_some hend]
        rfl

theorem redefinition?_eq_none {earlier ds : List Definition}
    (h : ((earlier ++ ds).map Definition.name).Nodup) : redefinition? earlier ds = none := by
  induction ds generalizing earlier with
  | nil => rfl
  | cons d ds ih =>
    have hfresh : (earlier.find? fun e => e.name == d.name) = none := by
      refine List.find?_eq_none.mpr fun e he heq => ?_
      rw [List.map_append, List.map_cons, List.nodup_middle, List.nodup_cons] at h
      refine h.1 (List.mem_append_left _ ?_)
      rw [← beq_iff_eq.mp heq]
      exact List.mem_map_of_mem he
    rw [redefinition?, hfresh]
    refine ih ?_
    rw [List.map_append, List.map_cons] at h ⊢
    exact List.nodup_middle.mp h

end Grammar

theorem EquationSet.text_eq (s : EquationSet) : s.text = Grammar.textOf s.toList := rfl

open Grammar in
/-- The text of a circuit without infinities and NaNs is read as the circuit. -/
theorem EquationSet.parse_text (s : EquationSet)
    (hfinite : ∀ x, s.IsPart (.number x) → x.isFinite = true) :
    EquationSet.parse s.text = .ok s := by
  have hreads : ∀ e ∈ s.toList, Reads e.2.toArg := fun e he =>
    reads_of_isPart hfinite (.whole (SortedMap.get?_of_mem he))
  obtain ⟨ds, hds, hresult⟩ := result_recognize hreads
  have hdefinitions : definitions s.text = .ok ds := by
    unfold definitions
    dsimp only
    rw [text_eq, hresult]
  have hredefinition : redefinition? [] ds = none := by
    refine redefinition?_eq_none ?_
    have hnames : ds.map Definition.name = s.keys := by
      rw [SortedMap.keys, ← hds, List.map_map]
      rfl
    rw [List.nil_append, hnames]
    exact SortedMap.nodup_keys s
  refine bind_eq_ok_iff.mpr ⟨ds, hdefinitions, ?_⟩
  rw [hredefinition, hds, SortedMap.ofList_toList]
  rfl

/-- A negative zero and the least number, under names with a prime and a point. -/
def oddConstants : EquationSet :=
  .ofList [(⟨['x', '\x27'], by decide⟩, ⟨Element.const.name, [.number ⟨0x8000000000000000⟩]⟩),
    (⟨['y', '.', '1'], by decide⟩, ⟨Element.const.name, [.number ⟨1⟩]⟩)]

theorem parse_text_oddConstants :
    (∀ x, oddConstants.IsPart (.number x) → x.isFinite = true) ∧
      EquationSet.parse oddConstants.text = .ok oddConstants := by
  have hparts : ∀ a, oddConstants.IsPart a → ∃ x : Number, x.isFinite = true ∧
      (a = .node Element.const.name [.number x] ∨ a = .number x) := by
    intro a ha
    induction ha with
    | whole hrhs =>
      rcases List.mem_cons.mp (SortedMap.get?_eq_some_iff.mp hrhs) with heq | hmem
      · cases heq
        exact ⟨_, by decide, .inl rfl⟩
      · cases List.mem_singleton.mp hmem
        exact ⟨_, by decide, .inl rfl⟩
    | argument _ ha ih =>
      obtain ⟨x, hx, heq | heq⟩ := ih
      · cases heq
        exact ⟨x, hx, .inr (List.mem_singleton.mp ha)⟩
      · cases heq
  have hfinite : ∀ x, oddConstants.IsPart (.number x) → x.isFinite = true := by
    intro x hx
    obtain ⟨y, hy, heq | heq⟩ := hparts _ hx
    · cases heq
    · cases heq
      exact hy
  exact ⟨hfinite, EquationSet.parse_text oddConstants hfinite⟩

end DiffAnalyzer
