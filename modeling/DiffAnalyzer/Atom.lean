/-!
# Atoms

An atom names a variable or a computing element: a letter or underscore followed by
letters, digits, underscores, points and primes.  Fresh names are made from an atom
by numbering it and by padding it with underscores (`Atom.free?`).
-/

namespace DiffAnalyzer

def isNameStart (c : Char) : Bool := c.isAlpha || c == '_'

def isNamePart (c : Char) : Bool := c.isAlphanum || c == '_' || c == '.' || c == '\x27'

def isName : List Char → Bool
  | [] => false
  | c :: rest => isNameStart c && rest.all isNamePart

/-- An identifier of the circuit language. -/
@[ext]
structure Atom where
  chars : List Char
  valid : isName chars = true
deriving DecidableEq, Repr

namespace Atom

def ofChars? (chars : List Char) : Option Atom :=
  if h : isName chars then some ⟨chars, h⟩ else none

@[simp] theorem ofChars?_chars (a : Atom) : ofChars? a.chars = some a := by
  simp [ofChars?, a.valid]

theorem chars_of_ofChars? {cs : List Char} {a : Atom} (h : ofChars? cs = some a) :
    a.chars = cs := by
  unfold ofChars? at h
  split at h
  · rw [← Option.some.inj h]
  · cases h

instance : ToString Atom := ⟨fun a => String.ofList a.chars⟩

@[simp] theorem toList_toString (a : Atom) : (toString a).toList = a.chars := String.toList_ofList

theorem toString_injective {a b : Atom} (h : toString a = toString b) : a = b :=
  Atom.ext (by rw [← toList_toString, h, toList_toString])

/-- Atoms are ordered like their texts, character by character. -/
instance : Ord Atom where
  compare a b := compare a.chars b.chars

instance : Std.TransOrd Atom where
  eq_swap {a b} := @Std.OrientedCmp.eq_swap (List Char) compare _ a.chars b.chars
  isLE_trans {a b c} := @Std.TransCmp.isLE_trans (List Char) compare _ a.chars b.chars c.chars

instance : Std.LawfulEqOrd Atom where
  compare_self {a} := @Std.ReflCmp.compare_self (List Char) compare _ a.chars
  eq_of_compare h := Atom.ext (@Std.LawfulEqCmp.eq_of_compare (List Char) compare _ _ _ h)

/-- Extend an atom at the end. -/
def extend (a : Atom) (rest : List Char) (h : rest.all isNamePart = true) : Atom :=
  ⟨a.chars ++ rest, by
    have hv := a.valid
    cases hc : a.chars with
    | nil => rw [hc] at hv; cases hv
    | cons c cs => simp_all [isName]⟩

@[simp] theorem extend_chars (a : Atom) (rest : List Char) (h : rest.all isNamePart = true) :
    (a.extend rest h).chars = a.chars ++ rest := rfl

theorem isNamePart_of_isDigit {c : Char} (h : c.isDigit = true) : isNamePart c = true := by
  simp [isNamePart, Char.isAlphanum, h]

/-- The atom followed by an underscore and the number `n`. -/
def numbered (a : Atom) (n : Nat) : Atom :=
  a.extend ('_' :: Nat.toDigits 10 n) (by
    simp only [List.all_cons, List.all_eq_true, Bool.and_eq_true]
    exact ⟨by decide, fun c hc =>
      isNamePart_of_isDigit (Nat.isDigit_of_mem_toDigits (by decide) (by decide) hc)⟩)

/-- The atom followed by `k` underscores. -/
def padded (a : Atom) (k : Nat) : Atom :=
  a.extend (List.replicate k '_') (by
    simp only [List.all_eq_true]
    intro c hc
    rw [List.eq_of_mem_replicate hc]
    decide)

/-- How many underscores may be appended in search of a free name. -/
def maxPadding : Nat := 64

/-- The spellings tried for a name, in order. -/
def variants (a : Atom) : List Atom := (List.range (maxPadding + 1)).map a.padded

/-- The first variant of a name that is not taken. -/
def free? (a : Atom) (taken : Atom → Bool) : Option Atom :=
  a.variants.find? fun candidate => !taken candidate

theorem not_taken_of_free? {a b : Atom} {taken : Atom → Bool} (h : a.free? taken = some b) :
    taken b = false := by
  simpa using List.find?_some (p := fun candidate => !taken candidate) h

end Atom

end DiffAnalyzer
