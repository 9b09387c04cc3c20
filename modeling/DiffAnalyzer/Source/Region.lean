/-!
# Regions of a text

A region is a part of a text with what stands before and after it.  To show it to a
reader it is widened to whole lines; an empty region stands for the next character, or
for the last one at the end of the text.
-/

namespace DiffAnalyzer

/-- The number of bytes of a text in UTF-8. -/
def utf8Size (text : List Char) : Nat := text.foldr (fun c size => c.utf8Size + size) 0

/-- What follows the last line feed of a text. -/
def lastLine (text : List Char) : List Char := (text.reverse.takeWhile (· != '\n')).reverse

/-- A text up to its last line feed. -/
def fullLines (text : List Char) : List Char := (text.reverse.dropWhile (· != '\n')).reverse

/-- A text up to its first line feed. -/
def firstLine : List Char → List Char
  | [] => []
  | c :: rest => if c = '\n' then [c] else c :: firstLine rest

theorem fullLines_append_lastLine (text : List Char) : fullLines text ++ lastLine text = text := by
  rw [fullLines, lastLine, ← List.reverse_append, List.takeWhile_append_dropWhile,
    List.reverse_reverse]

theorem not_mem_lastLine (text : List Char) : '\n' ∉ lastLine text := fun h => by
  have hall : (text.reverse.takeWhile (· != '\n')).all (· != '\n') := List.all_takeWhile
  simpa using List.all_eq_true.mp hall '\n' (List.mem_reverse.mp h)

theorem firstLine_isPrefix (text : List Char) : firstLine text <+: text := by
  induction text with
  | nil => exact List.prefix_refl _
  | cons c rest ih =>
    rw [firstLine]
    split
    · exact ⟨rest, rfl⟩
    · obtain ⟨t, ht⟩ := ih
      exact ⟨t, by rw [List.cons_append, ht]⟩

/-- A part of a text. -/
structure Region where
  before : List Char
  inside : List Char
  after : List Char
deriving DecidableEq, Repr

/-- A region on whole lines. -/
structure Excerpt where
  /-- The lines before. -/
  skipped : List Char
  /-- What stands before the region on its first line. -/
  lead : List Char
  marked : List Char
  /-- What stands behind the region up to the end of a line, a line feed included. -/
  trail : List Char
deriving DecidableEq, Repr

namespace Region

/-- The empty region at a position, and the region of the first `length` characters
behind it. -/
def ofPosition (text : List Char) (position length : Nat) : Region :=
  ⟨text.take position, (text.drop position).take length, (text.drop position).drop length⟩

def text (r : Region) : List Char := r.before ++ r.inside ++ r.after

/-- The region itself, or a character beside it if it is empty. -/
def visible (r : Region) : Region :=
  match r.inside, r.after, r.before.getLast? with
  | [], c :: after, _ => ⟨r.before, [c], after⟩
  | [], [], some c => ⟨r.before.dropLast, [c], []⟩
  | _, _, _ => r

def excerpt (r : Region) : Excerpt :=
  let v := r.visible
  ⟨fullLines v.before, lastLine v.before, v.inside, firstLine v.after⟩

end Region

namespace Excerpt

def text (e : Excerpt) : List Char := e.lead ++ e.marked ++ e.trail

/-- The number of the first line, counted from one. -/
def lineNumber (e : Excerpt) : Nat := e.skipped.count '\n' + 1

/-- Where the region starts and ends, in bytes of the excerpt. -/
def byteRange (e : Excerpt) : Nat × Nat :=
  (utf8Size e.lead, utf8Size e.lead + utf8Size e.marked)

end Excerpt

end DiffAnalyzer
