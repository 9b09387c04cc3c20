import DiffAnalyzer.Source.CharWidth
import DiffAnalyzer.Source.Span

/-!
# Diagnostics

A diagnostic shows a region of a source text: a title, the place, the lines of the
region with their numbers, and under them carets with a message.

The region is located by its offsets in bytes, and those are looked up among the
characters of the excerpt; where the two differ the carets stand further right, and an
excerpt too short for them cannot be shown at all.
-/

namespace DiffAnalyzer

/-- A message about a region of a source file. -/
structure Diagnostic where
  title : String
  message : String
  filename : String
  region : Region
deriving DecidableEq, Repr

namespace Diagnostic

/-- A line of an excerpt. -/
structure SourceLine where
  number : Nat
  text : List Char
  /-- The offset of the first character in the excerpt. -/
  start : Nat

/-- The offset behind the last character. -/
def SourceLine.stop (line : SourceLine) : Nat := line.start + line.text.length

/-- The columns of the first `count` characters; the end of the line is one column. -/
def SourceLine.columns (line : SourceLine) (count : Nat) : Nat :=
  ((line.text.map charWidth ++ [1]).take count).foldl (· + ·) 0

/-- The lines of a text with the line feeds that end them. -/
def splitLines : List Char → List (List Char)
  | [] => []
  | c :: rest =>
    if c = '\n' then [c] :: splitLines rest
    else
      match splitLines rest with
      | [] => [[c]]
      | line :: lines => (c :: line) :: lines

/-- A line without its end. -/
def withoutEnd (line : List Char) : List Char :=
  match line.reverse with
  | '\n' :: '\r' :: rest => rest.reverse
  | '\n' :: rest => rest.reverse
  | _ => line

/-- Number lines and count their offsets. -/
def numberLines : (number start : Nat) → List (List Char) → List SourceLine
  | _, _, [] => []
  | number, start, line :: lines =>
    ⟨number, withoutEnd line, start⟩ :: numberLines (number + 1) (start + line.length) lines

/-- What is drawn under a line: `indent` up to a column, carets from there on, and the
message unless the region goes on below. -/
structure Pointer where
  indent : Char
  column : Nat
  carets : Nat
  labelled : Bool

/-- A line and what is drawn about it. -/
structure Row where
  line : SourceLine
  /-- The mark before the line, if the region starts with it or comes from above. -/
  margin : Option Char
  pointer : Option Pointer
  /-- The region ends here. -/
  final : Bool

/-- Draw the part of the region from offset `a` to offset `z` that is in a line. -/
def drawLine (a z : Nat) (line : SourceLine) : Row :=
  if line.stop < a then ⟨line, none, none, false⟩
  else if line.start ≤ a ∧ (z ≤ line.stop ∨ a = line.stop ∧ z - a ≤ 1) then
    let column := line.columns (a - line.start)
    ⟨line, none, some ⟨' ', column, line.columns (z - line.start) - column, true⟩, true⟩
  else if a = line.start then ⟨line, some '/', none, false⟩
  else if line.start < a then
    ⟨line, none, some ⟨'_', line.columns (a - line.start), 1, false⟩, false⟩
  else if line.stop < z then ⟨line, some '|', none, false⟩
  else if line.start ≤ z then
    ⟨line, some '|', some ⟨'_', line.columns (z - line.start) - 1, 1, true⟩, true⟩
  else ⟨line, none, none, false⟩

/-- Draw lines up to the end of the region. -/
def drawLines (a z : Nat) : List SourceLine → List Row
  | [] => []
  | line :: lines =>
    let row := drawLine a z line
    row :: if row.final then [] else drawLines a z lines

/-- Leave out the rows below the last pointer. -/
def throughLastPointer (rows : List Row) : List Row :=
  (rows.reverse.dropWhile fun row => row.pointer.isNone).reverse

/-- Line and column of an offset, if it is in a row. -/
def location (a : Nat) (rows : List Row) : Nat × Nat :=
  match rows.find? fun row => row.line.start ≤ a && a ≤ row.line.stop with
  | some row => (row.line.number, a - row.line.start + 1)
  | none => (1, 1)

/-- The styles of a diagnostic on a terminal. -/
inductive Style where
  | title
  | error
  | frame

def Style.code : Style → String
  | .title => "1"
  | .error => "1;38;5;9"
  | .frame => "1;38;5;12"

/-- A text in a style, or plain without colours. -/
def paint (color : Bool) (style : Style) (text : String) : String :=
  if color then "\x1b[" ++ style.code ++ "m" ++ text ++ "\x1b[0m" else text

def repeated (count : Nat) (c : Char) : String := String.ofList (List.replicate count c)

/-- The line number and the bar behind it. -/
def gutter (color : Bool) (width : Nat) (number : Option Nat) : String :=
  let digits := (number.map toString).getD ""
  paint color .frame (repeated (width - digits.length) ' ' ++ digits ++ " |")

/-- The column between bar and line; it is there if any row has a mark in it. -/
def marginText (color wide : Bool) (margin : Option Char) : String :=
  match wide, margin with
  | false, _ => ""
  | true, none => "  "
  | true, some c => " " ++ paint color .error c.toString

def pointerText (color : Bool) (message : String) (p : Pointer) : String :=
  paint color .error (repeated (p.column + 1) p.indent ++ repeated p.carets '^') ++
    if p.labelled then " " ++ paint color .error message else ""

/-- The mark before the line drawn under a row: a region that ends there comes from
above. -/
def Row.pointerMargin (row : Row) : Option Char := if row.final then row.margin else none

def rowLines (color : Bool) (width : Nat) (wide : Bool) (message : String) (row : Row) :
    List String :=
  (gutter color width (some row.line.number) ++ marginText color wide row.margin ++ " " ++
      String.ofList row.line.text) ::
    match row.pointer with
    | none => []
    | some p =>
      [gutter color width none ++ marginText color wide row.pointerMargin ++
        pointerText color message p]

/-- The text of a diagnostic, if the lines of its region are long enough for it. -/
def render (color : Bool) (d : Diagnostic) : Option String :=
  match d.region.span.lines with
  | .ok (some lines) =>
    let (a, z) := lines.range
    if lines.text.length < z then none
    else
      let rows := throughLastPointer
        (drawLines a z (numberLines lines.number 0 (splitLines lines.text)))
      let width := ((rows.getLast?.map fun row => (toString row.line.number).length)).getD 0
      let wide := rows.any fun row => row.margin.isSome
      let (line, column) := location a rows
      let place := d.filename ++ ":" ++ toString line ++ ":" ++ toString column
      some <| "\n".intercalate <|
        [paint color .error "error" ++ ": " ++ paint color .title d.title,
          repeated width ' ' ++ paint color .frame "-->" ++ " " ++ place,
          gutter color width none] ++
        rows.flatMap (rowLines color width wide d.message) ++
        [gutter color width none]
  | _ => none

end Diagnostic

end DiffAnalyzer
