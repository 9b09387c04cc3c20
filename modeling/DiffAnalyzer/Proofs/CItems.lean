import DiffAnalyzer.CSource.Text
import DiffAnalyzer.Proofs.Writing
import Mathlib

/-!
# The top level of a C text

`CSource.items` divides a C text into blocks and the lines between them.  A block goes from a
line with an opening brace at its end to the next one with a closing brace at its start.  Texts
that are divided into items can be joined (`CSource.HasItems.append`).
-/

namespace DiffAnalyzer

namespace CSource

inductive Item where
  | line (text : List Char)
  | block (head : List Char) (body : List (List Char)) (foot : List Char)
deriving DecidableEq, Repr

def opens (line : List Char) : Bool := line.getLast? == some '\x7b'

def closes (line : List Char) : Bool := line.head? == some '\x7d'

/-- The items of lines that may come inside a block, whose head and first lines are given. -/
def itemsFrom : Option (List Char × List (List Char)) → List (List Char) → List Item
  | _, [] => []
  | none, line :: rest =>
    if opens line then itemsFrom (some (line, [])) rest else .line line :: itemsFrom none rest
  | some (head, body), line :: rest =>
    if closes line then .block head body line :: itemsFrom none rest
    else itemsFrom (some (head, body ++ [line])) rest

def items (text : List Char) : List Item := itemsFrom none (text.splitOn '\n')

/-- The text is divided into the items, whatever comes behind it. -/
def HasItems (text : String) (is : List Item) : Prop :=
  ∀ rest, items (text.toList ++ rest) = is ++ items rest

theorem splitOn_line {line : List Char} (h : '\n' ∉ line) (rest : List Char) :
    (line ++ '\n' :: rest).splitOn '\n' = line :: rest.splitOn '\n' := by
  have hne : ∀ c ∈ line, (c == '\n') = false := by
    intro c hc
    rw [beq_eq_false_iff_ne]
    rintro rfl
    exact h hc
  simp only [List.splitOn_eq_splitOnP]
  exact List.splitOnP_append_cons_of_forall_mem hne '\n' (beq_self_eq_true _) rest

@[simp] theorem linesText_nil : linesText [] = "" := rfl

@[simp] theorem linesText_cons (line : String) (lines : List String) :
    linesText (line :: lines) = line ++ "\n" ++ linesText lines := by
  rw [linesText, List.map_cons, intercalate_empty_cons]
  rfl

@[simp] theorem linesText_append (front back : List String) :
    linesText (front ++ back) = linesText front ++ linesText back := by
  induction front with
  | nil => simp
  | cons line front ih => simp [ih, String.append_assoc]

theorem linesText_flatMap {α : Type} (f : α → List String) (l : List α) :
    "".intercalate (l.map fun x => linesText (f x)) = linesText (l.flatMap f) := by
  induction l with
  | nil => rfl
  | cons x l ih =>
    rw [List.map_cons, intercalate_empty_cons, ih, List.flatMap_cons, linesText_append]

theorem splitOn_linesText {lines : List String} (h : ∀ line ∈ lines, '\n' ∉ line.toList) :
    (linesText lines).toList.splitOn '\n' = lines.map String.toList ++ [[]] := by
  induction lines with
  | nil => simp
  | cons line lines ih =>
    obtain ⟨hline, h⟩ := List.forall_mem_cons.mp h
    have htext : (linesText (line :: lines)).toList =
        line.toList ++ '\n' :: (linesText lines).toList := by simp
    rw [htext, splitOn_line hline, ih h, List.map_cons, List.cons_append]

namespace HasItems

variable {text text' : String} {is js : List Item}

theorem empty : HasItems "" [] := fun _ => rfl

theorem append (h : HasItems text is) (h' : HasItems text' js) :
    HasItems (text ++ text') (is ++ js) := fun rest => by
  rw [String.toList_append, List.append_assoc, h, h', List.append_assoc]

theorem congr (h : HasItems text is) (htext : text.toList = text'.toList) : HasItems text' is :=
  fun rest => htext ▸ h rest

theorem line {line : String} (hline : '\n' ∉ line.toList) (hopens : opens line.toList = false) :
    HasItems (line ++ "\n") [.line line.toList] := fun rest => by
  have htext : (line ++ "\n").toList ++ rest = line.toList ++ '\n' :: rest := by simp
  rw [htext, items, splitOn_line hline, itemsFrom, if_neg (Bool.eq_false_iff.mp hopens)]
  rfl

theorem emptyLine : HasItems "\n" [.line []] := by
  have h : HasItems ("" ++ "\n") [.line "".toList] := line (by simp) (by simp [opens])
  rw [String.empty_append] at h
  exact h

theorem lines {lines : List String}
    (h : ∀ line ∈ lines, '\n' ∉ line.toList ∧ opens line.toList = false) :
    HasItems (linesText lines) (lines.map fun line => .line line.toList) := by
  induction lines with
  | nil => exact empty
  | cons line lines ih =>
    obtain ⟨hline, h⟩ := List.forall_mem_cons.mp h
    rw [linesText_cons]
    exact (HasItems.line hline.1 hline.2).append (ih h)

/-- The lines of a block are collected up to the one that closes it. -/
theorem itemsFrom_body {head : List Char} {foot : String} {body : List String}
    (hbody : ∀ line ∈ body, '\n' ∉ line.toList ∧ closes line.toList = false)
    (hfoot : '\n' ∉ foot.toList ∧ closes foot.toList = true) (front : List (List Char))
    (rest : List Char) :
    itemsFrom (some (head, front))
        (((linesText body).toList ++ (foot.toList ++ '\n' :: rest)).splitOn '\n') =
      .block head (front ++ body.map String.toList) foot.toList :: items rest := by
  induction body generalizing front with
  | nil =>
    rw [linesText_nil, String.toList_empty, List.nil_append, splitOn_line hfoot.1, itemsFrom,
      if_pos hfoot.2, List.map_nil, List.append_nil]
    rfl
  | cons line body ih =>
    obtain ⟨hline, hbody⟩ := List.forall_mem_cons.mp hbody
    have htext : (linesText (line :: body)).toList ++ (foot.toList ++ '\n' :: rest) =
        line.toList ++ '\n' :: ((linesText body).toList ++ (foot.toList ++ '\n' :: rest)) := by
      simp
    rw [htext, splitOn_line hline.1, itemsFrom, if_neg (Bool.eq_false_iff.mp hline.2), ih hbody,
      List.append_assoc, List.singleton_append, List.map_cons]

theorem block {head foot : String} {body : List String}
    (hhead : '\n' ∉ head.toList ∧ opens head.toList = true)
    (hbody : ∀ line ∈ body, '\n' ∉ line.toList ∧ closes line.toList = false)
    (hfoot : '\n' ∉ foot.toList ∧ closes foot.toList = true) :
    HasItems (head ++ "\n" ++ linesText body ++ foot ++ "\n")
      [.block head.toList (body.map String.toList) foot.toList] := fun rest => by
  have htext : (head ++ "\n" ++ linesText body ++ foot ++ "\n").toList ++ rest =
      head.toList ++ '\n' :: ((linesText body).toList ++ (foot.toList ++ '\n' :: rest)) := by
    simp
  rw [htext, items, splitOn_line hhead.1, itemsFrom, if_pos hhead.2, itemsFrom_body hbody hfoot]
  rfl

/-- A block of the top level comes behind an empty line. -/
theorem topBlock {head foot : String} {body : List String}
    (hhead : '\n' ∉ head.toList ∧ opens head.toList = true)
    (hbody : ∀ line ∈ body, '\n' ∉ line.toList ∧ closes line.toList = false)
    (hfoot : '\n' ∉ foot.toList ∧ closes foot.toList = true)
    (htext : text.toList = '\n' :: (head.toList ++
      '\n' :: ((linesText body).toList ++ (foot.toList ++ ['\n'])))) :
    HasItems text [.line [], .block head.toList (body.map String.toList) foot.toList] := by
  refine (emptyLine.append (block hhead hbody hfoot)).congr ?_
  rw [htext]
  simp

end HasItems

end CSource

end DiffAnalyzer
