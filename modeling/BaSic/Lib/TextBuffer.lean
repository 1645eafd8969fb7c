import Mathlib

namespace BaSic.Lib

/-- Lines of text and a cursor in them. -/
@[ext] structure TextBuffer (α : Type*) where
  lines : List (List α)
  row : Nat
  col : Nat

variable {α : Type*}

namespace TextBuffer

/-- The line of the cursor. -/
def line (t : TextBuffer α) : List α := t.lines.getD t.row []

/-- The cursor is in the text. -/
def Placed (t : TextBuffer α) : Prop := t.row < t.lines.length ∧ t.col ≤ t.line.length

/-- A character is put in at the cursor, if the line has less than `width`. -/
def insert (width : Nat) (t : TextBuffer α) (a : α) : TextBuffer α :=
  if t.line.length < width then { t with lines := t.lines.set t.row (t.line.insertIdx t.col a), col := t.col + 1 }
  else t

/-- What is behind the cursor becomes a line of its own, if there are less than `height`. -/
def newline (height : Nat) (t : TextBuffer α) : TextBuffer α :=
  if t.lines.length < height then
    ⟨(t.lines.set t.row (t.line.take t.col)).insertIdx (t.row + 1) (t.line.drop t.col), t.row + 1, 0⟩
  else t

/-- The line joins the one before, if the two fit. -/
def join (width : Nat) (t : TextBuffer α) : TextBuffer α :=
  let prev := t.lines.getD (t.row - 1) []
  if prev.length + t.line.length ≤ width then
    ⟨(t.lines.set (t.row - 1) (prev ++ t.line)).eraseIdx t.row, t.row - 1, prev.length⟩
  else t

/-- The character before the cursor goes, or the end of the line before. -/
def backspace (width : Nat) (t : TextBuffer α) : TextBuffer α :=
  if t.col = 0 then if t.row = 0 then t else t.join width
  else { t with lines := t.lines.set t.row (t.line.eraseIdx (t.col - 1)), col := t.col - 1 }

/-- The line goes, or becomes empty if it is the only one; the cursor stays in the text. -/
def deleteLine (t : TextBuffer α) : TextBuffer α :=
  if t.lines.length = 1 then ⟨[[]], t.row, 0⟩
  else
    let lines := t.lines.eraseIdx t.row
    let row := min t.row (lines.length - 1)
    ⟨lines, row, min t.col (lines.getD row []).length⟩

variable {t : TextBuffer α} {width height : Nat} {a : α}

/-- A line set to what it is. -/
theorem set_line (h : t.row < t.lines.length) : t.lines.set t.row t.line = t.lines := by
  unfold line
  rw [List.getD_eq_getElem _ _ h, List.set_getElem_self]

theorem line_set (h : t.row < t.lines.length) (l : List α) (col : Nat) :
    line ⟨t.lines.set t.row l, t.row, col⟩ = l := by
  unfold line
  rw [List.getD_eq_getElem _ _ (by rw [List.length_set]; exact h), List.getElem_set_self]

theorem line_insert {lines : List (List α)} {row : Nat} (h : row ≤ lines.length) (l : List α) (col : Nat) :
    line ⟨lines.insertIdx row l, row, col⟩ = l := by
  unfold line
  rw [List.getD_eq_getElem?_getD, List.getElem?_insertIdx_self, if_pos h]
  rfl

theorem backspace_insert (h : t.Placed) (hfits : t.line.length < width) : (t.insert width a).backspace width = t := by
  unfold insert
  rw [if_pos hfits]
  unfold backspace
  rw [if_neg (Nat.succ_ne_zero _)]
  refine TextBuffer.ext ?_ rfl rfl
  rw [line_set h.1, Nat.add_sub_cancel, List.eraseIdx_insertIdx_self, List.set_set]
  exact set_line h.1

theorem backspace_newline (h : t.Placed) (hfits : t.line.length ≤ width) (hroom : t.lines.length < height) :
    (t.newline height).backspace width = t := by
  have hbelow : t.row + 1 ≤ (t.lines.set t.row (t.line.take t.col)).length := by
    rw [List.length_set]
    exact h.1
  have hprev : ((t.lines.set t.row (t.line.take t.col)).insertIdx (t.row + 1) (t.line.drop t.col)).getD t.row []
      = t.line.take t.col := by
    rw [List.getD_eq_getElem?_getD, List.getElem?_insertIdx_of_lt (Nat.lt_succ_self _),
      List.getElem?_set_self h.1]
    rfl
  have hlen : (t.line.take t.col).length + (t.line.drop t.col).length ≤ width := by
    rw [← List.length_append, List.take_append_drop]
    exact hfits
  unfold newline
  rw [if_pos hroom]
  unfold backspace
  rw [if_pos rfl, if_neg (Nat.succ_ne_zero _)]
  unfold join
  dsimp only
  rw [Nat.add_sub_cancel, line_insert hbelow, hprev, if_pos hlen, List.take_append_drop,
    List.eraseIdx_set_gt (Nat.lt_succ_self _), List.eraseIdx_insertIdx_self, List.set_set, set_line h.1,
    List.length_take, Nat.min_eq_left h.2]

end TextBuffer

end BaSic.Lib
