import Mathlib

namespace BaSic.Lib

/-- What a character does to a terminal. -/
inductive TermOp (α : Type*) where
  | lineFeed
  | home
  | tab
  | rubOut
  | put (a : α)

/-- A terminal with rows without end. -/
structure Terminal (α : Type*) where
  x : Nat
  y : Nat
  cell : Nat → Nat → α

variable {α : Type*} {w k h : Nat} {blank : α} {t : Terminal α}

def Terminal.cleared (blank : α) : Terminal α := ⟨0, 0, fun _ _ => blank⟩

def Terminal.set (t : Terminal α) (a : α) : Terminal α :=
  { t with cell := Function.update t.cell t.y (Function.update (t.cell t.y) t.x a) }

/-- The cursor goes to the next row when it has left its own. -/
def Terminal.wrap (w : Nat) (t : Terminal α) : Terminal α := if w ≤ t.x then { t with x := 0, y := t.y + 1 } else t

/-- Tabs stop at the multiples of `k`, and a rubbed out cell is blank. -/
def Terminal.act (k : Nat) (blank : α) (t : Terminal α) : TermOp α → Terminal α
  | .lineFeed => { t with x := 0, y := t.y + 1 }
  | .home => { t with x := 0 }
  | .tab => { t with x := (t.x / k + 1) * k }
  | .rubOut => if 0 < t.x then { t with x := t.x - 1 }.set blank else t
  | .put a => { t.set a with x := t.x + 1 }

/-- A terminal with rows of `w` cells. -/
def Terminal.step (w k : Nat) (blank : α) (t : Terminal α) (op : TermOp α) : Terminal α := (t.act k blank op).wrap w

/-- The last `h` rows, or the first ones while there are no more. -/
def Terminal.shown (h : Nat) (t : Terminal α) (row col : Nat) : α := t.cell (t.y - (h - 1) + row) col

/-- The cursor is inside its row, and nothing has been written below. -/
structure Terminal.Open (w : Nat) (blank : α) (t : Terminal α) : Prop where
  inside : t.x < w
  below : ∀ row col, t.y < row → t.cell row col = blank

theorem Terminal.set_cell (t : Terminal α) (a : α) (row col : Nat) :
    (t.set a).cell row col = if row = t.y ∧ col = t.x then a else t.cell row col := by
  unfold set
  dsimp only
  by_cases hrow : row = t.y
  · subst hrow
    rw [Function.update_self, Function.update_apply]
    simp
  · rw [Function.update_of_ne hrow, if_neg (fun hc => hrow hc.1)]

theorem Terminal.cleared_open (hw : 0 < w) : (Terminal.cleared blank).Open w blank := ⟨hw, fun _ _ _ => rfl⟩

theorem Terminal.act_y (t : Terminal α) (op : TermOp α) :
    t.y ≤ (t.act k blank op).y ∧ ((t.act k blank op).y = t.y ∨ (t.act k blank op).y = t.y + 1 ∧ (t.act k blank op).x = 0) := by
  cases op with
  | lineFeed => exact ⟨Nat.le_succ _, Or.inr ⟨rfl, rfl⟩⟩
  | rubOut =>
    dsimp only [act]
    split_ifs
    · exact ⟨Nat.le_refl _, Or.inl rfl⟩
    · exact ⟨Nat.le_refl _, Or.inl rfl⟩
  | home | tab | put => exact ⟨Nat.le_refl _, Or.inl rfl⟩

/-- A character leads to the next row at most. -/
theorem Terminal.step_y (hw : 0 < w) (t : Terminal α) (op : TermOp α) :
    t.y ≤ (t.step w k blank op).y ∧ (t.step w k blank op).y ≤ t.y + 1 := by
  obtain ⟨hle, hy⟩ : t.y ≤ (t.act k blank op).y ∧ _ := t.act_y op
  unfold Terminal.step wrap
  split_ifs with hx
  · dsimp only
    omega
  · omega

/-- A character touches nothing below the cursor. -/
theorem Terminal.act_cell (t : Terminal α) (op : TermOp α) {row : Nat} (hrow : t.y < row) (col : Nat) :
    (t.act k blank op).cell row col = t.cell row col := by
  cases op with
  | rubOut =>
    dsimp only [act]
    split_ifs
    · rw [set_cell, if_neg (fun hc => Nat.ne_of_gt hrow hc.1)]
    · rfl
  | put a =>
    dsimp only [act]
    rw [set_cell, if_neg (fun hc => Nat.ne_of_gt hrow hc.1)]
  | lineFeed | home | tab => rfl

theorem Terminal.step_cell (t : Terminal α) (op : TermOp α) {row : Nat} (hrow : t.y < row) (col : Nat) :
    (t.step w k blank op).cell row col = t.cell row col := by
  rw [← t.act_cell op hrow col]
  unfold Terminal.step wrap
  split_ifs
  · rfl
  · rfl

theorem Terminal.step_inside (hw : 0 < w) (t : Terminal α) (op : TermOp α) : (t.step w k blank op).x < w := by
  unfold Terminal.step wrap
  split_ifs with hx
  · exact hw
  · exact Nat.lt_of_not_le hx

theorem Terminal.Open.step (ht : t.Open w blank) (op : TermOp α) : (t.step w k blank op).Open w blank := by
  have hw : 0 < w := Nat.lt_of_le_of_lt (Nat.zero_le _) ht.inside
  refine ⟨step_inside hw t op, fun row col hrow => ?_⟩
  have hold : t.y < row := Nat.lt_of_le_of_lt (step_y hw t op).1 hrow
  rw [t.step_cell op hold col, ht.below row col hold]

end BaSic.Lib
