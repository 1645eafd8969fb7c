import BaSic.Kernel.ShellRun
import BaSic.Lib.Steps
import BaSic.Lib.Tabulate

namespace BaSic.Proofs.CmdBounds
open Kernel Lib

/-- The number of entries and the one being shown; the two numbers after the largest `int` are
the smallest ones, and both still lead to a row. -/
def Counted (count idx : Int) : Prop :=
  (0 ≤ count ∧ count < 2147483648) ∧ (idx = -1 ∨ 0 ≤ idx ∧ idx < count) ∨
    count = -2147483648 ∧ (idx = -1 ∨ 0 ≤ idx ∧ idx < 2147483648) ∨
      count = -2147483647 ∧ (idx = -1 ∨ idx = -2147483648)

/-- The buffer and the rows end in a NUL, whatever the cursor. -/
structure Room (s : CmdLine) : Prop where
  len : 0 ≤ s.cmdLen ∧ s.cmdLen ≤ 77
  last : s.cmdBuf 77 = 0
  rows : ∀ slot, s.history slot 77 = 0
  counted : Counted s.historyCount s.historyIdx

/-- Between two keys the cursor is in the line, which has no NUL. -/
structure Good (s : CmdLine) : Prop extends Room s where
  cursor : 0 ≤ s.cursorPos ∧ s.cursorPos ≤ s.cmdLen
  filled : ∀ i, 0 ≤ i → i < s.cmdLen → s.cmdBuf i ≠ 0

/-- A number that leads to a row. -/
def HasRow (i : Int) : Prop := 0 ≤ i ∨ i = -2147483648

/-- What a pass over an array finds: the characters of the kind, up to one that is not. -/
structure Spans (go : UInt8 → Bool) (a : Int → UInt8) (i : Int) (n : Nat) (text : List UInt8) : Prop where
  eq : text = tabulate text.length (fun k => a (i + k))
  le : text.length ≤ n
  kind : ∀ c ∈ text, go c = true
  stop : text.length < n → go (a (i + text.length)) = false

variable {s s' : CmdLine} {a : Int → UInt8} {i j col : Int} {n k : Nat} {text line : List UInt8} {go : UInt8 → Bool}

/-- A pass that meets a character of another kind stays in the array. -/
theorem span_ok (go : UInt8 → Bool) (h₀ : 0 ≤ i) (hij : i ≤ j) (hj : j < 78) (hstop : go (a j) = false) (n : Nat) :
    ∃ text, spanFrom go a i n = .ok text ∧ Spans go a i n text ∧ i + text.length ≤ j := by
  induction n generalizing i with
  | zero =>
    refine ⟨[], rfl, ⟨rfl, Nat.le_refl _, fun c hc => ?_, fun h => ?_⟩, ?_⟩
    · cases hc
    · exact absurd h (Nat.lt_irrefl _)
    · exact (Int.add_zero i).trans_le hij
  | succ n ih =>
    have hin : 0 ≤ i ∧ i < cmdBufSize := ⟨h₀, by unfold cmdBufSize; omega⟩
    unfold spanFrom
    rw [if_pos hin]
    cases hgo : go (a i) with
    | false =>
      refine ⟨[], by rw [if_neg Bool.false_ne_true], ⟨rfl, Nat.zero_le _, fun c hc => ?_, fun _ => ?_⟩, ?_⟩
      · cases hc
      · exact (congrArg (fun k => go (a k)) (Int.add_zero i)).trans hgo
      · exact (Int.add_zero i).trans_le hij
    | true =>
      have hne : i ≠ j := by
        rintro rfl
        cases hgo.symm.trans hstop
      obtain ⟨text, htext, hspans, hle⟩ := ih (i := i + 1) (by omega) (by omega)
      have hshift : ∀ k : Nat, i + 1 + k = i + ((k + 1 : Nat) : Int) := fun k => by omega
      have hlast : i + 1 + text.length = i + ((a i :: text).length : Nat) := hshift text.length
      refine ⟨a i :: text, ?_, ⟨?_, ?_, fun c hc => ?_, fun h => ?_⟩, ?_⟩
      · rw [if_pos rfl, htext]
        rfl
      · rw [List.length_cons, tabulate_succ]
        have hrest := hspans.eq
        simp only [hshift] at hrest
        rw [← hrest]
        exact congrArg (· :: text) (congrArg a (Int.add_zero i).symm)
      · exact Nat.succ_le_succ hspans.le
      · rcases List.mem_cons.mp hc with rfl | hc
        · exact hgo
        · exact hspans.kind c hc
      · rw [← hlast]
        exact hspans.stop (Nat.lt_of_succ_lt_succ h)
      · rw [← hlast]
        exact hle

/-- A string in an array that ends in a NUL. -/
theorem str_ok (hlast : a 77 = 0) (h₀ : 0 ≤ i) (h₁ : i ≤ 77) :
    ∃ text, strAt a i = .ok text ∧ i + text.length ≤ 77 ∧ (0 : UInt8) ∉ text ∧
      text = tabulate text.length (fun k => a (i + k)) ∧ a (i + text.length) = 0 := by
  have hend : decide (a 77 ≠ 0) = false := by simp [hlast]
  obtain ⟨text, htext, hspans, hle⟩ := span_ok (· ≠ 0) h₀ h₁ (by decide) hend unlimited
  refine ⟨text, htext, hle, fun hmem => ?_, hspans.eq, ?_⟩
  · have hzero := hspans.kind 0 hmem
    simp at hzero
  · have hstop := hspans.stop (by unfold unlimited; omega)
    simpa using hstop

/-- What is copied of such a string. -/
theorem source_ok (hlast : a 77 = 0) : ∃ text, sourceAt a = .ok text ∧ text.length ≤ 77 ∧
    (0 : UInt8) ∉ text ∧ Spans (· ≠ 0) a 0 77 text := by
  have hend : decide (a 77 ≠ 0) = false := by simp [hlast]
  obtain ⟨text, htext, hspans, hle⟩ := span_ok (· ≠ 0) (Int.le_refl 0) (by decide : (0 : Int) ≤ 77)
    (by decide) hend (cmdBufSize - 1).toNat
  refine ⟨text, htext, hspans.le, fun hmem => ?_, hspans⟩
  have hzero := hspans.kind 0 hmem
  simp at hzero

theorem char_at_ok (h₀ : 0 ≤ i) (h₁ : i ≤ 77) : s.charAt i = .ok (s.cmdBuf i) :=
  if_pos ⟨h₀, by unfold cmdBufSize; omega⟩

theorem set_char_ok (h₀ : 0 ≤ i) (h₁ : i ≤ 77) (c : UInt8) :
    s.setChar i c = .ok { s with cmdBuf := Function.update s.cmdBuf i c } :=
  if_pos ⟨h₀, by unfold cmdBufSize; omega⟩

theorem slot_nonneg (h : HasRow i) : 0 ≤ i.tmod 32 := by
  rcases h with h | rfl
  · exact Int.tmod_nonneg 32 h
  · decide

theorem row_ok (h : Room s) (hi : HasRow i) :
    s.rowAt i = .ok (s.history (i.tmod historySize)) ∧ s.history (i.tmod historySize) 77 = 0 :=
  ⟨if_pos (slot_nonneg hi), h.rows _⟩

/-- Copying a string keeps the NUL at the end. -/
theorem copy_str_last (hlast : a 77 = 0) (src : List UInt8) : copyStr a src 77 = 0 := by
  unfold copyStr
  rw [if_pos (by decide), strncpy_from_apply, if_neg (by decide)]
  split
  · rfl
  · exact hlast

theorem line_chars_ok (h₀ : 0 ≤ i) (h₁ : i + k ≤ 78) : ∃ cs, lineChars s i k = .ok cs := by
  induction k generalizing i with
  | zero => exact ⟨[], rfl⟩
  | succ k ih =>
    obtain ⟨cs, hcs⟩ := ih (i := i + 1) (by omega) (by omega)
    unfold lineChars
    rw [char_at_ok h₀ (by omega), ok_bind, hcs, ok_bind]
    exact ⟨_, rfl⟩

theorem prompt_redraw_ok (h : s.cmdLen ≤ 77) (col : Int) : promptRedraw col s = .ok s := by
  obtain ⟨cs, hcs⟩ := line_chars_ok (s := s) (k := (min s.cmdLen (79 - col)).toNat) (Int.le_refl 0) (by omega)
  unfold promptRedraw
  rw [hcs]
  rfl

theorem echo_input_ok (h : s.cmdLen ≤ 77) (col : Int) : echoInput col s = .ok s := by
  obtain ⟨cs, hcs⟩ := line_chars_ok (s := s) (k := (min s.cmdLen (80 - col)).toNat) (Int.le_refl 0) (by omega)
  unfold echoInput
  rw [hcs]
  rfl

variable {count idx : Int}

theorem Counted.has_row (h : Counted count idx) (hne : count ≠ -2147483647) : HasRow count := by
  unfold Counted at h
  unfold HasRow
  omega

theorem wrap_int_eq {x : Int} (hlow : -2147483648 ≤ x) (hhigh : x < 2147483648) : wrapInt x = x := by
  unfold wrapInt
  omega

theorem Counted.push (h : Counted count idx) (hne : count ≠ -2147483647) : Counted (wrapInt (count + 1)) (-1) := by
  rcases h with ⟨hcount, -⟩ | ⟨rfl, -⟩ | ⟨rfl, -⟩
  · by_cases hlast : count = 2147483647
    · subst hlast
      exact Or.inr (Or.inl ⟨by decide, Or.inl rfl⟩)
    · rw [wrap_int_eq (by omega) (by omega)]
      exact Or.inl ⟨⟨by omega, by omega⟩, Or.inl rfl⟩
  · exact Or.inr (Or.inr ⟨by decide, Or.inl rfl⟩)
  · exact absurd rfl hne

/-- Going back leads to a row; that of the smallest `int` is row 0. -/
theorem Counted.up (h : Counted count idx) (hne : count ≠ 0) :
    let idx' := if idx = -1 then wrapInt (count - 1) else if idx > 0 then idx - 1 else idx
    Counted count idx' ∧ HasRow idx' := by
  intro idx'
  have hcases : idx' = if idx = -1 then wrapInt (count - 1) else if idx > 0 then idx - 1 else idx := rfl
  clear_value idx'
  by_cases hprompt : idx = -1
  · rw [if_pos hprompt] at hcases
    subst hcases
    rcases h with ⟨hcount, -⟩ | ⟨rfl, -⟩ | ⟨rfl, -⟩
    · rw [wrap_int_eq (by omega) (by omega)]
      exact ⟨Or.inl ⟨hcount, Or.inr ⟨by omega, by omega⟩⟩, Or.inl (by omega)⟩
    · exact ⟨Or.inr (Or.inl ⟨rfl, Or.inr (by decide)⟩), Or.inl (by decide)⟩
    · exact ⟨Or.inr (Or.inr ⟨rfl, Or.inr (by decide)⟩), Or.inr (by decide)⟩
  · rw [if_neg hprompt] at hcases
    rcases h with ⟨hcount, hidx⟩ | ⟨rfl, hidx⟩ | ⟨rfl, hidx⟩
    · obtain ⟨hlow, hhigh⟩ := hidx.resolve_left hprompt
      have hrow : 0 ≤ idx' ∧ idx' < count := by
        rw [hcases]
        split <;> omega
      exact ⟨Or.inl ⟨hcount, Or.inr hrow⟩, Or.inl hrow.1⟩
    · obtain ⟨hlow, hhigh⟩ := hidx.resolve_left hprompt
      have hrow : 0 ≤ idx' ∧ idx' < 2147483648 := by
        rw [hcases]
        split <;> omega
      exact ⟨Or.inr (Or.inl ⟨rfl, Or.inr hrow⟩), Or.inl hrow.1⟩
    · obtain rfl := hidx.resolve_left hprompt
      rw [hcases]
      exact ⟨Or.inr (Or.inr ⟨rfl, Or.inr (by decide)⟩), Or.inr (by decide)⟩

theorem Counted.down (h : Counted count idx) (hne : idx ≠ -1) (hlt : ¬ wrapInt (idx + 1) ≥ count) :
    Counted count (wrapInt (idx + 1)) ∧ HasRow (wrapInt (idx + 1)) := by
  rcases h with ⟨hcount, hidx⟩ | ⟨rfl, hidx⟩ | ⟨rfl, hidx⟩
  · obtain ⟨hlow, hhigh⟩ := hidx.resolve_left hne
    rw [wrap_int_eq (by omega) (by omega)] at hlt ⊢
    exact ⟨Or.inl ⟨hcount, Or.inr ⟨by omega, by omega⟩⟩, Or.inl (by omega)⟩
  · refine absurd ?_ hlt
    unfold wrapInt
    omega
  · obtain rfl := hidx.resolve_left hne
    exact absurd (by decide) hlt

theorem Counted.shown (h : Counted count idx) : Counted count (-1) := by
  unfold Counted at h ⊢
  omega

theorem Room.set (h : Room s) {c : UInt8} (hc : i = 77 → c = 0) :
    Room { s with cmdBuf := Function.update s.cmdBuf i c } := by
  refine ⟨h.len, ?_, h.rows, h.counted⟩
  dsimp only
  by_cases hi : (77 : Int) = i
  · rw [← hi, Function.update_self]
    exact hc hi.symm
  · rw [Function.update_of_ne hi]
    exact h.last

theorem clear_good (h : Room s) : Good s.clear :=
  ⟨⟨⟨Int.le_refl 0, (by decide : (0 : Int) ≤ 77)⟩, rfl, h.rows, h.counted⟩,
    ⟨Int.le_refl 0, Int.le_refl 0⟩, fun i h₀ h₁ => absurd h₁ (Int.not_lt.mpr h₀)⟩

/-- A string copied over the line, and the line and the cursor at its end. -/
theorem line_copied_good (h : Room s) (src : List UInt8) :
    ∃ line, strAt (copyStr s.cmdBuf src) 0 = .ok line ∧
      Good { s with cmdBuf := copyStr s.cmdBuf src, cmdLen := line.length, cursorPos := line.length } := by
  have hlast := copy_str_last h.last src
  obtain ⟨line, hline, hle, hnul, heq, -⟩ := str_ok hlast (Int.le_refl 0) (by decide : (0 : Int) ≤ 77)
  refine ⟨line, hline, ⟨⟨⟨?_, ?_⟩, hlast, h.rows, h.counted⟩, ⟨?_, ?_⟩, ?_⟩⟩
  all_goals dsimp only at *
  · omega
  · omega
  · omega
  · omega
  · intro i h₀ h₁ hzero
    refine hnul ?_
    rw [heq, mem_tabulate]
    exact ⟨i.toNat, by omega, by rw [← hzero]; congr 1; omega⟩

theorem recall_entry_good (h : Room s) (hcounted : Counted s.historyCount idx) (hrow : HasRow idx) :
    ∃ s', recallEntry { s with historyIdx := idx } = .ok s' ∧ Good s' := by
  have hroom : Room { s with historyIdx := idx } := ⟨h.len, h.last, h.rows, hcounted⟩
  obtain ⟨hrow, hlast⟩ := row_ok hroom hrow
  obtain ⟨src, hsrc, -, -, -⟩ := source_ok hlast
  obtain ⟨line, hline, hgood⟩ := line_copied_good hroom src
  unfold recallEntry
  rw [hrow, ok_bind, hsrc, ok_bind]
  dsimp only at hline ⊢
  rw [hline]
  exact ⟨_, rfl, hgood⟩

theorem Good.redraw (h : Good s) (col : Int) : ∃ s', promptRedraw col s = .ok s' ∧ Good s' :=
  ⟨s, prompt_redraw_ok h.len.2 col, h⟩

theorem history_up_good (h : Good s) : ∃ s', historyUp col s = .ok s' ∧ Good s' := by
  unfold historyUp
  by_cases hcount : s.historyCount = 0
  · rw [if_pos hcount]
    exact ⟨s, rfl, h⟩
  · rw [if_neg hcount]
    dsimp only
    obtain ⟨hcounted, hrow⟩ := h.counted.up hcount
    obtain ⟨s', hs', hgood⟩ := recall_entry_good h.toRoom hcounted hrow
    rw [hs', ok_bind]
    exact hgood.redraw col

theorem history_down_good (h : Good s) : ∃ s', historyDown col s = .ok s' ∧ Good s' := by
  unfold historyDown
  by_cases hidx : s.historyIdx = -1
  · rw [if_pos hidx]
    exact ⟨s, rfl, h⟩
  · rw [if_neg hidx]
    by_cases hlast : wrapInt (s.historyIdx + 1) ≥ s.historyCount
    · rw [if_pos hlast]
      exact (clear_good (s := { s with historyIdx := -1 }) ⟨h.len, h.last, h.rows, h.counted.shown⟩).redraw col
    · obtain ⟨hcounted, hrow⟩ := h.counted.down hidx hlast
      obtain ⟨s', hs', hgood⟩ := recall_entry_good h.toRoom hcounted hrow
      rw [if_neg hlast, hs', ok_bind]
      exact hgood.redraw col

theorem complete_good (h : Room s) (word : List UInt8) : ∃ s', complete s word = .ok s' ∧ Good s' := by
  obtain ⟨line, hline, hgood⟩ := line_copied_good h word
  have hlen := hgood.len
  dsimp only at hlen
  unfold complete cmdBufSize
  dsimp only
  rw [hline, ok_bind]
  by_cases hroom : (line.length : Int) < 78 - 1
  · have hset := hgood.toRoom.set (i := line.length) (c := 32) (fun h77 => by omega)
    rw [if_pos hroom, set_char_ok hlen.1 (by omega), ok_bind]
    refine ⟨_, rfl, ⟨⟨⟨?_, ?_⟩, hset.last, h.rows, h.counted⟩, ⟨?_, Int.le_refl _⟩, ?_⟩⟩
    all_goals dsimp only at *
    · omega
    · omega
    · omega
    · intro i h₀ h₁
      by_cases hi : i = line.length
      · rw [hi, Function.update_self]
        decide
      · rw [Function.update_of_ne hi]
        exact hgood.filled i h₀ (by dsimp only; omega)
  · rw [if_neg hroom]
    exact ⟨_, rfl, hgood⟩

theorem tab_complete_good (h : Good s) : ∃ s', tabComplete col s = .ok s' ∧ Good s' := by
  have hset := h.toRoom.set (i := s.cmdLen) (c := 0) (fun _ => rfl)
  have hgood : Good { s with cmdBuf := Function.update s.cmdBuf s.cmdLen 0 } := by
    refine ⟨hset, h.cursor, fun i h₀ h₁ => ?_⟩
    dsimp only at h₁ ⊢
    rw [Function.update_of_ne (by omega)]
    exact h.filled i h₀ h₁
  obtain ⟨typed, htyped, -⟩ := str_ok hset.last (Int.le_refl 0) (by decide : (0 : Int) ≤ 77)
  unfold tabComplete
  rw [set_char_ok h.len.1 h.len.2, ok_bind, htyped, ok_bind]
  split
  · exact ⟨_, rfl, hgood⟩
  · rename_i word _
    obtain ⟨s', hs', hdone⟩ := complete_good hset word
    rw [hs', ok_bind]
    exact hdone.redraw col
  · exact hgood.redraw col

theorem pull_back_ok (hi : 0 ≤ i) (hk : i + k ≤ 77) :
    pullBack s i k = .ok { s with cmdBuf := moveBack s.cmdBuf i k } := by
  induction k generalizing s i with
  | zero =>
    rw [move_back_zero]
    rfl
  | succ k ih =>
    unfold pullBack
    rw [char_at_ok (by omega) (by omega), ok_bind, set_char_ok hi (by omega), ok_bind, ih (by omega) (by omega)]
    simp only [move_back_succ]

theorem push_on_ok (hi : i ≤ 77) (hk : 0 ≤ i - k) :
    pushOn s i k = .ok { s with cmdBuf := moveOn s.cmdBuf i k } := by
  induction k generalizing s i with
  | zero =>
    rw [move_on_zero]
    rfl
  | succ k ih =>
    unfold pushOn
    rw [char_at_ok (by omega) (by omega), ok_bind, set_char_ok (by omega) hi, ok_bind, ih (by omega) (by omega)]
    simp only [move_on_succ]

/-- A character less, with the cursor where it should then be. -/
theorem remove_char_good (h : Good s) (hi : 0 ≤ i) (hlt : i < s.cmdLen) :
    ∃ s', removeChar s i = .ok s' ∧ s'.cursorPos = s.cursorPos ∧
      ∀ cursor, 0 ≤ cursor → cursor < s.cmdLen → Good { s' with cursorPos := cursor } := by
  have hlen := h.len
  have hk : i + ((s.cmdLen - 1 - i).toNat : Int) = s.cmdLen - 1 := by omega
  unfold removeChar
  rw [pull_back_ok hi (by omega), ok_bind]
  dsimp only
  rw [set_char_ok (by omega) (by omega)]
  refine ⟨_, rfl, rfl, fun cursor h₀ h₁ => ?_⟩
  refine ⟨⟨⟨?_, ?_⟩, ?_, h.rows, h.counted⟩, ⟨h₀, ?_⟩, fun j hj₀ hj₁ => ?_⟩
  all_goals dsimp only at *
  · omega
  · omega
  · rw [Function.update_of_ne (by omega), move_back_out (by omega)]
    exact h.last
  · omega
  · rw [Function.update_of_ne (by omega)]
    by_cases hij : i ≤ j
    · rw [move_back_in hij (by omega)]
      exact h.filled (j + 1) (by omega) (by omega)
    · rw [move_back_out (by omega)]
      exact h.filled j hj₀ (by omega)

theorem key_delete_good (h : Good s) : ∃ s', keyDelete col s = .ok s' ∧ Good s' := by
  unfold keyDelete
  by_cases hlt : s.cursorPos < s.cmdLen
  · obtain ⟨s', hs', hcursor, hgood⟩ := remove_char_good h h.cursor.1 hlt
    have hgood := hgood s'.cursorPos (hcursor ▸ h.cursor.1) (hcursor ▸ hlt)
    rw [if_pos hlt, hs', ok_bind]
    exact hgood.redraw col
  · rw [if_neg hlt]
    exact ⟨s, rfl, h⟩

theorem key_backspace_good (h : Good s) : ∃ s', keyBackspace col s = .ok s' ∧ Good s' := by
  have hcursor := h.cursor
  unfold keyBackspace
  by_cases hpos : s.cursorPos > 0
  · obtain ⟨s', hs', hsame, hgood⟩ := remove_char_good h (i := s.cursorPos - 1) (by omega) (by omega)
    rw [if_pos hpos, hs', ok_bind]
    exact (hgood (s'.cursorPos - 1) (by omega) (by omega)).redraw col
  · rw [if_neg hpos]
    exact ⟨s, rfl, h⟩

theorem insert_char_good (col : Int) (h : Good s) (hroom : s.cmdLen < 77) {c : UInt8} (hc : c ≠ 0) :
    ∃ s', insertChar col s c = .ok s' ∧ Good s' := by
  have hlen := h.len
  have hcursor := h.cursor
  have hk : s.cmdLen - ((s.cmdLen - s.cursorPos).toNat : Int) = s.cursorPos := by omega
  unfold insertChar
  rw [push_on_ok (by omega) (by omega), ok_bind, set_char_ok hcursor.1 (by omega), ok_bind]
  refine Good.redraw ?_ col
  refine ⟨⟨⟨?_, ?_⟩, ?_, h.rows, h.counted⟩, ⟨?_, ?_⟩, fun j h₀ h₁ => ?_⟩
  all_goals dsimp only at *
  · omega
  · omega
  · rw [Function.update_of_ne (by omega), move_on_out (by omega)]
    exact h.last
  · omega
  · omega
  · by_cases hj : j = s.cursorPos
    · rw [hj, Function.update_self]
      exact hc
    · rw [Function.update_of_ne hj]
      by_cases hafter : s.cursorPos < j
      · rw [move_on_in (by omega) (by omega)]
        exact h.filled (j - 1) (by omega) (by omega)
      · rw [move_on_out (by omega)]
        exact h.filled j h₀ (by omega)

/-- A string that fits in the buffer. -/
def Fits (text : List UInt8) : Prop := text.length ≤ 77 ∧ (0 : UInt8) ∉ text

theorem row_text_ok (h : Room s) (hi : HasRow i) :
    ∃ row text, s.rowAt i = .ok row ∧ strAt row 0 = .ok text ∧ Fits text := by
  obtain ⟨hrow, hlast⟩ := row_ok h hi
  obtain ⟨text, htext, hle, hnul, -, -⟩ := str_ok hlast (Int.le_refl 0) (by decide : (0 : Int) ≤ 77)
  exact ⟨_, text, hrow, htext, by omega, hnul⟩

theorem find_match_ok (h : Room s) (q : List UInt8) (hk : k ≤ i + 1 ∨ k = 0) :
    ∃ found, findMatch s q i k = .ok found ∧ ∀ j text, found = some (j, text) → 0 ≤ j ∧ Fits text := by
  induction k generalizing i with
  | zero => exact ⟨none, rfl, fun j text h => by cases h⟩
  | succ k ih =>
    obtain ⟨row, text, hrow, htext, hfits⟩ := row_text_ok h (i := i) (Or.inl (by omega))
    unfold findMatch
    rw [hrow, ok_bind, htext, ok_bind]
    split
    · refine ⟨_, rfl, fun j text' hsome => ?_⟩
      cases hsome
      exact ⟨by omega, hfits⟩
    · exact ih (by omega)

theorem search_history_ok (h : Room s) (q : List UInt8) :
    ∃ found, searchHistory s q = .ok found ∧ ∀ j text, found = some (j, text) → 0 ≤ j ∧ Fits text := by
  unfold searchHistory
  split
  · exact ⟨none, rfl, fun j text h => by cases h⟩
  · exact find_match_ok h q (by omega)

/-- What a session finds fits in the buffer. -/
theorem search_loop_ok (h : Room s) (q keys : List UInt8) :
    ∃ r, searchLoop s q keys = .ok r ∧ ∀ j text, r = .accept (some (j, text)) → Fits text := by
  induction keys generalizing q with
  | nil => exact ⟨.pending, rfl, fun j text h => by cases h⟩
  | cons c keys ih =>
    obtain ⟨found, hfound, hfits⟩ := search_history_ok h q
    unfold searchLoop
    rw [hfound, ok_bind]
    split_ifs
    · exact ih q
    · refine ⟨_, rfl, fun j text hr => ?_⟩
      cases hr
      exact (hfits j text rfl).2
    · cases found with
      | none => exact ih q
      | some found =>
        obtain ⟨j, text⟩ := found
        obtain ⟨further, hfurther, -⟩ := find_match_ok h q (i := j - 1) (k := j.toNat)
          (Or.inl (by have hj := (hfits j text rfl).1; omega))
        dsimp only
        rw [hfurther, ok_bind]
        exact ih q
    · exact ⟨_, rfl, fun j text hr => by cases hr⟩
    · exact ih q.dropLast
    · exact ih (q ++ [c])
    · exact ih q

/-- The text written over the line. -/
def overwritten (s : CmdLine) (text : List UInt8) : Int → UInt8 :=
  Function.update (fun i => if 0 ≤ i ∧ i < text.length then text.getD i.toNat 0 else s.cmdBuf i) text.length 0

theorem put_text_ok (h : text.length ≤ 77) : putText s text = .ok { s with cmdBuf := overwritten s text } := by
  unfold putText
  exact set_char_ok (Int.natCast_nonneg _) (by omega) 0

theorem put_text_room (h : Room s) (htext : text.length ≤ 77) :
    Room { s with cmdBuf := overwritten s text, cmdLen := text.length } := by
  refine ⟨⟨Int.natCast_nonneg _, ?_⟩, ?_, h.rows, h.counted⟩
  all_goals dsimp only
  · omega
  · unfold overwritten
    by_cases hend : (77 : Int) = text.length
    · rw [hend, Function.update_self]
    · rw [Function.update_of_ne hend, if_neg (by omega)]
      exact h.last

theorem accept_match_good (h : Room s) (htext : Fits text) : ∃ s', acceptMatch s text = .ok s' ∧ Good s' := by
  have hlen := htext.1
  have hroom := put_text_room h hlen
  unfold acceptMatch cmdBufSize
  rw [if_pos (by omega), put_text_ok hlen, ok_bind]
  refine ⟨_, rfl, ⟨⟨hroom.len, hroom.last, h.rows, h.counted⟩, ⟨hroom.len.1, Int.le_refl _⟩, ?_⟩⟩
  intro i h₀ h₁
  dsimp only at h₁ ⊢
  unfold overwritten
  rw [Function.update_of_ne (by omega), if_pos ⟨h₀, h₁⟩, List.getD_eq_getElem _ _ (by omega)]
  exact fun hzero => htext.2 (hzero ▸ List.getElem_mem _)

theorem ctrl_r_good (h : Good s) (keys : List UInt8) : ∃ s', ctrlRSearch col s keys = .ok s' ∧ Good s' := by
  obtain ⟨r, hr, hfits⟩ := search_loop_ok h.toRoom [] keys
  unfold ctrlRSearch
  rw [hr, ok_bind]
  match r with
  | .pending => exact ⟨s, rfl, h⟩
  | .cancel => exact (clear_good h.toRoom).redraw col
  | .accept none => exact h.redraw col
  | .accept (some (j, text)) =>
    obtain ⟨s', hs', hgood⟩ := accept_match_good h.toRoom (hfits j text rfl)
    dsimp only
    rw [hs', ok_bind]
    exact hgood.redraw col

/-- Every key but Enter keeps the line in its buffer. -/
theorem edit_key_good (col : Int) (h : Good s) (key : ShellKey) : ∃ s', editKey col s key = .ok s' ∧ Good s' := by
  have hlen := h.len
  have hcursor := h.cursor
  have hmoved : ∀ cursor, 0 ≤ cursor → cursor ≤ s.cmdLen →
      ∃ s', promptRedraw col { s with cursorPos := cursor } = .ok s' ∧ Good s' :=
    fun cursor h₀ h₁ => Good.redraw (s := { s with cursorPos := cursor })
      ⟨⟨h.len, h.last, h.rows, h.counted⟩, ⟨h₀, h₁⟩, h.filled⟩ col
  cases key with
  | up => exact history_up_good h
  | down => exact history_down_good h
  | left =>
    unfold editKey
    dsimp only
    split
    · exact hmoved _ (by omega) (by omega)
    · exact ⟨s, rfl, h⟩
  | right =>
    unfold editKey
    dsimp only
    split
    · exact hmoved _ (by omega) (by omega)
    · exact ⟨s, rfl, h⟩
  | home => exact hmoved 0 (Int.le_refl 0) hlen.1
  | «end» => exact hmoved s.cmdLen hlen.1 (Int.le_refl _)
  | del => exact key_delete_good h
  | char c session =>
    unfold editKey cmdBufSize
    dsimp only
    split_ifs with hback htab hclear hsearch hprint
    · exact key_backspace_good h
    · exact tab_complete_good h
    · exact (clear_good h.toRoom).redraw col
    · exact ctrl_r_good h session
    · refine insert_char_good col h (by omega) ?_
      rintro rfl
      exact absurd hprint.1 (by decide)
    · exact ⟨s, rfl, h⟩

end BaSic.Proofs.CmdBounds
