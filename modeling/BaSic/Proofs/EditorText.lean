import BaSic.Kernel.EditorFiles
import BaSic.Lib.Tabulate
import BaSic.Lib.TextBuffer

namespace BaSic.Proofs.EditorText
open Kernel Lib

/-- The text and the cursor keep to the arrays. -/
structure Bounds (s : Editor) : Prop where
  lines : 1 ≤ s.numLines ∧ s.numLines ≤ 128
  row : 0 ≤ s.cy ∧ s.cy < s.numLines
  lens : ∀ i, 0 ≤ i → i < s.numLines → 0 ≤ s.lineLen i ∧ s.lineLen i ≤ 80
  ends : ∀ i, 0 ≤ i → i < s.numLines → s.buf i (s.lineLen i) = 0
  col : 0 ≤ s.cx ∧ s.cx ≤ s.lineLen s.cy

/-- The first characters of a line, as many as it has. -/
def rowText (s : Editor) (i : Nat) : List UInt8 := tabulate (s.lineLen i).toNat (fun j => s.buf i j)

/-- The lines of the buffer, and the cursor. -/
def textOf (s : Editor) : TextBuffer UInt8 := ⟨tabulate s.numLines.toNat (rowText s), s.cy.toNat, s.cx.toNat⟩

variable {s : Editor} {i j k a b n : Int} {c : UInt8}

theorem len_at_ok (h₀ : 0 ≤ i) (h₁ : i < 128) : s.lenAt i = .ok (s.lineLen i) := if_pos ⟨h₀, h₁⟩

theorem set_len_ok (h₀ : 0 ≤ i) (h₁ : i < 128) :
    s.setLen i n = .ok { s with lineLen := Function.update s.lineLen i n } := if_pos ⟨h₀, h₁⟩

theorem char_at_ok (h₀ : 0 ≤ i) (h₁ : i < 128) (h₂ : 0 ≤ j) (h₃ : j ≤ 80) : s.charAt i j = .ok (s.buf i j) :=
  if_pos ⟨⟨h₀, h₁⟩, h₂, Int.lt_add_one_of_le h₃⟩

theorem set_char_ok (h₀ : 0 ≤ i) (h₁ : i < 128) (h₂ : 0 ≤ j) (h₃ : j ≤ 80) :
    s.setChar i j c = .ok { s with buf := Function.update s.buf i (Function.update (s.buf i) j c) } :=
  if_pos ⟨⟨h₀, h₁⟩, h₂, Int.lt_add_one_of_le h₃⟩

theorem copy_line_ok (h₀ : 0 ≤ i) (h₁ : i < 128) (h₂ : 0 ≤ k) (h₃ : k < 128) : s.copyLine i k =
    .ok { s with buf := Function.update s.buf i (s.buf k), lineLen := Function.update s.lineLen i (s.lineLen k) } :=
  if_pos ⟨⟨h₀, h₁⟩, h₂, h₃⟩

/-- The row that `memcpy` leaves. -/
def copied (row : Int → UInt8) (a : Int) (src : Int → UInt8) (b n : Int) : Int → UInt8 :=
  fun j => if a ≤ j ∧ j < a + n then src (b + (j - a)) else row j

theorem copy_chars_ok (hi : 0 ≤ i ∧ i < 128) (hk : 0 ≤ k ∧ k < 128) (hn : 0 ≤ n) (ha : 0 ≤ a ∧ a + n ≤ 81)
    (hb : 0 ≤ b ∧ b + n ≤ 81) :
    s.copyChars i a k b n = .ok { s with buf := Function.update s.buf i (copied (s.buf i) a (s.buf k) b n) } :=
  if_pos ⟨hi, hk, hn, ha, hb⟩

theorem shift_right_ok (hcy : 0 ≤ s.cy ∧ s.cy < 128) {k : Nat} (hi : i ≤ 80) (hk : 0 ≤ i - k) :
    shiftRight s i k = .ok { s with buf := Function.update s.buf s.cy (moveOn (s.buf s.cy) i k) } := by
  induction k generalizing s i with
  | zero =>
    rw [move_on_zero, Function.update_eq_self]
    rfl
  | succ k ih =>
    unfold shiftRight
    rw [char_at_ok hcy.1 hcy.2 (by omega) (by omega), ok_bind, set_char_ok hcy.1 hcy.2 (by omega) hi, ok_bind,
      ih (by exact hcy) (by omega) (by omega)]
    simp only [Function.update_idem, Function.update_self, move_on_succ]

theorem shift_left_ok (hcy : 0 ≤ s.cy ∧ s.cy < 128) {k : Nat} (hi : 0 ≤ i) (hk : i + k ≤ 80) :
    shiftLeft s i k = .ok { s with buf := Function.update s.buf s.cy (moveBack (s.buf s.cy) i k) } := by
  induction k generalizing s i with
  | zero =>
    rw [move_back_zero, Function.update_eq_self]
    rfl
  | succ k ih =>
    unfold shiftLeft
    rw [char_at_ok hcy.1 hcy.2 (by omega) (by omega), ok_bind, set_char_ok hcy.1 hcy.2 hi (by omega), ok_bind,
      ih (by exact hcy) (by omega) (by omega)]
    simp only [Function.update_idem, Function.update_self, move_back_succ]

theorem lines_up_ok {k : Nat} (hi : 0 ≤ i) (hk : i + k < 128) :
    linesUp s i k = .ok { s with buf := moveBack s.buf i k, lineLen := moveBack s.lineLen i k } := by
  induction k generalizing s i with
  | zero =>
    rw [move_back_zero, move_back_zero]
    rfl
  | succ k ih =>
    unfold linesUp
    rw [copy_line_ok hi (by omega) (by omega) (by omega), ok_bind, ih (by omega) (by omega), move_back_succ,
      move_back_succ]

theorem lines_down_ok {k : Nat} (hi : i < 128) (hk : 0 ≤ i - k) :
    linesDown s i k = .ok { s with buf := moveOn s.buf i k, lineLen := moveOn s.lineLen i k } := by
  induction k generalizing s i with
  | zero =>
    rw [move_on_zero, move_on_zero]
    rfl
  | succ k ih =>
    unfold linesDown
    rw [copy_line_ok (by omega) hi (by omega) (by omega), ok_bind, ih (by omega) (by omega), move_on_succ,
      move_on_succ]

/-- The operation succeeds, keeps the bounds, does not scroll, and leaves the text given. -/
def Leaves (s : Editor) (r : Except Fault Editor) (t : TextBuffer UInt8) : Prop :=
  ∃ s', r = .ok s' ∧ Bounds s' ∧ s'.scrollY = s.scrollY ∧ textOf s' = t

variable {s' : Editor}

theorem row_text_congr {i : Nat} (hlen : s'.lineLen i = s.lineLen i) (hbuf : s'.buf i = s.buf i) :
    rowText s' i = rowText s i := by
  unfold rowText
  rw [hlen, hbuf]

theorem line_text (h : 0 ≤ s.cy ∧ s.cy < s.numLines) : (textOf s).line = rowText s s.cy.toNat := by
  unfold TextBuffer.line textOf
  dsimp only
  rw [tabulate_getD (by omega)]

theorem length_row_text (i : Nat) : (rowText s i).length = (s.lineLen i).toNat := length_tabulate

theorem Bounds.lt_max (h : Bounds s) : s.cy < 128 := Int.lt_of_lt_of_le h.row.2 h.lines.2

theorem Bounds.len (h : Bounds s) : 0 ≤ s.lineLen s.cy ∧ s.lineLen s.cy ≤ 80 := h.lens _ h.row.1 h.row.2

theorem length_line (h : 0 ≤ s.cy ∧ s.cy < s.numLines) : (textOf s).line.length = (s.lineLen s.cy).toNat := by
  rw [line_text h, length_row_text, Int.toNat_of_nonneg h.1]

/-- The row of the cursor with other characters, and the cursor moved in it. -/
def withRow (s : Editor) (row : Int → UInt8) (len cx : Int) : Editor :=
  { s with buf := Function.update s.buf s.cy row, lineLen := Function.update s.lineLen s.cy len, cx := cx,
           modified := true }

variable {row : Int → UInt8} {len cx : Int}

theorem Bounds.with_row (h : Bounds s) (row : Int → UInt8) (len cx : Int) (hlen : len ≤ 80) (hend : row len = 0)
    (hcx : 0 ≤ cx ∧ cx ≤ len) :
    Bounds (withRow s row len cx) := by
  refine ⟨h.lines, h.row, fun i h₀ h₁ => ?_, fun i h₀ h₁ => ?_, ?_⟩
  all_goals unfold withRow; dsimp only
  · by_cases hi : i = s.cy
    · rw [hi, Function.update_self]
      exact ⟨Int.le_trans hcx.1 hcx.2, hlen⟩
    · rw [Function.update_of_ne hi]
      exact h.lens i h₀ h₁
  · by_cases hi : i = s.cy
    · rw [hi, Function.update_self, Function.update_self]
      exact hend
    · rw [Function.update_of_ne hi, Function.update_of_ne hi]
      exact h.ends i h₀ h₁
  · rw [Function.update_self]
    exact hcx

theorem text_with_row (h : Bounds s) (row : Int → UInt8) (len cx : Int) : textOf (withRow s row len cx) =
    ⟨(textOf s).lines.set (textOf s).row (tabulate len.toNat (fun j => row j)), (textOf s).row, cx.toNat⟩ := by
  have hcy := h.row.1
  refine TextBuffer.ext ?_ rfl rfl
  refine tabulate_set (fun i _ hi => ?_) ?_
  · have hi' : (i : Int) ≠ s.cy := fun heq => hi (by dsimp only [textOf]; omega)
    exact row_text_congr (Function.update_of_ne hi' _ _) (Function.update_of_ne hi' _ _)
  · unfold rowText withRow textOf
    dsimp only
    rw [Int.toNat_of_nonneg hcy, Function.update_self, Function.update_self]

theorem with_row_leaves (h : Bounds s) (hlen : len ≤ 80) (hend : row len = 0) (hcx : 0 ≤ cx ∧ cx ≤ len) :
    Leaves s (.ok (withRow s row len cx))
      ⟨(textOf s).lines.set (textOf s).row (tabulate len.toNat (fun j => row j)), (textOf s).row, cx.toNat⟩ :=
  ⟨_, rfl, h.with_row row len cx hlen hend hcx, rfl, text_with_row h row len cx⟩

theorem line_tabulate (h : Bounds s) :
    (textOf s).line = tabulate (s.lineLen s.cy).toNat (fun j => s.buf s.cy j) := by
  rw [line_text h.row]
  unfold rowText
  rw [Int.toNat_of_nonneg h.row.1]

theorem insert_leaves (h : Bounds s) (c : UInt8) : Leaves s (bufInsertChar s c) ((textOf s).insert 80 c) := by
  have hcy : 0 ≤ s.cy ∧ s.cy < 128 := ⟨h.row.1, h.lt_max⟩
  have hlen := h.len
  have hcx := h.col
  have hcx' : s.cx ≤ 80 := Int.le_trans hcx.2 hlen.2
  unfold bufInsertChar TextBuffer.insert edMaxLines edLineMax
  rw [if_neg (by omega), len_at_ok hcy.1 hcy.2, ok_bind, length_line h.row]
  by_cases hfull : s.lineLen s.cy ≥ 80
  · rw [if_pos hfull, if_neg (by omega)]
    exact ⟨s, rfl, h, rfl, rfl⟩
  · rw [if_neg hfull, if_pos (by omega), shift_right_ok hcy hlen.2 (by omega), ok_bind,
      set_char_ok hcy.1 hcy.2 hcx.1 hcx', ok_bind, set_len_ok hcy.1 hcy.2, ok_bind,
      set_char_ok hcy.1 hcy.2 (by omega) (by omega), ok_bind]
    simp only [Function.update_idem, Function.update_self]
    have hline : (textOf s).line.insertIdx (textOf s).col c = tabulate (s.lineLen s.cy + 1).toNat (fun j =>
        Function.update (Function.update (moveOn (s.buf s.cy) (s.lineLen s.cy) (s.lineLen s.cy - s.cx).toNat) s.cx c)
          (s.lineLen s.cy + 1) 0 (j : Int)) := by
      rw [line_tabulate h, Int.toNat_add hlen.1 (by decide)]
      refine (tabulate_insert (by dsimp only [textOf]; omega) (fun i hi => ?_) ?_ (fun i h₀ h₁ => ?_)).symm
      all_goals dsimp only [textOf] at *
      · rw [Function.update_of_ne (by omega), Function.update_of_ne (by omega), move_on_out (by omega)]
      · rw [Function.update_of_ne (by omega), Int.toNat_of_nonneg hcx.1, Function.update_self]
      · rw [Function.update_of_ne (by omega), Function.update_of_ne (by omega), move_on_in (by omega) (by omega)]
        congr 1
        omega
    have hcol : (textOf s).col + 1 = (s.cx + 1).toNat := by
      dsimp only [textOf]
      omega
    rw [hline, hcol]
    exact with_row_leaves h (by omega) (Function.update_self ..) (by omega)

theorem delete_char_leaves (h : Bounds s) (hcx : s.cx ≠ 0) : Leaves s (bufDeleteChar s)
    { textOf s with lines := (textOf s).lines.set (textOf s).row ((textOf s).line.eraseIdx ((textOf s).col - 1)),
                    col := (textOf s).col - 1 } := by
  have hcy : 0 ≤ s.cy ∧ s.cy < 128 := ⟨h.row.1, h.lt_max⟩
  have hlen := h.len
  have hcol := h.col
  unfold bufDeleteChar
  rw [if_neg hcx, len_at_ok hcy.1 hcy.2, ok_bind, shift_left_ok hcy (by omega) (by omega), ok_bind,
    set_len_ok hcy.1 hcy.2, ok_bind, set_char_ok hcy.1 hcy.2 (by omega) (by omega), ok_bind]
  simp only [Function.update_idem, Function.update_self]
  have hline : (textOf s).line.eraseIdx ((textOf s).col - 1) = tabulate (s.lineLen s.cy - 1).toNat (fun j =>
      Function.update (moveBack (s.buf s.cy) (s.cx - 1) (s.lineLen s.cy - 1 - (s.cx - 1)).toNat)
        (s.lineLen s.cy - 1) 0 (j : Int)) := by
    obtain ⟨n, hn⟩ : ∃ n, (s.lineLen s.cy).toNat = n + 1 := ⟨(s.lineLen s.cy).toNat - 1, by omega⟩
    have hn' : (s.lineLen s.cy - 1).toNat = n := by omega
    rw [line_tabulate h, hn, hn']
    refine (tabulate_erase (by dsimp only [textOf]; omega) (fun i hi => ?_) (fun i h₀ h₁ => ?_)).symm
    all_goals dsimp only [textOf] at *
    · rw [Function.update_of_ne (by omega), move_back_out (by omega)]
    · rw [Function.update_of_ne (by omega), move_back_in (by omega) (by omega)]
      congr 1
  have hback : (textOf s).col - 1 = (s.cx - 1).toNat := by
    dsimp only [textOf]
    omega
  rw [hline, hback]
  exact with_row_leaves h (by omega) (Function.update_self ..) (by omega)

/-- The lines behind line `i` moved up over it, with the cursor placed anew. -/
def closed (s : Editor) (i cy cx : Int) : Editor :=
  { s with buf := moveBack s.buf i (s.numLines - 1 - i).toNat,
           lineLen := moveBack s.lineLen i (s.numLines - 1 - i).toNat, numLines := s.numLines - 1,
           cy := cy, cx := cx, modified := true }

variable {cy : Int}

theorem closed_before (hj : j < i) :
    (closed s i cy cx).lineLen j = s.lineLen j ∧ (closed s i cy cx).buf j = s.buf j :=
  ⟨move_back_out (Or.inl hj), move_back_out (Or.inl hj)⟩

theorem closed_after (h₀ : i ≤ j) (h₁ : j < s.numLines - 1) :
    (closed s i cy cx).lineLen j = s.lineLen (j + 1) ∧ (closed s i cy cx).buf j = s.buf (j + 1) :=
  ⟨move_back_in h₀ (by omega), move_back_in h₀ (by omega)⟩

/-- The rows of the buffer with a line closed are rows from before. -/
theorem closed_rows (P : Int → (Int → UInt8) → Prop) (hold : ∀ i, 0 ≤ i → i < s.numLines → P (s.lineLen i) (s.buf i))
    (i cy cx : Int) (h₀ : 0 ≤ j) (h₁ : j < s.numLines - 1) :
    P ((closed s i cy cx).lineLen j) ((closed s i cy cx).buf j) := by
  by_cases hj : j < i
  · rw [(closed_before hj).1, (closed_before hj).2]
    exact hold j h₀ (by omega)
  · rw [(closed_after (by omega) h₁).1, (closed_after (by omega) h₁).2]
    exact hold (j + 1) (by omega) (by omega)

theorem closed_leaves (h : Bounds s) (i cy cx : Int) (hi : 0 ≤ i ∧ i < s.numLines) (hcy : 0 ≤ cy ∧ cy < s.numLines - 1)
    (hcx : 0 ≤ cx ∧ cx ≤ (closed s i cy cx).lineLen cy) :
    Leaves s (.ok (closed s i cy cx)) ⟨(textOf s).lines.eraseIdx i.toNat, cy.toNat, cx.toNat⟩ := by
  have hlines := h.lines
  refine ⟨_, rfl, ⟨?_, hcy, fun j => ?_, fun j => ?_, hcx⟩, rfl, TextBuffer.ext ?_ rfl rfl⟩
  · change 1 ≤ s.numLines - 1 ∧ s.numLines - 1 ≤ 128
    omega
  · exact closed_rows (fun n _ => 0 ≤ n ∧ n ≤ 80) h.lens i cy cx
  · exact closed_rows (fun n r => r n = 0) h.ends i cy cx
  · obtain ⟨n, hn⟩ : ∃ n, s.numLines.toNat = n + 1 := ⟨s.numLines.toNat - 1, by omega⟩
    have hn' : (s.numLines - 1).toNat = n := by omega
    change tabulate (s.numLines - 1).toNat _ = (tabulate s.numLines.toNat _).eraseIdx i.toNat
    rw [hn, hn']
    refine tabulate_erase (by omega) (fun j hj => ?_) (fun j h₀ h₁ => ?_)
    · have hbefore : (j : Int) < i := by omega
      exact row_text_congr (closed_before hbefore).1 (closed_before hbefore).2
    · have hj : i ≤ j := by omega
      have hj' : (j : Int) < s.numLines - 1 := by omega
      unfold rowText
      rw [(closed_after hj hj').1, (closed_after hj hj').2, Int.natCast_succ]

/-- The row of the line before, with that of the cursor behind it. -/
def joinedRow (s : Editor) : Int → UInt8 :=
  Function.update (copied (s.buf (s.cy - 1)) (s.lineLen (s.cy - 1)) (s.buf s.cy) 0 (s.lineLen s.cy))
    (s.lineLen (s.cy - 1) + s.lineLen s.cy) 0

theorem joined_text (hprev : 0 ≤ s.lineLen (s.cy - 1)) (hcur : 0 ≤ s.lineLen s.cy) :
    tabulate (s.lineLen (s.cy - 1) + s.lineLen s.cy).toNat (fun j => joinedRow s j) =
      tabulate (s.lineLen (s.cy - 1)).toNat (fun j => s.buf (s.cy - 1) j) ++
        tabulate (s.lineLen s.cy).toNat (fun j => s.buf s.cy j) := by
  rw [Int.toNat_add hprev hcur, tabulate_append]
  refine congrArg₂ _ (tabulate_congr (fun j hj => ?_)) (tabulate_congr (fun j hj => ?_))
  · unfold joinedRow copied
    rw [Function.update_of_ne (by omega), if_neg (by omega)]
  · unfold joinedRow copied
    rw [Function.update_of_ne (by omega), if_pos (by omega)]
    congr 1
    omega

theorem merge_leaves (h : Bounds s) (hcx : s.cx = 0) (hcy : s.cy ≠ 0) :
    Leaves s (mergeLine s) ((textOf s).join 80) := by
  have hrow := h.row
  have hlast := h.lt_max
  have hcur := h.len
  have hlines := h.lines
  have h₀ : 0 ≤ s.cy - 1 := by omega
  have h₁ : s.cy - 1 < 128 := by omega
  have hprev := h.lens (s.cy - 1) h₀ (by omega)
  have hprevtext : (textOf s).lines.getD ((textOf s).row - 1) [] = rowText s (s.cy.toNat - 1) := by
    unfold textOf
    dsimp only
    exact tabulate_getD (by omega) _
  have hsub : ((s.cy.toNat - 1 : Nat) : Int) = s.cy - 1 := by omega
  unfold mergeLine TextBuffer.join edLineMax
  dsimp only
  rw [len_at_ok (by omega) (by omega), ok_bind, len_at_ok hrow.1 hlast, ok_bind, hprevtext, length_line h.row,
    length_row_text, hsub]
  by_cases hfits : s.lineLen (s.cy - 1) + s.lineLen s.cy ≤ 80
  · have hjoined := joined_text hprev.1 hcur.1
    have hp : Bounds { s with cy := s.cy - 1 } :=
      ⟨h.lines, ⟨h₀, by dsimp only; omega⟩, h.lens, h.ends, by dsimp only; omega⟩
    have hq := hp.with_row (joinedRow s) (s.lineLen (s.cy - 1) + s.lineLen s.cy) (s.lineLen (s.cy - 1)) hfits
      (Function.update_self ..) (by omega)
    have hkept : s.lineLen (s.cy - 1) ≤ (closed (withRow { s with cy := s.cy - 1 } (joinedRow s)
        (s.lineLen (s.cy - 1) + s.lineLen s.cy) (s.lineLen (s.cy - 1))) s.cy (s.cy - 1)
        (s.lineLen (s.cy - 1))).lineLen (s.cy - 1) := by
      unfold closed withRow
      dsimp only
      rw [move_back_out (by omega), Function.update_self]
      omega
    obtain ⟨s', hs', hbounds, hscroll, htext⟩ :=
      closed_leaves hq s.cy (s.cy - 1) (s.lineLen (s.cy - 1)) hrow ⟨h₀, by dsimp only [withRow]; omega⟩
      ⟨hprev.1, hkept⟩
    rw [text_with_row hp, hjoined] at htext
    rw [if_pos hfits, if_pos (by omega), copy_chars_ok ⟨h₀, h₁⟩ ⟨hrow.1, hlast⟩ hcur.1 (by omega) (by omega), ok_bind,
      set_len_ok h₀ h₁, ok_bind, set_char_ok h₀ h₁ (by omega) hfits, ok_bind,
      lines_up_ok hrow.1 (by dsimp only; omega), ok_bind]
    simp only [Function.update_idem, Function.update_self]
    refine ⟨s', hs', hbounds, hscroll, htext.trans ?_⟩
    have hline : rowText s (s.cy.toNat - 1) = tabulate (s.lineLen (s.cy - 1)).toNat (fun j => s.buf (s.cy - 1) j) := by
      unfold rowText
      rw [hsub]
    have hup : (s.cy - 1).toNat = s.cy.toNat - 1 := by omega
    rw [hline, line_tabulate h, hup]
    unfold textOf
    dsimp only
    rw [hup]
    rfl
  · rw [if_neg hfits, if_neg (by omega)]
    exact ⟨_, rfl, ⟨h.lines, h.row, h.lens, h.ends, h.col⟩, rfl, rfl⟩

theorem backspace_leaves (h : Bounds s) : Leaves s (bufDeleteChar s) ((textOf s).backspace 80) := by
  have hcol := h.col.1
  have hrow := h.row.1
  have hstart : (textOf s).col = 0 ↔ s.cx = 0 := by
    dsimp only [textOf]
    omega
  have hfirst : (textOf s).row = 0 ↔ s.cy = 0 := by
    dsimp only [textOf]
    omega
  unfold TextBuffer.backspace
  by_cases hcx : s.cx = 0
  · unfold bufDeleteChar
    rw [if_pos hcx, if_pos (hstart.mpr hcx)]
    by_cases hcy : s.cy = 0
    · rw [if_pos hcy, if_pos (hfirst.mpr hcy)]
      exact ⟨s, rfl, h, rfl, rfl⟩
    · rw [if_neg hcy, if_neg (fun h => hcy (hfirst.mp h))]
      exact merge_leaves h hcx hcy
  · rw [if_neg (fun h => hcx (hstart.mp h))]
    exact delete_char_leaves h hcx

/-- The lines behind that of the cursor moved down, and what is behind the cursor in between;
`r` is what was in the row. -/
def opened (s : Editor) (r : Int → UInt8) : Editor :=
  { s with
    buf := Function.update (Function.update (moveOn s.buf s.numLines (s.numLines - (s.cy + 1)).toNat) (s.cy + 1)
      (Function.update (copied r 0 (s.buf s.cy) s.cx (s.lineLen s.cy - s.cx)) (s.lineLen s.cy - s.cx) 0))
      s.cy (Function.update (s.buf s.cy) s.cx 0),
    lineLen := Function.update (Function.update (moveOn s.lineLen s.numLines (s.numLines - (s.cy + 1)).toNat) (s.cy + 1)
      (s.lineLen s.cy - s.cx)) s.cy s.cx,
    numLines := s.numLines + 1, cy := s.cy + 1, cx := 0, modified := true }

section opened
variable {r : Int → UInt8}

theorem opened_before (hj : j < s.cy) : (opened s r).lineLen j = s.lineLen j ∧ (opened s r).buf j = s.buf j := by
  unfold opened
  dsimp only
  rw [Function.update_of_ne (by omega), Function.update_of_ne (by omega), Function.update_of_ne (by omega),
    Function.update_of_ne (by omega)]
  exact ⟨move_on_out (by omega), move_on_out (by omega)⟩

theorem opened_at :
    (opened s r).lineLen s.cy = s.cx ∧ (opened s r).buf s.cy = Function.update (s.buf s.cy) s.cx 0 :=
  ⟨Function.update_self .., Function.update_self ..⟩

theorem opened_new : (opened s r).lineLen (s.cy + 1) = s.lineLen s.cy - s.cx ∧
    (opened s r).buf (s.cy + 1) = Function.update (copied r 0 (s.buf s.cy) s.cx (s.lineLen s.cy - s.cx))
      (s.lineLen s.cy - s.cx) 0 := by
  have hne : s.cy + 1 ≠ s.cy := by omega
  unfold opened
  dsimp only
  rw [Function.update_of_ne hne, Function.update_of_ne hne, Function.update_self, Function.update_self]
  exact ⟨rfl, rfl⟩

theorem opened_after (h₀ : s.cy + 1 < j) (h₁ : j ≤ s.numLines) :
    (opened s r).lineLen j = s.lineLen (j - 1) ∧ (opened s r).buf j = s.buf (j - 1) := by
  unfold opened
  dsimp only
  rw [Function.update_of_ne (by omega), Function.update_of_ne (by omega), Function.update_of_ne (by omega),
    Function.update_of_ne (by omega)]
  exact ⟨move_on_in (by omega) h₁, move_on_in (by omega) h₁⟩

/-- A row of the buffer with a line opened is one of four kinds. -/
theorem opened_rows (P : Int → (Int → UInt8) → Prop) (hold : ∀ i, 0 ≤ i → i < s.numLines → P (s.lineLen i) (s.buf i))
    (hat : P s.cx (Function.update (s.buf s.cy) s.cx 0))
    (hnew : P (s.lineLen s.cy - s.cx) (Function.update (copied r 0 (s.buf s.cy) s.cx (s.lineLen s.cy - s.cx))
      (s.lineLen s.cy - s.cx) 0)) (hcy : 0 ≤ s.cy ∧ s.cy < s.numLines) (h₀ : 0 ≤ j) (h₁ : j < s.numLines + 1) :
    P ((opened s r).lineLen j) ((opened s r).buf j) := by
  rcases lt_trichotomy j s.cy with hj | hj | hj
  · rw [(opened_before hj).1, (opened_before hj).2]
    exact hold j h₀ (by omega)
  · rw [hj, opened_at.1, opened_at.2]
    exact hat
  · by_cases hj' : j = s.cy + 1
    · rw [hj', opened_new.1, opened_new.2]
      exact hnew
    · have hafter := opened_after (s := s) (j := j) (r := r) (by omega) (by omega)
      rw [hafter.1, hafter.2]
      exact hold (j - 1) (by omega) (by omega)

theorem opened_bounds (h : Bounds s) (hroom : s.numLines < 128) : Bounds (opened s r) := by
  have hlen := h.len
  have hcx := h.col
  have hrow := h.row
  refine ⟨?_, ?_, fun i => ?_, fun i => ?_, ?_⟩
  · have hlines := h.lines.1
    change 1 ≤ s.numLines + 1 ∧ s.numLines + 1 ≤ 128
    omega
  · change 0 ≤ s.cy + 1 ∧ s.cy + 1 < s.numLines + 1
    omega
  · exact opened_rows (fun n _ => 0 ≤ n ∧ n ≤ 80) h.lens (by omega) (by omega) hrow
  · exact opened_rows (fun n f => f n = 0) h.ends (Function.update_self ..) (Function.update_self ..) hrow
  · change 0 ≤ 0 ∧ 0 ≤ (opened s r).lineLen (s.cy + 1)
    rw [opened_new.1]
    omega

theorem opened_text (h : Bounds s) : textOf (opened s r) =
    ⟨((textOf s).lines.set (textOf s).row ((textOf s).line.take (textOf s).col)).insertIdx ((textOf s).row + 1)
      ((textOf s).line.drop (textOf s).col), (textOf s).row + 1, 0⟩ := by
  have hlen := h.len
  have hcx := h.col
  have hrow := h.row
  have hset : (textOf s).lines.set (textOf s).row ((textOf s).line.take (textOf s).col) = tabulate s.numLines.toNat
      (Function.update (rowText s) s.cy.toNat ((textOf s).line.take (textOf s).col)) :=
    (tabulate_set (fun i _ hi => Function.update_of_ne hi _ _) (Function.update_self ..)).symm
  have hle : s.cx.toNat ≤ (s.lineLen s.cy).toNat := by omega
  have hat : rowText (opened s r) s.cy.toNat = tabulate s.cx.toNat (fun j => s.buf s.cy j) := by
    unfold rowText
    rw [Int.toNat_of_nonneg hrow.1, opened_at.1, opened_at.2]
    exact tabulate_congr (fun j hj => Function.update_of_ne (by omega) _ _)
  have hnew : rowText (opened s r) (s.cy.toNat + 1) =
      tabulate ((s.lineLen s.cy).toNat - s.cx.toNat) (fun j => s.buf s.cy ((s.cx.toNat + j : Nat) : Int)) := by
    have hcast : ((s.cy.toNat + 1 : Nat) : Int) = s.cy + 1 := by omega
    have hsub : (s.lineLen s.cy - s.cx).toNat = (s.lineLen s.cy).toNat - s.cx.toNat := by omega
    unfold rowText
    rw [hcast, opened_new.1, opened_new.2, hsub]
    refine tabulate_congr (fun j hj => ?_)
    unfold copied
    rw [Function.update_of_ne (by omega), if_pos (by omega)]
    congr 1
    omega
  refine TextBuffer.ext ?_ (Int.toNat_add hrow.1 (by decide)) rfl
  dsimp only
  rw [hset]
  change tabulate (s.numLines + 1).toNat _ = _
  rw [Int.toNat_add (by omega) (by decide)]
  refine tabulate_insert (by dsimp only [textOf]; omega) (fun i hi => ?_) ?_ (fun i h₀ h₁ => ?_)
  · have hi' : i < s.cy.toNat + 1 := hi
    by_cases hicy : i = s.cy.toNat
    · rw [hicy, hat, Function.update_self, line_tabulate h]
      exact (tabulate_take hle).symm
    · have hbefore := opened_before (s := s) (j := i) (r := r) (by omega)
      rw [Function.update_of_ne hicy]
      exact row_text_congr hbefore.1 hbefore.2
  · rw [line_tabulate h]
    exact hnew.trans (tabulate_drop (f := fun j => s.buf s.cy j) hle).symm
  · have h₀' : s.cy.toNat + 1 ≤ i := h₀
    have hafter := opened_after (s := s) (j := (i + 1 : Nat)) (r := r) (by omega) (by omega)
    have hi : ((i + 1 : Nat) : Int) - 1 = i := by omega
    rw [Function.update_of_ne (by omega)]
    unfold rowText
    rw [hafter.1, hafter.2, hi]

theorem newline_leaves (h : Bounds s) : Leaves s (bufNewline s) ((textOf s).newline 128) := by
  have hlen := h.len
  have hcx := h.col
  have hrow := h.row
  have hlines : (textOf s).lines.length = s.numLines.toNat := length_tabulate
  have hcy : s.cy < 128 := h.lt_max
  unfold bufNewline TextBuffer.newline edMaxLines
  rw [hlines]
  by_cases hroom : s.numLines ≥ 128
  · rw [if_pos hroom, if_neg (by omega)]
    exact ⟨s, rfl, h, rfl, rfl⟩
  · have hstay : ∀ f : Int → Int, moveOn f s.numLines (s.numLines - (s.cy + 1)).toNat s.cy = f s.cy :=
      fun f => move_on_out (by omega)
    have hstay' : moveOn s.buf s.numLines (s.numLines - (s.cy + 1)).toNat s.cy = s.buf s.cy := move_on_out (by omega)
    have hne : s.cy ≠ s.cy + 1 := by omega
    have hnext : 0 ≤ s.cy + 1 ∧ s.cy + 1 < 128 := by omega
    have hcx' : s.cx ≤ 80 := Int.le_trans hcx.2 hlen.2
    rw [if_neg hroom, if_pos (by omega), lines_down_ok (by omega) (by omega), ok_bind]
    dsimp only
    rw [len_at_ok hrow.1 hcy, ok_bind]
    dsimp only
    rw [hstay, copy_chars_ok hnext ⟨hrow.1, hcy⟩ (by omega) (by omega) ⟨hcx.1, by omega⟩, ok_bind,
      set_char_ok hnext.1 hnext.2 (by omega) (by omega), ok_bind, set_len_ok hnext.1 hnext.2, ok_bind,
      set_char_ok hrow.1 hcy hcx.1 hcx', ok_bind, set_len_ok hrow.1 hcy, ok_bind]
    simp only [Function.update_idem, Function.update_self, Function.update_of_ne hne, hstay']
    exact ⟨_, rfl, opened_bounds h (by omega), rfl, opened_text h⟩

end opened

/-- The column is moved into the line, whatever it was. -/
theorem clip_leaves (h : Bounds { s with cx := 0 }) (hcx : 0 ≤ s.cx) :
    Leaves s (clipCx s) { textOf s with col := min (textOf s).col (textOf s).line.length } := by
  have hlen : 0 ≤ s.lineLen s.cy := h.len.1
  have hline : (textOf s).line.length = (s.lineLen s.cy).toNat := length_line h.row
  unfold clipCx
  rw [len_at_ok h.row.1 h.lt_max, ok_bind, hline]
  dsimp only [textOf]
  by_cases hlong : s.cx > s.lineLen s.cy
  · rw [if_pos hlong]
    refine ⟨_, rfl, ⟨h.lines, h.row, h.lens, h.ends, ?_⟩, rfl, TextBuffer.ext rfl rfl ?_⟩
    · exact ⟨hlen, Int.le_refl _⟩
    · change (s.lineLen s.cy).toNat = _
      dsimp only
      omega
  · rw [if_neg hlong]
    refine ⟨_, rfl, ⟨h.lines, h.row, h.lens, h.ends, ?_⟩, rfl, TextBuffer.ext rfl rfl ?_⟩
    · exact ⟨hcx, by omega⟩
    · change s.cx.toNat = _
      dsimp only
      omega

/-- Marking the text as modified changes nothing else. -/
theorem Leaves.modified {r : Except Fault Editor} {t : TextBuffer UInt8} (h : Leaves s r t) :
    Leaves s (r >>= fun s => .ok { s with modified := true }) t := by
  obtain ⟨s', rfl, hbounds, hscroll, htext⟩ := h
  exact ⟨_, rfl, ⟨hbounds.lines, hbounds.row, hbounds.lens, hbounds.ends, hbounds.col⟩, hscroll, htext⟩

theorem delete_only_leaves (h : Bounds s) (hone : s.numLines = 1) :
    Leaves s (bufDeleteLine s) ⟨[[]], (textOf s).row, 0⟩ := by
  have hcy : s.cy = 0 := by
    have hrow := h.row
    omega
  have htext : (textOf s).lines.set (textOf s).row [] = [[]] := by
    unfold textOf
    dsimp only
    rw [hcy, hone]
    rfl
  have hempty : withRow s (fun _ => 0) 0 0 =
      { s with buf := Function.update s.buf 0 (fun _ => 0), lineLen := Function.update s.lineLen 0 0, cx := 0,
               modified := true } := by
    unfold withRow
    rw [hcy]
  unfold bufDeleteLine
  rw [if_pos hone, ← hempty, ← htext]
  exact with_row_leaves h (by decide) rfl (by decide)

/-- The row of the cursor when a row has been taken out. -/
theorem row_after_delete {row n cy : Int} (hrow : 0 ≤ row ∧ row < n) (hmore : n ≠ 1)
    (hcy : cy = if row ≥ n - 1 then n - 1 - 1 else row) :
    (0 ≤ cy ∧ cy < n - 1) ∧ cy.toNat = min row.toNat (n.toNat - 1 - 1) := by
  split at hcy <;> omega

theorem delete_line_leaves (h : Bounds s) : Leaves s (bufDeleteLine s) (textOf s).deleteLine := by
  have hcx := h.col
  have hrow := h.row
  have hlines : (textOf s).lines.length = s.numLines.toNat := length_tabulate
  have hmax := h.lines
  unfold TextBuffer.deleteLine
  rw [hlines]
  by_cases hone : s.numLines = 1
  · rw [if_pos (by omega)]
    exact delete_only_leaves h hone
  · obtain ⟨cy, hcy⟩ : ∃ cy, cy = if s.cy ≥ s.numLines - 1 then s.numLines - 1 - 1 else s.cy := ⟨_, rfl⟩
    obtain ⟨hcy', hlast⟩ := row_after_delete hrow hone hcy
    have hclosed : 0 ≤ (closed s s.cy cy 0).lineLen cy :=
      (closed_rows (fun n _ => 0 ≤ n ∧ n ≤ 80) h.lens s.cy cy 0 hcy'.1 hcy'.2).1
    obtain ⟨s', hs', hbounds, hscroll, htext⟩ :=
      closed_leaves h s.cy cy 0 hrow hcy' ⟨Int.le_refl _, hclosed⟩
    obtain rfl := Except.ok.inj hs'
    have hlength : ((textOf s).lines.eraseIdx s.cy.toNat).length = s.numLines.toNat - 1 := by
      rw [List.length_eraseIdx, hlines, if_pos (by omega)]
    have hlines' : (textOf (closed s s.cy cy s.cx)).lines = (textOf s).lines.eraseIdx s.cy.toNat :=
      congrArg TextBuffer.lines htext
    obtain ⟨s', hs', hbounds', hscroll', htext'⟩ :=
      (clip_leaves (s := { closed s s.cy cy s.cx with modified := s.modified })
        ⟨hbounds.lines, hbounds.row, hbounds.lens, hbounds.ends, hbounds.col⟩ hcx.1).modified
    refine ⟨s', ?_, hbounds', hscroll', htext'.trans ?_⟩
    · unfold bufDeleteLine
      rw [if_neg hone, lines_up_ok hrow.1 (by omega), ok_bind, ← hs']
      dsimp only
      rw [hcy]
      split_ifs <;> rfl
    · have hrow' : min (textOf s).row (((textOf s).lines.eraseIdx (textOf s).row).length - 1) = cy.toNat := by
        rw [hlast]
        exact congrArg (fun n => min s.cy.toNat (n - 1)) hlength
      rw [if_neg (by omega)]
      dsimp only
      rw [hrow']
      refine TextBuffer.ext hlines' rfl ?_
      unfold TextBuffer.line
      exact congrArg (fun l : List (List UInt8) => min s.cx.toNat (l.getD cy.toNat []).length) hlines'

theorem placed (h : Bounds s) : (textOf s).Placed := by
  have hrow := h.row
  have hcol := h.col
  refine ⟨?_, ?_⟩
  · have hlength : (textOf s).lines.length = s.numLines.toNat := length_tabulate
    rw [hlength]
    dsimp only [textOf]
    omega
  · rw [length_line hrow]
    dsimp only [textOf]
    omega

/-- The step was `r`, and then a Backspace: the text is what it was. -/
def Restores (s : Editor) (r : Except Fault Editor) : Prop :=
  ∀ s₁ s₂, r = .ok s₁ → textOf s₁ ≠ textOf s → bufDeleteChar s₁ = .ok s₂ → textOf s₂ = textOf s

theorem restores_of_leaves {r : Except Fault Editor} {t : TextBuffer UInt8} (h : Leaves s r t)
    (hback : t ≠ textOf s → t.backspace 80 = textOf s) : Restores s r := by
  obtain ⟨s', hs', hbounds, -, htext⟩ := h
  intro s₁ s₂ h₁ hne h₂
  obtain rfl : s' = s₁ := Except.ok.inj (hs'.symm.trans h₁)
  obtain ⟨s₂', hs₂, -, -, htext₂⟩ := backspace_leaves hbounds
  obtain rfl : s₂' = s₂ := Except.ok.inj (hs₂.symm.trans h₂)
  rw [htext₂, htext]
  exact hback (htext ▸ hne)

theorem insert_restores (h : Bounds s) (c : UInt8) : Restores s (bufInsertChar s c) := by
  refine restores_of_leaves (insert_leaves h c) (fun hne => ?_)
  have hfits : (textOf s).line.length < 80 := by
    by_contra hfull
    exact hne (if_neg hfull)
  exact TextBuffer.backspace_insert (placed h) hfits

theorem newline_restores (h : Bounds s) : Restores s (bufNewline s) := by
  refine restores_of_leaves (newline_leaves h) (fun hne => ?_)
  have hroom : (textOf s).lines.length < 128 := by
    by_contra hfull
    exact hne (if_neg hfull)
  have hfits : (textOf s).line.length ≤ 80 := by
    have hlen := h.len
    rw [length_line h.row]
    omega
  exact TextBuffer.backspace_newline (placed h) hfits hroom

/-- The buffer is a text of at most 128 lines of at most 80 characters. -/
theorem buffer_refines_text (h : Bounds s) (c : UInt8) :
    Leaves s (bufInsertChar s c) ((textOf s).insert 80 c) ∧
    Leaves s (bufNewline s) ((textOf s).newline 128) ∧
    Leaves s (bufDeleteChar s) ((textOf s).backspace 80) ∧
    Leaves s (bufDeleteLine s) (textOf s).deleteLine ∧
    Restores s (bufInsertChar s c) ∧ Restores s (bufNewline s) :=
  ⟨insert_leaves h c, newline_leaves h, backspace_leaves h, delete_line_leaves h, insert_restores h c,
    newline_restores h⟩

theorem init_bounds (s : Editor) : Bounds (bufInit s) where
  lines := ⟨Int.le_refl 1, show (1 : Int) ≤ 128 by decide⟩
  row := ⟨Int.le_refl 0, show (0 : Int) < 1 by decide⟩
  lens _ _ _ := ⟨Int.le_refl 0, show (0 : Int) ≤ 80 by decide⟩
  ends _ _ _ := rfl
  col := ⟨Int.le_refl 0, Int.le_refl 0⟩

/-- The editor before it is opened. -/
def blankEditor : Editor := ⟨fun _ _ => 0, fun _ => 0, 0, 0, 0, 0, false, [], "", []⟩

/-- Three lines, the second of them empty, with the cursor in the third. -/
def threeLines : Editor :=
  { bufInit blankEditor with
    buf := fun i j => if i = 0 ∧ 0 ≤ j ∧ j < 2 then 97 else if i = 2 ∧ 0 ≤ j ∧ j < 3 then 98 else 0
    lineLen := fun i => if i = 0 then 2 else if i = 2 then 3 else 0
    numLines := 3, cy := 2, cx := 1 }

theorem three_lines_bounds : Bounds threeLines := by
  have hrow : ∀ i : Int, 0 ≤ i → i < 3 → i = 0 ∨ i = 1 ∨ i = 2 := fun i h₀ h₁ => by omega
  refine ⟨by decide, by decide, ?_, ?_, by decide⟩
  · intro i h₀ h₁
    rcases hrow i h₀ h₁ with rfl | rfl | rfl <;> decide
  · intro i h₀ h₁
    rcases hrow i h₀ h₁ with rfl | rfl | rfl <;> rfl

/-- What a character, a newline, a backspace and the deletion of the line make of the third line. -/
theorem buffer_refines_text_three :
    Leaves threeLines (bufInsertChar threeLines 99) ⟨[[97, 97], [], [98, 99, 98, 98]], 2, 2⟩ ∧
    Leaves threeLines (bufNewline threeLines) ⟨[[97, 97], [], [98], [98, 98]], 3, 0⟩ ∧
    Leaves threeLines (bufDeleteChar threeLines) ⟨[[97, 97], [], [98, 98]], 2, 0⟩ ∧
    Leaves threeLines (bufDeleteLine threeLines) ⟨[[97, 97], []], 1, 0⟩ := by
  obtain ⟨hinsert, hnewline, hback, hline, -, -⟩ := buffer_refines_text three_lines_bounds 99
  exact ⟨hinsert, hnewline, hback, hline⟩

end BaSic.Proofs.EditorText
