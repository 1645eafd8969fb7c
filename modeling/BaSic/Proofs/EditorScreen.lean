import BaSic.Kernel.EditorScreen
import BaSic.Lib.Words
import BaSic.Proofs.CalcPrint
import BaSic.Proofs.EditorKeys
import BaSic.Proofs.EditorLoad

namespace BaSic.Proofs.EditorScreen
open Kernel Fs Lib CalcPrint Lib.Decimal EditorText EditorKeys

/-- A cell in two colours. -/
def colored (c : UInt8) (fg bg : VgaColor) : UInt16 := vgaCell c ((bg.code <<< 4) ||| fg.code)

/-- A row with a text in it from a column on. -/
def overlay (row : Nat → UInt16) (col : Nat) (text : List UInt8) (fg bg : VgaColor) : Nat → UInt16 := fun c =>
  if col ≤ c then (text[c - col]?).elim (row c) (fun ch => colored ch fg bg) else row c

def blankRow (fg bg : VgaColor) : Nat → UInt16 := fun _ => colored 32 fg bg

/-- The title bar. -/
def titleRow (s : Editor) : Nat → UInt16 :=
  let row := overlay (blankRow .black .lightGrey) 1 (bytes "baSic_ editor") .black .lightGrey
  let row := overlay row 16 (bytes "|") .darkGrey .lightGrey
  let row := overlay row 18 s.filename .black .lightGrey
  let row := if s.modified then overlay row (18 + s.filename.length) (bytes " [modified]") .red .lightGrey else row
  overlay row 45 (bytes "^S save  ^Q quit  ^F find  ^K del") .darkGrey .lightGrey

/-- The status bar counts lines and columns from 1. -/
def statusRow (t : TextBuffer UInt8) : Nat → UInt16 :=
  let row := overlay (blankRow .black .cyan) 1 (bytes "Ln:") .black .cyan
  let row := overlay row 4 (numeralText (t.row + 1)) .black .cyan
  let row := overlay row 8 (bytes "Col:") .black .cyan
  let row := overlay row 12 (numeralText (t.col + 1)) .black .cyan
  let row := overlay row 16 (bytes "Lines:") .black .cyan
  overlay row 22 (numeralText t.lines.length) .black .cyan

def messageRow (s : Editor) (age : UInt32) : Nat → UInt16 :=
  if bytes s.msg ≠ [] ∧ age < 3000 then overlay (blankRow .lightGrey .black) 1 (bytes s.msg) .lightGreen .black
  else overlay (blankRow .lightGrey .black) 1 keysHelp .darkGrey .black

/-- A line number, in four columns on the right. -/
def gutter (n : Nat) : List UInt8 := List.replicate (4 - (numeralText n).length) 32 ++ numeralText n

/-- A row with the cursor in a column; a NUL is shown as a blank. -/
def cursorOn (row : Nat → UInt16) (col : Nat) : Nat → UInt16 := fun c =>
  if c = col then colored (if (row c).toUInt8 ≠ 0 then (row c).toUInt8 else 32) .black .white else row c

/-- The row of a line of the text: its number, and what fits of it from column 5 on. -/
def lineRow (text : List UInt8) (line : Nat) (bg : VgaColor) : Nat → UInt16 :=
  overlay (overlay (overlay (blankRow .lightGrey bg) 0 (gutter (line + 1)) .darkGrey bg) 4 [32] .darkGrey bg) 5
    (text.take 75) .white bg

/-- Row `r` of the text area, when the screen begins with line `top`: the line of the cursor is
highlighted. -/
def textRow (t : TextBuffer UInt8) (top r : Nat) : Nat → UInt16 :=
  if t.lines.length ≤ top + r then blankRow .lightGrey .black
  else if top + r = t.row then cursorOn (lineRow t.line t.row .darkGrey) (min (t.col + 5) 79)
  else lineRow (t.lines.getD (top + r) []) (top + r) .black

/-- The screen of 25 rows that goes with an editor. -/
def picture (s : Editor) (age : UInt32) (i : Nat) : UInt16 :=
  if i / 80 = 0 then titleRow s (i % 80)
  else if i / 80 = 23 then statusRow (textOf s) (i % 80)
  else if i / 80 = 24 then messageRow s age (i % 80)
  else textRow (textOf s) s.scrollY.toNat (i / 80 - 1) (i % 80)

variable {fb : Framebuffer} {row col n : Nat} {c : UInt8} {fg bg : VgaColor} {s : Editor}

/-- What is done to one row of the screen. -/
def onRow (fb : Framebuffer) (row : Nat) (f : (Nat → UInt16) → Nat → UInt16) : Framebuffer := fun i =>
  if i / 80 = row then f (fun c => fb (row * 80 + c)) (i % 80) else fb i

variable {f g : (Nat → UInt16) → Nat → UInt16} {fb' : Framebuffer}

theorem on_row_at (fb : Framebuffer) (row : Nat) (f : (Nat → UInt16) → Nat → UInt16) {c : Nat} (hc : c < 80) :
    onRow fb row f (row * 80 + c) = f (fun c => fb (row * 80 + c)) c := by
  unfold onRow
  rw [if_pos (by omega), Nat.mul_comm, Nat.mul_add_mod, Nat.mod_eq_of_lt hc]

theorem on_row_other {i : Nat} (hi : i / 80 ≠ row) : onRow fb row f i = fb i := if_neg hi

theorem eq_on_row (hrow : ∀ c < 80, fb' (row * 80 + c) = f (fun c => fb (row * 80 + c)) c)
    (hother : ∀ i, i / 80 ≠ row → fb' i = fb i) : fb' = onRow fb row f := by
  funext i
  by_cases hi : i / 80 = row
  · obtain ⟨c, hc, rfl⟩ : ∃ c < 80, i = row * 80 + c := ⟨i % 80, Nat.mod_lt i (by decide), by omega⟩
    rw [hrow c hc, on_row_at fb row f hc]
  · rw [hother i hi, on_row_other hi]

/-- What is done to a row by one step after the other, where these look no further than the row. -/
theorem on_row_on_row (fb : Framebuffer) (row : Nat) (f : (Nat → UInt16) → Nat → UInt16)
    (hg : ∀ a b : Nat → UInt16, (∀ c < 80, a c = b c) → ∀ c < 80, g a c = g b c) :
    onRow (onRow fb row f) row g = onRow fb row (fun base => g (f base)) := by
  apply eq_on_row
  · intro c hc
    rw [on_row_at _ _ _ hc]
    exact hg _ _ (fun c hc => on_row_at fb row f hc) c hc
  · intro i hi
    rw [on_row_other hi, on_row_other hi]

theorem overlay_congr {a b : Nat → UInt16} (h : ∀ c < 80, a c = b c) (col : Nat) (text : List UInt8) (fg bg : VgaColor) :
    ∀ c < 80, overlay a col text fg bg c = overlay b col text fg bg c := by
  intro c hc
  unfold overlay
  rw [h c hc]

theorem overlay_nil (row : Nat → UInt16) : overlay row col [] fg bg = row := by
  funext c
  simp [overlay]

theorem overlay_cons (row : Nat → UInt16) (col : Nat) (c : UInt8) (text : List UInt8) :
    overlay row col (c :: text) fg bg = overlay (overlay row col [c] fg bg) (col + 1) text fg bg := by
  funext i
  unfold overlay
  rcases Nat.lt_trichotomy i col with hi | rfl | hi
  · simp [Nat.not_le.mpr hi, Nat.not_le.mpr (Nat.lt_succ_of_lt hi)]
  · simp
  · have hle : col + 1 ≤ i := hi
    have hone : i - col = i - (col + 1) + 1 := by omega
    simp [hle, Nat.le_of_lt hi, hone]

theorem overlay_before {i : Nat} (row : Nat → UInt16) (text : List UInt8) (h : i < col) :
    overlay row col text fg bg i = row i := if_neg (Nat.not_le.mpr h)

theorem overlay_after {i : Nat} (row : Nat → UInt16) (text : List UInt8) (h : col + text.length ≤ i) :
    overlay row col text fg bg i = row i := by
  have hnone : text[i - col]? = none := List.getElem?_eq_none (by omega)
  simp [overlay, hnone]

/-- One cell, in any attribute. -/
theorem ed_put_cell (fb : Framebuffer) (col : Nat) (hrow : row < 25) (c fg bg : UInt8) :
    edPut fb col row c fg bg = onRow fb row (fun base i => if i = col then vgaCell c ((bg <<< 4) ||| fg) else base i) := by
  have hwidth : vgaWidth = 80 := rfl
  have hheight : vgaHeight = 25 := rfl
  unfold edPut
  rw [hwidth, hheight]
  by_cases hcol : col < 80
  · have hplace : ((row : Int) * ((80 : Nat) : Int) + col).toNat = row * 80 + col := by omega
    rw [if_neg (by omega), hplace]
    apply eq_on_row
    · intro i hi
      by_cases hcell : i = col
      · simp [hcell]
      · rw [Function.update_of_ne (by omega), if_neg hcell]
    · intro i hi
      rw [Function.update_of_ne (by omega)]
  · rw [if_pos (by omega)]
    apply eq_on_row
    · intro i hi
      rw [if_neg (by omega)]
    · exact fun i hi => rfl

theorem overlay_single (row : Nat → UInt16) (col : Nat) (c : UInt8) (fg bg : VgaColor) :
    overlay row col [c] fg bg = fun i => if i = col then colored c fg bg else row i := by
  funext i
  rcases Nat.lt_trichotomy i col with hlt | rfl | hgt
  · rw [overlay_before _ _ hlt, if_neg (Nat.ne_of_lt hlt)]
  · simp [overlay]
  · rw [overlay_after _ _ hgt, if_neg (Nat.ne_of_gt hgt)]

theorem ed_put_row (fb : Framebuffer) (col : Nat) (hrow : row < 25) (c : UInt8) (fg bg : VgaColor) :
    edPut fb col row c fg.code bg.code = onRow fb row (fun base => overlay base col [c] fg bg) := by
  simp only [ed_put_cell fb col hrow, overlay_single, colored]

theorem ed_str_row (fb : Framebuffer) (col : Nat) (hrow : row < 25) (text : List UInt8) (fg bg : VgaColor) :
    edStr fb col row text fg.code bg.code = onRow fb row (fun base => overlay base col text fg bg) := by
  induction text generalizing fb col with
  | nil =>
    apply eq_on_row
    · intro i hi
      rw [overlay_nil, edStr]
    · exact fun i hi => rfl
  | cons c text ih =>
    have hwidth : vgaWidth = 80 := rfl
    unfold edStr
    rw [hwidth]
    by_cases hcol : col < 80
    · have hnext : ((col : Int) + 1) = ((col + 1 : Nat) : Int) := rfl
      rw [if_pos (by omega), ed_put_row fb col hrow, hnext, ih, on_row_on_row]
      · simp only [overlay_cons _ col c text]
      · exact fun a b h => overlay_congr h _ _ _ _
    · rw [if_neg (by omega)]
      apply eq_on_row
      · intro i hi
        rw [overlay_before _ _ (by omega)]
      · exact fun i hi => rfl

theorem ed_fill_row (fb : Framebuffer) (hrow : row < 25) (c : UInt8) (fg bg : VgaColor) :
    edFillRow fb row c fg.code bg.code = onRow fb row (fun _ _ => colored c fg bg) := by
  have hpart : ∀ n ≤ 80, (List.range n).foldl (fun fb (i : Nat) => edPut fb i row c fg.code bg.code) fb =
      onRow fb row (fun base i => if i < n then colored c fg bg else base i) := by
    intro n hn
    induction n with
    | zero => exact eq_on_row (fun i hi => rfl) (fun i hi => rfl)
    | succ n ih =>
      rw [List.range_succ, List.foldl_append, ih (by omega), List.foldl_cons, List.foldl_nil, ed_put_row _ _ hrow,
        on_row_on_row _ _ _ (fun a b h => overlay_congr h _ _ _ _)]
      apply eq_on_row
      · intro i hi
        rw [on_row_at _ _ _ hi]
        rcases Nat.lt_trichotomy i n with hlt | rfl | hgt
        · rw [overlay_before _ _ hlt, if_pos hlt, if_pos (Nat.lt_succ_of_lt hlt)]
        · simp [overlay]
        · rw [overlay_after _ _ hgt, if_neg (by omega), if_neg (by omega)]
      · exact fun i hi => on_row_other hi
  have hall := hpart 80 (Nat.le_refl 80)
  have hwidth : vgaWidth = 80 := rfl
  unfold edFillRow
  rw [hwidth, hall]
  apply eq_on_row
  · intro i hi
    rw [on_row_at _ _ _ hi, if_pos hi]
  · exact fun i hi => on_row_other hi

theorem tenth (hn : n < 4294967296) : UInt32.ofNat n / 10 = UInt32.ofNat (n / 10) := by
  have hval : (UInt32.ofNat n).toNat = n := UInt32.toNat_ofNat_of_lt' hn
  simp [← UInt32.toNat_inj, hval, UInt32.toNat_ofNat_of_lt' (show n / 10 < 4294967296 by omega)]

theorem last_char (hn : n < 4294967296) : 48 + (UInt32.ofNat n % 10).toUInt8 = digitByte (n % 10) := by
  have hval : (UInt32.ofNat n).toNat = n := UInt32.toNat_ofNat_of_lt' hn
  have hdigit := digit_byte_toNat (Nat.mod_lt n (show 10 > 0 by decide))
  have hfour : (48 : UInt8).toNat = 48 := rfl
  simp only [← UInt8.toNat_inj, hdigit, UInt8.toNat_add, UInt32.toNat_toUInt8, UInt32.toNat_mod, hval, hfour]
  simp only [UInt32.reduceToNat]
  omega

/-- A number that is not 0 has its digits put in front of what there is. -/
theorem ed_digits_text (pos : Nat) (hn : n < 4294967296) (hfit : n < 10 ^ pos) (text : List UInt8) :
    edDigits pos (UInt32.ofNat n) text = .ok ((leading 10 n).map digitByte ++ text) := by
  have hval : (UInt32.ofNat n).toNat = n := UInt32.toNat_ofNat_of_lt' hn
  induction pos generalizing n text with
  | zero =>
    obtain rfl : n = 0 := Nat.lt_one_iff.mp hfit
    simp [edDigits, leading_zero]
  | succ pos ih =>
    by_cases hzero : n = 0
    · simp [hzero, edDigits, leading_zero]
    have hne : ¬ UInt32.ofNat n = 0 := by
      simpa [← UInt32.toNat_inj, hval] using hzero
    have hrest := ih (by omega) (tenth_lt hfit) (digitByte (n % 10) :: text)
      (UInt32.toNat_ofNat_of_lt' (show n / 10 < 4294967296 by omega))
    simp only [edDigits, if_neg hne, tenth hn, last_char hn, hrest, leading_text_step (Nat.pos_of_ne_zero hzero),
      List.append_assoc, List.singleton_append]

theorem ed_num_row (fb : Framebuffer) (col : Nat) (hrow : row < 25) (hn : n < 4294967296) (fg bg : VgaColor) :
    edNum fb col row (UInt32.ofNat n) fg.code bg.code =
      .ok (onRow fb row (fun base => overlay base col (numeralText n) fg bg)) := by
  have hval : (UInt32.ofNat n).toNat = n := UInt32.toNat_ofNat_of_lt' hn
  unfold edNum
  by_cases hzero : n = 0
  · subst hzero
    have hnull : UInt32.ofNat 0 = 0 := rfl
    rw [if_pos hnull, ed_put_row fb col hrow]
    rfl
  · have hne : ¬ UInt32.ofNat n = 0 := by
      simpa [← UInt32.toNat_inj, hval] using hzero
    have hdigits := ed_digits_text 11 hn (hn.trans (by decide)) []
    have htext : numeralText n = (leading 10 n).map digitByte := by simp [numeralText, written, hzero]
    rw [if_neg hne, hdigits, ok_bind, List.append_nil, ← htext, ed_str_row fb col hrow]

theorem gutter_text (li : Nat) (hn : n < 4294967296) (hfit : n < 10 ^ li) (text : List UInt8) :
    gutterText li (UInt32.ofNat n) text =
      List.replicate (li - (leading 10 n).length) 32 ++ (leading 10 n).map digitByte ++ text := by
  have hval : (UInt32.ofNat n).toNat = n := UInt32.toNat_ofNat_of_lt' hn
  induction li generalizing n text with
  | zero =>
    obtain rfl : n = 0 := Nat.lt_one_iff.mp hfit
    simp [gutterText, leading_zero]
  | succ li ih =>
    unfold gutterText
    rw [tenth hn]
    by_cases hzero : n = 0
    · subst hzero
      have hrest := ih (n := 0) (by omega) (Nat.pow_pos (by decide)) (32 :: text) rfl
      have hnone : ¬ UInt32.ofNat 0 > 0 := by decide
      rw [if_neg hnone, Nat.zero_div, hrest]
      simp [leading_zero, List.replicate_succ']
    · have hpos : UInt32.ofNat n > 0 := by
        rw [gt_iff_lt, UInt32.lt_iff_toNat_lt, hval]
        exact Nat.pos_of_ne_zero hzero
      have hrest := ih (by omega) (tenth_lt hfit) (digitByte (n % 10) :: text)
        (UInt32.toNat_ofNat_of_lt' (show n / 10 < 4294967296 by omega))
      have hlen : (leading 10 n).length = (leading 10 (n / 10)).length + 1 := by
        rw [leading_step (by decide) (Nat.pos_of_ne_zero hzero), List.length_append, List.length_singleton]
      rw [if_pos hpos, last_char hn, hrest, leading_text_step (Nat.pos_of_ne_zero hzero), hlen, Nat.add_sub_add_right]
      simp

/-- The line number of `render_text`. -/
theorem gutter_eq (hpos : 0 < n) (hn : n < 10000) : gutterText 4 (UInt32.ofNat n) [] = gutter n := by
  have hne : n ≠ 0 := Nat.pos_iff_ne_zero.mp hpos
  rw [gutter_text 4 (by omega) hn]
  simp [gutter, numeralText, written, hne]

theorem cell_to_nat (c attr : UInt8) : (vgaCell c attr).toNat = attr.toNat * 2 ^ 8 + c.toNat := by
  have hattr := attr.toNat_lt
  have hfits : attr.toNat <<< 8 % 2 ^ 16 = attr.toNat <<< 8 := by
    rw [Nat.shiftLeft_eq]
    omega
  unfold vgaCell
  rw [UInt16.toNat_or, UInt16.toNat_shiftLeft]
  simp only [UInt8.toNat_toUInt16, UInt16.reduceToNat, Nat.reduceMod]
  rw [hfits, shl_or_of_lt c.toNat_lt]

theorem cell_char (c attr : UInt8) : (vgaCell c attr).toUInt8 = c := by
  have hc := c.toNat_lt
  rw [← UInt8.toNat_inj, UInt16.toNat_toUInt8, cell_to_nat]
  omega

theorem cell_attr (c attr : UInt8) : ((vgaCell c attr) >>> 8).toUInt8 = attr := by
  have hc := c.toNat_lt
  have hattr := attr.toNat_lt
  rw [← UInt8.toNat_inj, UInt16.toNat_toUInt8, UInt16.toNat_shiftRight, cell_to_nat]
  simp only [UInt16.reduceToNat, Nat.reduceMod, Nat.shiftRight_eq_div_pow]
  omega

/-- A cell on the highlighted ground. -/
def relit (cell : UInt16) : UInt16 :=
  vgaCell cell.toUInt8 ((VgaColor.darkGrey.code <<< 4) ||| ((cell >>> 8).toUInt8 &&& 0x0F))

theorem relit_colored (c : UInt8) (fg bg : VgaColor) : relit (colored c fg bg) = colored c fg .darkGrey := by
  have hfg : ((bg.code <<< 4) ||| fg.code) &&& 0x0F = fg.code := by cases fg <;> cases bg <;> rfl
  unfold relit colored
  rw [cell_char, cell_attr, hfg]

theorem relit_overlay {lit : Nat → UInt16} {base : Nat → UInt16} (h : ∀ i, relit (base i) = lit i) (col : Nat)
    (text : List UInt8) (fg bg : VgaColor) (i : Nat) :
    relit (overlay base col text fg bg i) = overlay lit col text fg .darkGrey i := by
  unfold overlay
  split
  · cases text[i - col]? with
    | none => exact h i
    | some c => exact relit_colored c fg bg
  · exact h i

theorem relit_line (text : List UInt8) (line : Nat) (bg : VgaColor) (i : Nat) :
    relit (lineRow text line bg i) = lineRow text line .darkGrey i := by
  apply relit_overlay
  apply relit_overlay
  apply relit_overlay
  exact fun i => relit_colored 32 .lightGrey bg

theorem fb_load_row (fb : Framebuffer) (hrow : row < 25) (hcol : col < 80) :
    fbLoad fb (row * vgaWidth + col) = .ok (fb (row * 80 + col)) := by
  have hwidth : vgaWidth = 80 := rfl
  have hheight : vgaHeight = 25 := rfl
  have hplace : ((row : Int) * ((80 : Nat) : Int) + col).toNat = row * 80 + col := by omega
  unfold fbLoad
  rw [hwidth, hheight, if_pos (by omega), hplace]

theorem highlight_row (fb : Framebuffer) (hrow : row < 25) :
    (List.range vgaWidth).foldlM (highlightCell row) fb = .ok (onRow fb row (fun base i => relit (base i))) := by
  have hpart : ∀ n ≤ 80, (List.range n).foldlM (highlightCell row) fb =
      .ok (onRow fb row (fun base i => if i < n then relit (base i) else base i)) := by
    intro n hn
    induction n with
    | zero => exact congrArg Except.ok (eq_on_row (fun i hi => rfl) (fun i hi => rfl))
    | succ n ih =>
      rw [List.range_succ, List.foldlM_append, ih (by omega), ok_bind]
      simp only [List.foldlM_cons, List.foldlM_nil, bind_pure]
      unfold highlightCell
      rw [fb_load_row _ hrow (by omega), ok_bind, on_row_at _ _ _ (by omega), ed_put_cell _ _ hrow,
        on_row_on_row]
      · refine congrArg Except.ok (eq_on_row (fun i hi => ?_) (fun i hi => on_row_other hi))
        rw [on_row_at _ _ _ hi]
        rcases Nat.lt_trichotomy i n with hlt | rfl | hgt
        · simp [Nat.ne_of_lt hlt, hlt, Nat.lt_succ_of_lt hlt]
        · simp [relit]
        · simp [Nat.ne_of_gt hgt, Nat.not_lt.mpr (Nat.le_of_lt hgt), Nat.not_le.mpr hgt]
      · intro a b h c hc
        simp only [h c hc]
  have hall := hpart 80 (Nat.le_refl 80)
  have hwidth : vgaWidth = 80 := rfl
  rw [hwidth, hall]
  refine congrArg Except.ok (eq_on_row (fun i hi => ?_) (fun i hi => on_row_other hi))
  rw [on_row_at _ _ _ hi, if_pos hi]

/-- Row `r` of the text area before the cursor is drawn. -/
def plainRow (t : TextBuffer UInt8) (top r : Nat) : Nat → UInt16 :=
  if t.lines.length ≤ top + r then blankRow .lightGrey .black
  else lineRow (t.lines.getD (top + r) []) (top + r) (if top + r = t.row then .darkGrey else .black)

theorem of_int_nat {x : Int} (hx : 0 ≤ x) : UInt32.ofInt x = UInt32.ofNat x.toNat := by
  unfold UInt32.ofInt
  rw [← UInt32.toNat_inj, UInt32.toNat_ofNat', UInt32.toNat_ofNat']
  omega

variable {r : Nat}

theorem row_text_getD (h : Bounds s) {line : Nat} (hline : line < s.numLines.toNat) :
    ((textOf s).lines.getD line []).take 75 =
      tabulate (min (s.lineLen line) 75).toNat (fun j => s.buf line (0 + (j : Int))) := by
  have hlen := h.lens line (by omega) (by omega)
  have hlines : (textOf s).lines = tabulate s.numLines.toNat (rowText s) := rfl
  have hmin : (min (s.lineLen line) 75).toNat = min 75 (s.lineLen line).toNat := by omega
  have hzero : ∀ j : Nat, (0 : Int) + j = j := fun j => Int.zero_add _
  rw [hlines, tabulate_getD hline]
  unfold rowText
  simp only [hzero]
  refine List.ext_getElem? (fun i => ?_)
  rw [tabulate_get?, hmin]
  by_cases hi : i < 75
  · rw [List.getElem?_take_of_lt hi, tabulate_get?]
    simp [hi]
  · rw [List.getElem?_eq_none (by rw [List.length_take]; omega), if_neg (by omega)]

theorem str_on_row (fb : Framebuffer) (f : (Nat → UInt16) → Nat → UInt16) {x y : Int} (hx : 0 ≤ x) (hy : 0 ≤ y ∧ y < 25)
    (text : List UInt8) (fg bg : VgaColor) : edStr (onRow fb y.toNat f) x y text fg.code bg.code =
      onRow fb y.toNat (fun base => overlay (f base) x.toNat text fg bg) := by
  obtain ⟨col, rfl⟩ := Int.eq_ofNat_of_zero_le hx
  obtain ⟨row, rfl⟩ := Int.eq_ofNat_of_zero_le hy.1
  rw [Int.toNat_natCast, Int.toNat_natCast, ed_str_row _ _ (by omega),
    on_row_on_row _ _ _ (fun a b h => overlay_congr h _ _ _ _)]

theorem put_on_row (fb : Framebuffer) (f : (Nat → UInt16) → Nat → UInt16) {x y : Int} (hx : 0 ≤ x) (hy : 0 ≤ y ∧ y < 25)
    (c : UInt8) (fg bg : VgaColor) : edPut (onRow fb y.toNat f) x y c fg.code bg.code =
      onRow fb y.toNat (fun base => overlay (f base) x.toNat [c] fg bg) := by
  obtain ⟨col, rfl⟩ := Int.eq_ofNat_of_zero_le hx
  obtain ⟨row, rfl⟩ := Int.eq_ofNat_of_zero_le hy.1
  rw [Int.toNat_natCast, Int.toNat_natCast, ed_put_row _ _ (by omega),
    on_row_on_row _ _ _ (fun a b h => overlay_congr h _ _ _ _)]

theorem num_on_row (fb : Framebuffer) (f : (Nat → UInt16) → Nat → UInt16) {x y v : Int} (hx : 0 ≤ x)
    (hy : 0 ≤ y ∧ y < 25) (hv : 0 ≤ v ∧ v < 4294967296) (fg bg : VgaColor) :
    edNum (onRow fb y.toNat f) x y (UInt32.ofInt v) fg.code bg.code =
      .ok (onRow fb y.toNat (fun base => overlay (f base) x.toNat (numeralText v.toNat) fg bg)) := by
  obtain ⟨col, rfl⟩ := Int.eq_ofNat_of_zero_le hx
  obtain ⟨row, rfl⟩ := Int.eq_ofNat_of_zero_le hy.1
  rw [of_int_nat hv.1, Int.toNat_natCast, Int.toNat_natCast, ed_num_row _ _ (by omega) (by omega),
    on_row_on_row _ _ _ (fun a b h => overlay_congr h _ _ _ _)]

theorem fill_row (fb : Framebuffer) {y : Int} (hy : 0 ≤ y ∧ y < 25) (fg bg : VgaColor) :
    edFillRow fb y 32 fg.code bg.code = onRow fb y.toNat (fun _ => blankRow fg bg) := by
  obtain ⟨row, rfl⟩ := Int.eq_ofNat_of_zero_le hy.1
  exact ed_fill_row fb (by omega) 32 fg bg

/-- A turn of the loop of `render_text` draws one row, whatever was there. -/
theorem render_line_eq (h : Good s) (hr : r < 22) (fb : Framebuffer) :
    renderLine s fb r = .ok (onRow fb (r + 1) (fun _ => plainRow (textOf s) s.scrollY.toNat r)) := by
  have hlines := h.lines
  have htop := h.top
  have hcursor := h.row
  have hfirst : rowTextS = 1 := rfl
  have hvrow : 0 ≤ rowTextS + (r : Int) ∧ rowTextS + (r : Int) < 25 := by omega
  have hplace : (rowTextS + (r : Int)).toNat = r + 1 := by omega
  have hlength : (textOf s).lines.length = s.numLines.toNat := length_tabulate
  have hrow : (textOf s).row = s.cy.toNat := rfl
  unfold renderLine plainRow
  rw [hlength, hrow]
  dsimp only
  rw [fill_row _ hvrow]
  by_cases hend : s.scrollY + r ≥ s.numLines
  · rw [if_pos hend, if_pos (by omega), hplace]
  · have hbounds := h.lens (s.scrollY + r) (by omega) (by omega)
    have hnumber : UInt32.ofInt (s.scrollY + r + 1) = UInt32.ofNat (s.scrollY.toNat + r + 1) := by
      rw [of_int_nat (by omega)]
      congr 1
      omega
    have hline : s.scrollY + r = ((s.scrollY.toNat + r : Nat) : Int) := by omega
    have htext := row_text_getD h.toBounds (show s.scrollY.toNat + r < s.numLines.toNat by omega)
    rw [if_neg hend, if_neg (by omega), len_at_ok (by omega) (by omega), ok_bind,
      line_text_ok (by omega) (by omega) (Int.le_refl 0) (by omega), ok_bind, hnumber, gutter_eq (by omega) (by omega),
      str_on_row _ _ (by decide) hvrow, put_on_row _ _ (by decide) hvrow, str_on_row _ _ (by decide) hvrow, hline, ← htext,
      hplace]
    by_cases hcy : s.scrollY.toNat + r = s.cy.toNat
    · have hrowcast : rowTextS + (r : Int) = ((r + 1 : Nat) : Int) := by omega
      rw [if_pos (by omega), if_pos hcy, hrowcast, highlight_row _ (show r + 1 < 25 by omega), on_row_on_row]
      · refine congrArg Except.ok (eq_on_row (fun i hi => ?_) (fun i hi => on_row_other hi))
        rw [on_row_at _ _ _ hi]
        exact relit_line _ _ .black i
      · intro a b h c hc
        rw [h c hc]
    · rw [if_neg (by omega), if_neg hcy]
      rfl

/-- The text area is drawn from the lines, wherever the screen stood before. -/
theorem draw_text_eq (h : Good s) (fb : Framebuffer) : drawText s fb = .ok (fun i =>
    if 1 ≤ i / 80 ∧ i / 80 ≤ 22 then plainRow (textOf s) s.scrollY.toNat (i / 80 - 1) (i % 80) else fb i) := by
  have hpart : ∀ n ≤ 22, (List.range n).foldlM (renderLine s) fb = .ok (fun i =>
      if 1 ≤ i / 80 ∧ i / 80 ≤ n then plainRow (textOf s) s.scrollY.toNat (i / 80 - 1) (i % 80) else fb i) := by
    intro n hn
    induction n with
    | zero =>
      refine congrArg Except.ok (funext fun i => ?_)
      rw [if_neg (by omega)]
    | succ n ih =>
      rw [List.range_succ, List.foldlM_append, ih (by omega), ok_bind]
      simp only [List.foldlM_cons, List.foldlM_nil, bind_pure]
      rw [render_line_eq h (by omega)]
      refine congrArg Except.ok (funext fun i => ?_)
      by_cases hi : i / 80 = n + 1
      · have hprev : i / 80 - 1 = n := by omega
        rw [if_pos (by omega), hprev]
        exact if_pos hi
      · rw [on_row_other hi]
        by_cases hbefore : 1 ≤ i / 80 ∧ i / 80 ≤ n
        · rw [if_pos hbefore, if_pos (by omega)]
        · rw [if_neg hbefore, if_neg (by omega)]
  exact hpart 22 (Nat.le_refl 22)

theorem title_bar_eq (s : Editor) (fb : Framebuffer) : renderTitlebar s fb = onRow fb 0 (fun _ => titleRow s) := by
  have htop : 0 ≤ rowTitle ∧ rowTitle < 25 := by decide
  unfold renderTitlebar titleRow
  dsimp only
  rw [fill_row _ htop, str_on_row _ _ (by decide) htop, str_on_row _ _ (by decide) htop, str_on_row _ _ (by decide) htop]
  cases s.modified with
  | false =>
    rw [if_neg Bool.false_ne_true, if_neg Bool.false_ne_true, str_on_row _ _ (by decide) htop]
    rfl
  | true =>
    rw [if_pos rfl, if_pos rfl, str_on_row _ _ (by omega) htop, str_on_row _ _ (by decide) htop]
    rfl

theorem message_bar_eq (s : Editor) (age : UInt32) (fb : Framebuffer) :
    renderMsgbar s age fb = onRow fb 24 (fun _ => messageRow s age) := by
  have hlast : 0 ≤ rowMsg ∧ rowMsg < 25 := by decide
  unfold renderMsgbar messageRow
  dsimp only
  rw [fill_row _ hlast]
  split
  · rw [str_on_row _ _ (by decide) hlast]
    rfl
  · rw [str_on_row _ _ (by decide) hlast]
    rfl

/-- The cursor is at most in line 128 and in column 81, so its numbers fit. -/
theorem status_bar_eq (h : Good s) (fb : Framebuffer) :
    renderStatusbar s fb = .ok (onRow fb 23 (fun _ => statusRow (textOf s))) := by
  have hlines := h.lines
  have hcursor := h.row
  have hcol := h.col
  have hlen := h.lens s.cy hcursor.1 hcursor.2
  have hbar : 0 ≤ rowStatus ∧ rowStatus < 25 := by decide
  have hrow : (s.cy + 1).toNat = (textOf s).row + 1 := Int.toNat_add hcursor.1 (by decide)
  have hplace : (s.cx + 1).toNat = (textOf s).col + 1 := Int.toNat_add hcol.1 (by decide)
  have hcount : s.numLines.toNat = (textOf s).lines.length := length_tabulate.symm
  unfold renderStatusbar statusRow
  dsimp only
  rw [fill_row _ hbar, str_on_row _ _ (by decide) hbar, num_on_row _ _ (by decide) hbar (by omega), ok_bind,
    str_on_row _ _ (by decide) hbar, num_on_row _ _ (by decide) hbar (by omega), ok_bind,
    str_on_row _ _ (by decide) hbar, num_on_row _ _ (by decide) hbar (by omega), hrow, hplace, hcount]
  rfl

/-- The cell of the cursor is redrawn; the cursor is on the screen. -/
theorem cursor_eq (h : Good s) (fb : Framebuffer) : renderCursor s fb =
    .ok (onRow fb ((s.cy - s.scrollY).toNat + 1) (fun base => cursorOn base (min (s.cx.toNat + 5) 79))) := by
  have hcol := h.col
  have htop := h.top
  have hshown := h.shown
  have hfirst : rowTextS = 1 := rfl
  have hend : rowTextE = 22 := rfl
  have hwidth : vgaWidth = 80 := rfl
  have hvrow : rowTextS + (s.cy - s.scrollY) = (((s.cy - s.scrollY).toNat + 1 : Nat) : Int) := by omega
  have hvcol : (if s.cx + 5 ≥ (vgaWidth : Int) then (vgaWidth : Int) - 1 else s.cx + 5) =
      ((min (s.cx.toNat + 5) 79 : Nat) : Int) := by
    rw [hwidth]
    split_ifs <;> omega
  unfold renderCursor
  dsimp only
  rw [if_neg (by omega), hvcol, hvrow, fb_load_row _ (by omega) (by omega), ok_bind, ed_put_row _ _ (by omega)]
  refine congrArg Except.ok (eq_on_row (fun i hi => ?_) (fun i hi => on_row_other hi))
  rw [on_row_at _ _ _ hi, overlay_single]
  unfold cursorOn
  dsimp only
  by_cases hcell : i = min (s.cx.toNat + 5) 79
  · rw [if_pos hcell, if_pos hcell, hcell]
  · rw [if_neg hcell, if_neg hcell]

theorem cursor_on_congr {a b : Nat → UInt16} {i : Nat} (h : a i = b i) : cursorOn a col i = cursorOn b col i := by
  unfold cursorOn
  rw [h]

/-- The row the cursor is drawn on was that of its line. -/
theorem cursor_row (h : Good s) : cursorOn (plainRow (textOf s) s.scrollY.toNat (s.cy - s.scrollY).toNat)
    (min (s.cx.toNat + 5) 79) = textRow (textOf s) s.scrollY.toNat (s.cy - s.scrollY).toNat := by
  have htop := h.top
  have hshown := h.shown
  have hcursor := h.row
  have hlength : (textOf s).lines.length = s.numLines.toNat := length_tabulate
  have hrow : (textOf s).row = s.cy.toNat := rfl
  have hcol : (textOf s).col = s.cx.toNat := rfl
  have hline : s.scrollY.toNat + (s.cy - s.scrollY).toNat = s.cy.toNat := by omega
  unfold plainRow textRow
  rw [hlength, hrow, hcol, hline, if_neg (show ¬ s.numLines.toNat ≤ s.cy.toNat by omega),
    if_neg (show ¬ s.numLines.toNat ≤ s.cy.toNat by omega), if_pos rfl, if_pos rfl]
  rfl

theorem plain_row_other (t : TextBuffer UInt8) {top : Nat} (h : top + r ≠ t.row) : plainRow t top r = textRow t top r := by
  unfold plainRow textRow
  rw [if_neg h, if_neg h]

/-- The screen is that of the editor; what the screen does not show is not touched. -/
structure Draws (s : Editor) (age : UInt32) (fb fb' : Framebuffer) : Prop where
  shown : ∀ i < 2000, fb' i = picture s age i
  kept : ∀ i, 2000 ≤ i → fb' i = fb i

theorem draw_all_eq (h : Good s) (age : UInt32) (fb : Framebuffer) :
    ∃ fb', drawAll s age fb = .ok fb' ∧ Draws s age fb fb' := by
  have htop := h.top
  have hshown := h.shown
  unfold drawAll
  dsimp only
  rw [title_bar_eq, draw_text_eq h, ok_bind, status_bar_eq h, ok_bind, message_bar_eq, cursor_eq h]
  refine ⟨_, rfl, fun i hi => ?_, fun i hi => ?_⟩
  · unfold picture
    by_cases hcur : i / 80 = (s.cy - s.scrollY).toNat + 1
    · have hprev : i / 80 - 1 = (s.cy - s.scrollY).toNat := by omega
      have hcell : ((s.cy - s.scrollY).toNat + 1) * 80 + i % 80 = i := by omega
      rw [if_neg (by omega), if_neg (by omega), if_neg (by omega), hprev, ← cursor_row h]
      refine (if_pos hcur).trans (cursor_on_congr ?_)
      rw [hcell, on_row_other (by omega), on_row_other (by omega), if_pos (by omega), hprev]
    · rw [on_row_other hcur]
      by_cases hmsg : i / 80 = 24
      · rw [if_neg (by omega), if_neg (by omega), if_pos hmsg]
        exact if_pos hmsg
      rw [on_row_other hmsg]
      by_cases hstatus : i / 80 = 23
      · rw [if_neg (by omega), if_pos hstatus]
        exact if_pos hstatus
      rw [on_row_other hstatus]
      by_cases htitle : i / 80 = 0
      · rw [if_neg (by omega), if_pos htitle]
        exact if_pos htitle
      · have hother : s.scrollY.toNat + (i / 80 - 1) ≠ (textOf s).row := by
          have hrow : (textOf s).row = s.cy.toNat := rfl
          omega
        rw [if_pos (by omega), if_neg htitle, if_neg hstatus, if_neg hmsg, plain_row_other _ hother]
  · rw [on_row_other (by omega), on_row_other (by omega), on_row_other (by omega), if_neg (by omega), on_row_other (by omega)]

theorem ed_put_kept (fb : Framebuffer) (x y : Int) (c fg bg : UInt8) {i : Nat} (hi : 2000 ≤ i) :
    edPut fb x y c fg bg i = fb i := by
  have hwidth : vgaWidth = 80 := rfl
  have hheight : vgaHeight = 25 := rfl
  unfold edPut
  rw [hwidth, hheight]
  split
  · rfl
  · exact Function.update_of_ne (by omega) _ _

theorem ed_str_kept (fb : Framebuffer) (x y : Int) (text : List UInt8) (fg bg : UInt8) {i : Nat} (hi : 2000 ≤ i) :
    edStr fb x y text fg bg i = fb i := by
  induction text generalizing fb x with
  | nil => rfl
  | cons c text ih =>
    unfold edStr
    split
    · rw [ih, ed_put_kept _ _ _ _ _ _ hi]
    · rfl

theorem fold_kept {l : List Nat} {draw : Framebuffer → Nat → Framebuffer} {i : Nat}
    (hdraw : ∀ fb k, draw fb k i = fb i) (fb : Framebuffer) : l.foldl draw fb i = fb i := by
  induction l generalizing fb with
  | nil => rfl
  | cons k l ih => exact (ih (draw fb k)).trans (hdraw fb k)

theorem ed_fill_kept (fb : Framebuffer) (y : Int) (c fg bg : UInt8) {i : Nat} (hi : 2000 ≤ i) :
    edFillRow fb y c fg bg i = fb i :=
  fold_kept (fun fb k => ed_put_kept fb k y c fg bg hi) fb

theorem clear_kept (fb : Framebuffer) {i : Nat} (hi : 2000 ≤ i) : clearScreen fb i = fb i :=
  fold_kept (fun fb k => ed_fill_kept fb k 32 _ _ hi) fb

theorem prompt_draws_kept (fb : Framebuffer) (query keys : List UInt8) {i : Nat} (hi : 2000 ≤ i) :
    promptDraws fb query keys i = fb i := by
  induction keys generalizing fb query with
  | nil => rfl
  | cons c keys ih =>
    unfold promptDraws
    split_ifs <;> simp only [ih, ed_put_kept _ _ _ _ _ _ hi]

theorem prompt_kept (s : Editor) (fb : Framebuffer) (keys : List UInt8) {i : Nat} (hi : 2000 ≤ i) :
    promptScreen s fb keys i = fb i := by
  unfold promptScreen
  rw [prompt_draws_kept _ _ _ hi, ed_put_kept _ _ _ _ _ _ hi]
  split
  · rw [ed_str_kept _ _ _ _ _ _ hi, ed_str_kept _ _ _ _ _ _ hi, ed_fill_kept _ _ _ _ _ hi]
  · rw [ed_str_kept _ _ _ _ _ _ hi, ed_fill_kept _ _ _ _ _ hi]

theorem prompt_of_kept (s : Editor) (fb : Framebuffer) (key : EdKey) {i : Nat} (hi : 2000 ≤ i) :
    promptOf s fb key i = fb i := by
  cases key with
  | char c prompt =>
    change (if c = 6 then promptScreen s fb prompt else fb) i = fb i
    split
    · exact prompt_kept s fb prompt hi
    · rfl
  | _ => rfl

section Session
open Fs

variable {H : Type} {kmalloc : Kmalloc H} {fb₀ : Framebuffer} {v v' : (Editor × ShellFs H) × Framebuffer}
  {keys : List (EdKey × UInt32)}

/-- A save has only the message and the mark of the title to change. -/
theorem save_good {fs : ShellFs H} {s' : Editor × ShellFs H} (h : Good s) (hrun : saveFile kmalloc s fs = .ok s') :
    Good s'.1 := by
  unfold saveFile at hrun
  split at hrun
  · cases hrun
    exact ⟨⟨⟨h.lines, h.row, h.lens, h.ends, h.col⟩, h.shown⟩, h.top⟩
  · obtain ⟨fs', -, hrest⟩ := bind_ok hrun
    cases hrest
    exact ⟨⟨⟨h.lines, h.row, h.lens, h.ends, h.col⟩, h.shown⟩, h.top⟩

theorem editor_key_good {e e' : Editor × ShellFs H} {key : EdKey} (h : Good e.1) (hrun : editorKey kmalloc e key = .ok e') :
    Good e'.1 := by
  unfold editorKey at hrun
  split at hrun
  · obtain ⟨saved, hsave, hrest⟩ := bind_ok hrun
    obtain ⟨_, -, hlast⟩ := bind_ok hrest
    cases hlast
    exact save_good h hsave
  · obtain ⟨ed, hed, hrest⟩ := bind_ok hrun
    obtain ⟨s', hs', hgood⟩ := key_good h key
    cases hrest
    obtain rfl : s' = ed := Except.ok.inj (hs'.symm.trans hed)
    exact hgood

/-- A key that draws nothing changes nothing. -/
theorem silent_key {e e' : Editor × ShellFs H} {key : EdKey} (hkey : key.renders = false)
    (hrun : editorKey kmalloc e key = .ok e') : e' = e := by
  cases key with
  | char c prompt =>
    simp only [EdKey.renders, Bool.or_eq_false_iff, List.contains_eq_mem, List.mem_cons, List.not_mem_nil, or_false,
      decide_eq_false_iff_not, not_or, Bool.and_eq_false_imp, decide_eq_true_eq] at hkey
    obtain ⟨⟨hsave, hkill, hhome, hend, hnewline, hback, hfind, hnext⟩, hprint⟩ := hkey
    have hplain : ¬ (32 ≤ c ∧ c < 127) := fun hc => hprint hc.1 hc.2
    simp only [editorKey, EdKey.code, edKey, edChar, hsave, hkill, hhome, hend, hnewline, hback, hfind, hnext, hplain,
      if_false, ok_bind] at hrun
    exact (Except.ok.inj hrun).symm
  | _ => cases hkey

/-- The screen shows the editor, and the cursor is on it. -/
def OnScreen (fb₀ : Framebuffer) (v : (Editor × ShellFs H) × Framebuffer) : Prop :=
  Good v.1.1 ∧ ∃ age, Draws v.1.1 age fb₀ v.2

theorem Draws.after {age : UInt32} {fb₁ : Framebuffer} (h : Draws s age fb₁ fb') (hkept : ∀ i, 2000 ≤ i → fb₁ i = fb₀ i) :
    Draws s age fb₀ fb' := ⟨h.shown, fun i hi => (h.kept i hi).trans (hkept i hi)⟩

/-- Whatever key is typed, the screen follows the editor. -/
theorem screen_key_shows {key : EdKey × UInt32} (h : OnScreen fb₀ v) (hrun : screenKey kmalloc v key = .ok v') :
    OnScreen fb₀ v' := by
  obtain ⟨hgood, age, hdraws⟩ := h
  obtain ⟨e, he, hrest⟩ := bind_ok hrun
  have hgood' := editor_key_good hgood he
  have hpaint : ∀ fb₁, (∀ i, 2000 ≤ i → fb₁ i = fb₀ i) → ∀ fb', drawAll e.1 key.2 fb₁ = .ok fb' →
      Draws e.1 key.2 fb₀ fb' := by
    intro fb₁ hkept fb' hdrawn
    obtain ⟨fb'', hfb'', hall⟩ := draw_all_eq hgood' key.2 fb₁
    obtain rfl : fb'' = fb' := Except.ok.inj (hfb''.symm.trans hdrawn)
    exact hall.after hkept
  by_cases hkey : key.1.renders
  · rw [if_pos hkey] at hrest
    obtain ⟨fb', hfb', hlast⟩ := bind_ok hrest
    cases hlast
    exact ⟨hgood', key.2, hpaint _ (fun i hi => (prompt_of_kept _ _ _ hi).trans (hdraws.kept i hi)) fb' hfb'⟩
  · rw [if_neg hkey] at hrest
    cases hrest
    obtain rfl := silent_key (by simpa using hkey) he
    exact ⟨hgood, age, hdraws⟩

theorem screen_loop_shows (h : OnScreen fb₀ v) (hrun : screenLoop kmalloc v keys = .ok v') : OnScreen fb₀ v' := by
  induction keys generalizing v with
  | nil =>
    cases hrun
    exact h
  | cons key keys ih =>
    unfold screenLoop at hrun
    split at hrun
    · cases hrun
      exact h
    · obtain ⟨next, hnext, hrest⟩ := bind_ok hrun
      exact ih (screen_key_shows h hnext) hrest

theorem screen_key_runs {key : EdKey × UInt32} (h : Good v.1.1) (hsave : key.1.code ≠ 19) :
    ∃ v', screenKey kmalloc v key = .ok v' := by
  obtain ⟨s', hs', hgood⟩ := key_good h key.1
  unfold screenKey editorKey
  rw [if_neg hsave, hs', ok_bind, ok_bind]
  dsimp only
  split
  · obtain ⟨fb', hfb', -⟩ := draw_all_eq hgood key.2 (promptOf v.1.1 v.2 key.1)
    exact ⟨((s', v.1.2), fb'), by rw [hfb', ok_bind]⟩
  · exact ⟨_, rfl⟩

/-- Without Ctrl-S every key is taken. -/
theorem screen_loop_runs (h : OnScreen fb₀ v) (hkeys : ∀ key ∈ keys, key.1.code ≠ 19) :
    ∃ v', screenLoop kmalloc v keys = .ok v' := by
  induction keys generalizing v with
  | nil => exact ⟨v, rfl⟩
  | cons key keys ih =>
    unfold screenLoop
    by_cases hquit : key.1.code = 17
    · exact ⟨v, if_pos hquit⟩
    · obtain ⟨next, hnext⟩ := screen_key_runs h.1 (hkeys key List.mem_cons_self)
      rw [if_neg hquit, hnext, ok_bind]
      exact ih (screen_key_shows h hnext) (fun k hk => hkeys k (List.mem_cons_of_mem _ hk))

variable {fs : ShellFs H} {path : List UInt8} {age : UInt32}

theorem open_shows {s₀ : Editor} (hstart : editorStart fs path s = .ok s₀) (hgood : Good s₀) (age : UInt32)
    (fb : Framebuffer) : ∃ v, openScreen fs path s age fb = .ok v ∧ OnScreen fb v := by
  obtain ⟨fb', hfb', hdraws⟩ := draw_all_eq hgood age (clearScreen fb)
  unfold openScreen
  rw [hstart, ok_bind, hfb', ok_bind]
  exact ⟨_, rfl, hgood, age, hdraws.after (fun i hi => clear_kept fb hi)⟩

/-- Where a file is opened with its text in the arrays, the screen shows the text after any keys, with the
cursor on it, and the keys other than Ctrl-S are all taken. -/
theorem screen_shows_text (hstart : ∃ s₀, editorStart fs path s = .ok s₀ ∧ Good s₀) (age : UInt32) (fb : Framebuffer)
    (keys : List (EdKey × UInt32)) :
    (∀ v, screenSession kmalloc fs path s age keys fb = .ok v → OnScreen fb v) ∧
      ((∀ key ∈ keys, key.1.code ≠ 19) → ∃ v, screenSession kmalloc fs path s age keys fb = .ok v) := by
  obtain ⟨s₀, hs₀, hgood⟩ := hstart
  obtain ⟨v₀, hopen, hv₀⟩ := open_shows hs₀ hgood age fb
  unfold screenSession
  rw [hopen, ok_bind]
  exact ⟨fun v hrun => screen_loop_shows hv₀ hrun, screen_loop_runs hv₀⟩

open EditorLoad in
theorem screen_shows_text_motd :
    (∀ v, screenSession everyBlock (motdMount motdText) (bytes "/etc/motd") blankEditor 0
        [(.down, 10), (.char 97 [], 20), (.char 17 [], 30)] (fun _ => 0) = .ok v → OnScreen (fun _ => 0) v) ∧
      ((∀ key ∈ [(EdKey.down, (10 : UInt32)), (.char 97 [], 20), (.char 17 [], 30)], key.1.code ≠ 19) →
        ∃ v, screenSession everyBlock (motdMount motdText) (bytes "/etc/motd") blankEditor 0
          [(.down, 10), (.char 97 [], 20), (.char 17 [], 30)] (fun _ => 0) = .ok v) :=
  screen_shows_text (start_good blankEditor (with_text_holds _ _ (by rw [motd_length]; decide)) (motd_found motdText).1
    (motd_found motdText).2 (by decide +kernel) (by decide +kernel)) 0 (fun _ => 0) _

end Session

end BaSic.Proofs.EditorScreen
