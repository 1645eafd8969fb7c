import BaSic.Proofs.EditorText

namespace BaSic.Proofs.EditorKeys
open Kernel Lib Proofs.EditorText

/-- The bounds of the buffer, and the cursor on the screen. -/
structure Shown (s : Editor) : Prop extends Bounds s where
  shown : s.scrollY ≤ s.cy ∧ s.cy < s.scrollY + 22

/-- And the screen begins in the buffer. -/
structure Good (s : Editor) : Prop extends Shown s where
  top : 0 ≤ s.scrollY

variable {s s' : Editor} {i c : Int} {q : List UInt8}

theorem line_text_ok (h₀ : 0 ≤ i) (h₁ : i < 128) (hc : 0 ≤ c) {k : Nat} (hk : c + k ≤ 81) :
    lineText s i c k = .ok (tabulate k (fun j => s.buf i (c + j))) := by
  induction k generalizing c with
  | zero => rfl
  | succ k ih =>
    unfold lineText
    rw [char_at_ok h₀ h₁ hc (by omega), ok_bind, ih (by omega) (by omega), ok_bind, tabulate_succ]
    have hrest : ∀ j : Nat, c + 1 + j = c + ((j + 1 : Nat) : Int) := fun j => by omega
    have hzero : c + ((0 : Nat) : Int) = c := Int.add_zero c
    simp only [hrest, hzero]

theorem render_row_ok (h : Bounds s) (hi : 0 ≤ i) : ∃ row, renderRow s i = .ok row := by
  have hlines := h.lines
  unfold renderRow
  by_cases hlast : i ≥ s.numLines
  · rw [if_pos hlast]
    exact ⟨_, rfl⟩
  · have hlen := h.lens i hi (by omega)
    rw [if_neg hlast, len_at_ok hi (by omega), ok_bind, line_text_ok hi (by omega) (Int.le_refl 0) (by omega), ok_bind]
    exact ⟨_, rfl⟩

theorem render_from_ok (h : Bounds s) (k : Nat) (hi : 0 ≤ i) : ∃ rows, renderFrom s i k = .ok rows := by
  induction k generalizing i with
  | zero => exact ⟨_, rfl⟩
  | succ k ih =>
    obtain ⟨row, hrow⟩ := render_row_ok h hi
    obtain ⟨rows, hrows⟩ := ih (i := i + 1) (by omega)
    unfold renderFrom
    rw [hrow, ok_bind, hrows, ok_bind]
    exact ⟨_, rfl⟩

theorem render_all_ok (h : Bounds s) (htop : 0 ≤ s.scrollY) : renderAll s = .ok s := by
  obtain ⟨rows, hrows⟩ := render_from_ok h edRows htop
  unfold renderAll renderText
  rw [hrows]
  rfl

/-- Scrolling brings the cursor back on the screen. -/
theorem adjust_good (h : Bounds s) (htop : 0 ≤ s.scrollY) : Good (adjustScroll s) := by
  have hrow := h.row
  have hfields : ∀ y, Bounds { s with scrollY := y } := fun y => ⟨h.lines, h.row, h.lens, h.ends, h.col⟩
  unfold adjustScroll edRows
  by_cases hup : s.cy < s.scrollY
  · rw [if_pos hup]
    dsimp only
    rw [if_neg (by omega)]
    exact ⟨⟨hfields _, by dsimp only; omega⟩, hrow.1⟩
  · rw [if_neg hup]
    dsimp only
    by_cases hdown : s.cy ≥ s.scrollY + (22 : Nat)
    · rw [if_pos hdown]
      exact ⟨⟨hfields _, by dsimp only; omega⟩, by dsimp only; omega⟩
    · rw [if_neg hdown]
      exact ⟨⟨h, by omega⟩, htop⟩

theorem redraw_good (h : Bounds s) (htop : 0 ≤ s.scrollY) : redraw s = .ok (adjustScroll s) ∧ Good (adjustScroll s) := by
  have hgood := adjust_good h htop
  exact ⟨render_all_ok hgood.toBounds hgood.top, hgood⟩

/-- What leaves a text and is then drawn. -/
theorem leaves_redraw {r : Except Fault Editor} {t : TextBuffer UInt8} (h : Leaves s r t) (htop : 0 ≤ s.scrollY) :
    ∃ s', (r >>= redraw) = .ok s' ∧ Good s' := by
  obtain ⟨s', rfl, hbounds, hscroll, -⟩ := h
  exact ⟨_, redraw_good hbounds (hscroll ▸ htop)⟩

theorem place_bounds (h : Bounds s) {cy cx : Int} (hcy : 0 ≤ cy ∧ cy < s.numLines) (hcx : 0 ≤ cx ∧ cx ≤ s.lineLen cy) :
    Bounds { s with cy := cy, cx := cx } := ⟨h.lines, hcy, h.lens, h.ends, hcx⟩

/-- The cursor moved: the lines are the same. -/
theorem place_leaves (h : Bounds s) {cy cx : Int} (hcy : 0 ≤ cy ∧ cy < s.numLines) (hcx : 0 ≤ cx ∧ cx ≤ s.lineLen cy) :
    Leaves s (.ok { s with cy := cy, cx := cx }) ⟨(textOf s).lines, cy.toNat, cx.toNat⟩ :=
  ⟨_, rfl, place_bounds h hcy hcx, rfl, rfl⟩

theorem end_leaves (h : Bounds s) {cy : Int} (hcy : 0 ≤ cy ∧ cy < s.numLines) :
    Leaves s (edEnd { s with cy := cy }) ⟨(textOf s).lines, cy.toNat, (s.lineLen cy).toNat⟩ := by
  have hlast : cy < 128 := Int.lt_of_lt_of_le hcy.2 h.lines.2
  unfold edEnd
  rw [len_at_ok hcy.1 hlast]
  exact place_leaves h hcy ⟨(h.lens cy hcy.1 hcy.2).1, Int.le_refl _⟩

theorem up_leaves (h : Bounds s) : ∃ t, Leaves s (edUp s) t := by
  have hrow := h.row
  unfold edUp
  by_cases hcy : s.cy > 0
  · have hcy' : 0 ≤ s.cy - 1 ∧ s.cy - 1 < s.numLines := by omega
    rw [if_pos hcy]
    exact ⟨_, clip_leaves (s := { s with cy := s.cy - 1 })
      (place_bounds h hcy' ⟨Int.le_refl 0, (h.lens _ hcy'.1 hcy'.2).1⟩) h.col.1⟩
  · rw [if_neg hcy]
    exact ⟨_, s, rfl, h, rfl, rfl⟩

theorem down_leaves (h : Bounds s) : ∃ t, Leaves s (edDown s) t := by
  have hrow := h.row
  unfold edDown
  by_cases hcy : s.cy < s.numLines - 1
  · have hcy' : 0 ≤ s.cy + 1 ∧ s.cy + 1 < s.numLines := by omega
    rw [if_pos hcy]
    exact ⟨_, clip_leaves (s := { s with cy := s.cy + 1 })
      (place_bounds h hcy' ⟨Int.le_refl 0, (h.lens _ hcy'.1 hcy'.2).1⟩) h.col.1⟩
  · rw [if_neg hcy]
    exact ⟨_, s, rfl, h, rfl, rfl⟩

theorem left_leaves (h : Bounds s) : ∃ t, Leaves s (edLeft s) t := by
  have hrow := h.row
  have hcol := h.col
  unfold edLeft
  by_cases hcx : s.cx > 0
  · rw [if_pos hcx]
    exact ⟨_, place_leaves h hrow ⟨by omega, by omega⟩⟩
  · rw [if_neg hcx]
    by_cases hcy : s.cy > 0
    · rw [if_pos hcy]
      exact ⟨_, end_leaves h ⟨by omega, by omega⟩⟩
    · rw [if_neg hcy]
      exact ⟨_, s, rfl, h, rfl, rfl⟩

theorem right_leaves (h : Bounds s) : ∃ t, Leaves s (edRight s) t := by
  have hrow := h.row
  have hcol := h.col
  unfold edRight
  rw [len_at_ok hrow.1 h.lt_max, ok_bind]
  by_cases hcx : s.cx < s.lineLen s.cy
  · rw [if_pos hcx]
    exact ⟨_, place_leaves h hrow ⟨by omega, by omega⟩⟩
  · rw [if_neg hcx]
    by_cases hcy : s.cy < s.numLines - 1
    · have hcy' : 0 ≤ s.cy + 1 ∧ s.cy + 1 < s.numLines := by omega
      rw [if_pos hcy]
      exact ⟨_, place_leaves h hcy' ⟨Int.le_refl 0, (h.lens _ hcy'.1 hcy'.2).1⟩⟩
    · rw [if_neg hcy]
      exact ⟨_, s, rfl, h, rfl, rfl⟩

theorem starts_at_ok (h₀ : 0 ≤ i) (h₁ : i < 128) (hc : 0 ≤ c) (hq : c + q.length ≤ 81) :
    ∃ b, startsAt s i c q = .ok b := by
  induction q generalizing c with
  | nil => exact ⟨true, rfl⟩
  | cons _ q ih =>
    rw [List.length_cons] at hq
    unfold startsAt
    rw [char_at_ok h₀ h₁ hc (by omega), ok_bind]
    split_ifs
    · exact ih (by omega) (by omega)
    · exact ⟨_, rfl⟩

/-- A search of the columns from `c` on finds one of them, or none. -/
theorem find_from_ok (h₀ : 0 ≤ i) (h₁ : i < 128) {k : Nat} (hc : 0 ≤ c) (hk : c + k + q.length ≤ 81 + 1 ∨ k = 0) :
    ∃ found, findFrom s q i c k = .ok found ∧ ∀ col, found = some col → c ≤ col ∧ col < c + k := by
  induction k generalizing c with
  | zero => exact ⟨none, rfl, fun _ h => by cases h⟩
  | succ k ih =>
    obtain ⟨b, hb⟩ := starts_at_ok (s := s) (q := q) h₀ h₁ hc (by omega)
    unfold findFrom
    rw [hb, ok_bind]
    cases b with
    | true => exact ⟨some c, rfl, fun col h => by cases h; omega⟩
    | false =>
      obtain ⟨found, hfound, hcol⟩ := ih (c := c + 1) (by omega) (by omega)
      refine ⟨found, ?_, fun col h => ?_⟩
      · rw [if_neg Bool.false_ne_true]
        exact hfound
      · have hin := hcol col h
        omega

/-- A place in the text. -/
def Inside (s : Editor) (found : Int × Int) : Prop :=
  (0 ≤ found.1 ∧ found.1 < s.numLines) ∧ 0 ≤ found.2 ∧ found.2 ≤ s.lineLen found.1

/-- A search of the columns of a line up to some column of it. -/
theorem find_line_ok (h : Bounds s) (h₀ : 0 ≤ i) (h₁ : i < s.numLines) (hc : 0 ≤ c) {last : Int}
    (hlast : last ≤ s.lineLen i) : ∃ found, findFrom s q i c (last - q.length - c + 1).toNat = .ok found ∧
      ∀ col, found = some col → Inside s (i, col) := by
  have hlines := h.lines
  have hlen := h.lens i h₀ h₁
  obtain ⟨found, hfound, hcol⟩ := find_from_ok (s := s) (q := q) (k := (last - q.length - c + 1).toNat) h₀
    (by omega) hc (by omega)
  refine ⟨found, hfound, fun col hsome => ?_⟩
  have hin := hcol col hsome
  exact ⟨⟨h₀, h₁⟩, by dsimp only; omega, by dsimp only; omega⟩

theorem find_forward_ok (h : Bounds s) {k : Nat} (hi : 0 ≤ i) (hk : i + k ≤ s.numLines) :
    ∃ found, findForward s q i k = .ok found ∧ ∀ place, found = some place → Inside s place := by
  have hlines := h.lines
  have hcx := h.col.1
  induction k generalizing i with
  | zero => exact ⟨none, rfl, fun _ h => by cases h⟩
  | succ k ih =>
    obtain ⟨found, hfound, hcol⟩ := find_line_ok (q := q) (i := i) (c := if i = s.cy then s.cx + 1 else 0) h hi
      (by omega) (by split_ifs <;> omega) (Int.le_refl _)
    unfold findForward
    rw [len_at_ok hi (by omega), ok_bind, hfound, ok_bind]
    cases found with
    | some col => exact ⟨_, rfl, fun place h => by cases h; exact hcol col rfl⟩
    | none => exact ih (by omega) (by omega)

theorem find_wrapped_ok (h : Bounds s) {k : Nat} (hi : 0 ≤ i) (hk : i + k ≤ s.numLines) :
    ∃ found, findWrapped s q i k = .ok found ∧ ∀ place, found = some place → Inside s place := by
  have hlines := h.lines
  have hcol := h.col
  induction k generalizing i with
  | zero => exact ⟨none, rfl, fun _ h => by cases h⟩
  | succ k ih =>
    obtain ⟨last, hread, hlast⟩ : ∃ last, wrapEnd s i = .ok last ∧ last ≤ s.lineLen i := by
      unfold wrapEnd
      split_ifs with hcy
      · exact ⟨_, rfl, hcy ▸ hcol.2⟩
      · exact ⟨_, len_at_ok hi (by omega), Int.le_refl _⟩
    obtain ⟨found, hfound, hin⟩ := find_line_ok (q := q) (c := 0) h hi (by omega) (Int.le_refl 0) hlast
    rw [Int.sub_zero] at hfound
    unfold findWrapped
    rw [hread, ok_bind, hfound, ok_bind]
    cases found with
    | some col => exact ⟨_, rfl, fun place h => by cases h; exact hin col rfl⟩
    | none => exact ih (by omega) (by omega)

theorem find_ok (h : Bounds s) (query : List UInt8) :
    ∃ found, edFind s query = .ok found ∧ ∀ place, found = some place → Inside s place := by
  have hrow := h.row
  unfold edFind
  by_cases hq : query = []
  · rw [if_pos hq]
    exact ⟨none, rfl, fun _ h => by cases h⟩
  · obtain ⟨found, hfound, hin⟩ := find_forward_ok (q := query) (k := (s.numLines - s.cy).toNat) h hrow.1 (by omega)
    rw [if_neg hq, hfound, ok_bind]
    cases found with
    | some place => exact ⟨_, rfl, hin⟩
    | none => exact find_wrapped_ok h (Int.le_refl 0) (by omega)

theorem find_next_leaves (h : Bounds s) : ∃ t, Leaves s (edFindNext s) t := by
  obtain ⟨found, hfound, hin⟩ := find_ok h s.searchQuery
  unfold edFindNext
  rw [hfound, ok_bind]
  cases found with
  | some place =>
    obtain ⟨hcy, hcx⟩ := hin place rfl
    exact ⟨_, _, rfl, ⟨h.lines, hcy, h.lens, h.ends, hcx⟩, rfl, rfl⟩
  | none => exact ⟨_, _, rfl, ⟨h.lines, h.row, h.lens, h.ends, h.col⟩, rfl, rfl⟩

theorem search_prompt_good (h : Good s) (keys : List UInt8) : ∃ s', edSearchPrompt s keys = .ok s' ∧ Good s' := by
  unfold edSearchPrompt
  cases promptLoop (s.searchQuery.take 63) keys with
  | none => exact ⟨s, rfl, h⟩
  | some query =>
    dsimp only
    by_cases hq : query = []
    · rw [if_pos hq]
      exact ⟨s, rfl, h⟩
    · have hbounds : Bounds { s with searchQuery := query } := ⟨h.lines, h.row, h.lens, h.ends, h.col⟩
      obtain ⟨found, hfound, hin⟩ := find_ok hbounds query
      rw [if_neg hq, hfound, ok_bind]
      cases found with
      | some place =>
        obtain ⟨hcy, hcx⟩ := hin place rfl
        have hgood := adjust_good (place_bounds hbounds hcy hcx) h.top
        refine ⟨_, rfl, ⟨⟨?_, hgood.shown⟩, hgood.top⟩⟩
        exact ⟨hgood.lines, hgood.row, hgood.lens, hgood.ends, hgood.col⟩
      | none => exact ⟨_, rfl, ⟨⟨hbounds.lines, h.row, h.lens, h.ends, h.col⟩, h.shown⟩, h.top⟩

/-- Every key, past Ctrl-Q and Ctrl-S. -/
theorem key_good (h : Good s) (key : EdKey) : ∃ s', edKey s key = .ok s' ∧ Good s' := by
  have hb := h.toBounds
  have hrow := h.row
  have hhome : ∃ s', redraw { s with cx := 0 } = .ok s' ∧ Good s' :=
    leaves_redraw (place_leaves hb hrow ⟨Int.le_refl 0, hb.len.1⟩) h.top
  have hmoved : ∀ r, (∃ t, Leaves s r t) → ∃ s', (r >>= redraw) = .ok s' ∧ Good s' :=
    fun r ⟨_, hr⟩ => leaves_redraw hr h.top
  cases key with
  | up => exact hmoved _ (up_leaves hb)
  | down => exact hmoved _ (down_leaves hb)
  | left => exact hmoved _ (left_leaves hb)
  | right => exact hmoved _ (right_leaves hb)
  | home => exact hhome
  | «end» => exact hmoved _ ⟨_, end_leaves hb hrow⟩
  | char c prompt =>
    change ∃ s', edChar s c prompt = .ok s' ∧ Good s'
    unfold edChar
    split_ifs
    · exact hmoved _ ⟨_, delete_line_leaves hb⟩
    · exact hhome
    · exact hmoved _ ⟨_, end_leaves hb hrow⟩
    · exact hmoved _ ⟨_, newline_leaves hb⟩
    · exact hmoved _ ⟨_, backspace_leaves hb⟩
    · exact hmoved _ ⟨_, insert_leaves hb c⟩
    · obtain ⟨s', hs', hgood⟩ := search_prompt_good h prompt
      rw [hs', ok_bind]
      exact ⟨s', render_all_ok hgood.toBounds hgood.top, hgood⟩
    · exact hmoved _ (find_next_leaves hb)
    · exact ⟨s, rfl, h⟩

/-- Neither Ctrl-Q nor Ctrl-S. -/
def Edits (key : EdKey) : Prop := key.code ≠ 17 ∧ key.code ≠ 19

instance : DecidablePred Edits := fun key => inferInstanceAs (Decidable (key.code ≠ 17 ∧ key.code ≠ 19))

open Fs in
/-- Whatever is typed, the editor keeps to its arrays and the cursor on the screen. -/
theorem editor_keeps {H : Type} (kmalloc : Kmalloc H) (fs : ShellFs H) (h : Good s) {keys : List EdKey}
    (hkeys : ∀ key ∈ keys, Edits key) : ∃ s', editorLoop kmalloc (s, fs) keys = .ok (s', fs) ∧ Good s' := by
  induction keys generalizing s with
  | nil => exact ⟨s, rfl, h⟩
  | cons key keys ih =>
    obtain ⟨hquit, hsave⟩ := hkeys key List.mem_cons_self
    obtain ⟨s', hs', hgood⟩ := key_good h key
    unfold editorLoop editorKey
    rw [if_neg hquit, if_neg hsave, hs', ok_bind, ok_bind]
    exact ih hgood (fun k hk => hkeys k (List.mem_cons_of_mem _ hk))

theorem init_good (s : Editor) : Good (bufInit s) :=
  ⟨⟨init_bounds s, Int.le_refl 0, show (0 : Int) < 0 + 22 by decide⟩, Int.le_refl 0⟩

theorem editor_keeps_init : ∃ s', editorLoop Fs.everyBlock (bufInit blankEditor, ⟨Fs.bootRamfs, none⟩)
    [.char 97 [], .char 10 [], .up, .char 6 [97, 10]] = .ok (s', ⟨Fs.bootRamfs, none⟩) ∧ Good s' :=
  editor_keeps Fs.everyBlock ⟨Fs.bootRamfs, none⟩ (init_good blankEditor) (by decide)

/-- A screen that begins before the buffer. -/
def scrolledOff : Editor := { bufInit blankEditor with scrollY := -1 }

/-- The bounds do not keep the screen from reading before the first line. -/
theorem scrolled_off_faults : Shown scrolledOff ∧ edKey scrolledOff .home = .error (.outOfBounds 0) := by
  have hb := init_bounds blankEditor
  exact ⟨⟨⟨hb.lines, hb.row, hb.lens, hb.ends, hb.col⟩, by decide⟩, rfl⟩

end BaSic.Proofs.EditorKeys
