import BaSic.Kernel.Vga
import BaSic.Lib.Terminal

namespace BaSic.Proofs.VgaScreen
open Kernel Lib

/-- What a character does to a terminal. -/
def charOp (attr : UInt8) (c : UInt8) : TermOp UInt16 :=
  if c = 10 then .lineFeed
  else if c = 13 then .home
  else if c = 9 then .tab
  else if c = 8 then .rubOut
  else .put (vgaCell c attr)

/-- The colours of `vga_init` -/
def bootAttr : UInt8 := makeAttr .lightGrey .black

def blankCell : UInt16 := vgaCell 32 bootAttr

/-- A terminal with rows of 80 cells and no last row. -/
def terminal (cs : List UInt8) : Terminal UInt16 :=
  cs.foldl (fun t c => t.step 80 8 blankCell (charOp bootAttr c)) (Terminal.cleared blankCell)

/-- The cursor is on the screen, which shows the last 25 rows of the terminal. -/
structure Shows (v : Vga) (t : Terminal UInt16) : Prop where
  x : v.cursorX = t.x
  y : v.cursorY = (min t.y 24 : Nat)
  left : 0 ≤ v.cursorX ∧ v.cursorX < 80
  top : 0 ≤ v.cursorY ∧ v.cursorY < 25
  cells : ∀ row col, row < 25 → col < 80 → v.fb (row * 80 + col) = t.shown 25 row col

/-- The screen shows the terminal's rows from `top` on, whose cursor may be a row below. -/
structure ShowsFrom (top : Nat) (v : Vga) (t : Terminal UInt16) : Prop where
  attr : v.curAttr = bootAttr
  x : v.cursorX = t.x
  y : v.cursorY = (t.y - top : Nat)
  above : top ≤ t.y
  cells : ∀ row col, row < 25 → col < 80 → v.fb (row * 80 + col) = t.cell (top + row) col

variable {v : Vga} {t : Terminal UInt16} {top : Nat} {fb : Framebuffer}

theorem fb_store_ok {i : Nat} (hi : i < 2000) (a : UInt16) : fbStore fb i a = .ok (Function.update fb i a) := by
  unfold fbStore vgaWidth vgaHeight
  rw [if_pos (by omega), Int.toNat_natCast]

theorem fb_load_ok {i : Nat} (hi : i < 2000) : fbLoad fb i = .ok (fb i) := by
  unfold fbLoad vgaWidth vgaHeight
  rw [if_pos (by omega), Int.toNat_natCast]

theorem fb_write_ok {col row : Nat} (hcol : col < 80) (hrow : row < 25) (c attr : UInt8) :
    fbWrite fb col row c attr = .ok (Function.update fb (row * 80 + col) (vgaCell c attr)) :=
  fb_store_ok (i := row * 80 + col) (by omega) _

/-- Every cell of the cleared screen is blank. -/
theorem vga_clear_eq (v : Vga) : ∃ fb, vgaClear v = .ok { v with fb := fb, cursorX := 0, cursorY := 0 } ∧
    ∀ i, i < 2000 → fb i = vgaCell 32 v.curAttr := by
  have hloop : ∃ fb, forRange 2000 (fun i fb => fbStore fb i (vgaCell 32 v.curAttr)) v.fb = .ok fb ∧
      ∀ i, i < 2000 → fb i = vgaCell 32 v.curAttr := by
    refine for_range_rule (I := fun n (fb : Framebuffer) => ∀ i, i < n → fb i = vgaCell 32 v.curAttr) ?_ ?_
    · exact fun i hi => absurd hi (Nat.not_lt_zero i)
    · intro n fb hn h
      refine ⟨_, fb_store_ok hn _, fun i hi => ?_⟩
      by_cases hin : i = n
      · rw [hin, Function.update_self]
      · rw [Function.update_of_ne hin]
        exact h i (by omega)
  obtain ⟨fb, hrun, hfb⟩ := hloop
  refine ⟨fb, ?_, hfb⟩
  unfold vgaClear vgaWidth vgaHeight
  rw [hrun]
  rfl

/-- The first `n` cells have been taken from the row below. -/
def MovedUp (fb₀ : Framebuffer) (n : Nat) (fb : Framebuffer) : Prop :=
  ∀ i, fb i = if i < n then fb₀ (i + 80) else fb₀ i

theorem MovedUp.next {fb₀ : Framebuffer} {n : Nat} (h : MovedUp fb₀ n fb) :
    MovedUp fb₀ (n + 1) (Function.update fb n (fb (n + 80))) := by
  intro i
  by_cases hin : i = n
  · rw [hin, Function.update_self, h, if_neg (by omega), if_pos (Nat.lt_succ_self n)]
  · rw [Function.update_of_ne hin, h]
    exact if_congr (by omega) rfl rfl

/-- The loops of `scroll` over the rows. -/
theorem scroll_rows (fb₀ : Framebuffer) : ∃ fb, forRange 24 (fun r fb => forRange 80 (fun col fb => do
      let cell ← fbLoad fb ((r + 1) * 80 + col : Nat)
      fbStore fb (r * 80 + col : Nat) cell) fb) fb₀ = .ok fb ∧ MovedUp fb₀ (24 * 80) fb := by
  refine for_range_rule (I := fun r fb => MovedUp fb₀ (r * 80) fb) (fun i => ?_) ?_
  · rw [Nat.zero_mul, if_neg (Nat.not_lt_zero i)]
  intro r fb hr h
  rw [Nat.succ_mul]
  refine for_range_rule (I := fun col fb => MovedUp fb₀ (r * 80 + col) fb) h ?_
  intro col fb hcol h
  refine ⟨_, ?_, h.next⟩
  rw [fb_load_ok (by omega), ok_bind, Nat.add_right_comm]
  exact fb_store_ok (by omega) _

/-- The loop of `scroll` over the last row. -/
theorem scroll_last (fb₀ : Framebuffer) (attr : UInt8) : ∃ fb, forRange 80 (fun col fb =>
      fbWrite fb col (24 : Nat) 32 attr) fb₀ = .ok fb ∧
        ∀ i, fb i = if 1920 ≤ i ∧ i < 1920 + 80 then vgaCell 32 attr else fb₀ i := by
  refine for_range_rule (I := fun n (fb : Framebuffer) =>
    ∀ i, fb i = if 1920 ≤ i ∧ i < 1920 + n then vgaCell 32 attr else fb₀ i) (fun i => ?_) ?_
  · rw [if_neg (by omega)]
  intro n fb hn h
  refine ⟨_, fb_write_ok hn (by omega) 32 attr, fun i => ?_⟩
  by_cases hin : i = 24 * 80 + n
  · rw [hin, Function.update_self, if_pos (by omega)]
  · rw [Function.update_of_ne hin, h]
    exact if_congr (by omega) rfl rfl

theorem scroll_eq (v : Vga) : ∃ fb, scroll v = .ok { v with fb := fb, cursorY := 24 } ∧
    (∀ i, i < 1920 → fb i = v.fb (i + 80)) ∧ ∀ i, 1920 ≤ i → i < 2000 → fb i = vgaCell 32 v.curAttr := by
  obtain ⟨fb, hrows, hmoved⟩ := scroll_rows v.fb
  obtain ⟨fb', hlast, hblank⟩ := scroll_last fb v.curAttr
  refine ⟨fb', ?_, fun i hi => ?_, fun i hi hi' => ?_⟩
  · unfold scroll vgaWidth vgaHeight
    rw [show (25 - 1 : Nat) = 24 from rfl, hrows, ok_bind]
    exact congrArg (· >>= _) hlast
  · rw [hblank, if_neg (by omega), hmoved, if_pos hi]
  · rw [hblank, if_pos ⟨hi, hi'⟩]

/-- A cell written at the cursor, on the screen and on the terminal. -/
theorem ShowsFrom.write (h : ShowsFrom top v t) (hx : t.x < 80) (hy : t.y < top + 25) (c : UInt8) :
    ∃ fb, fbWrite v.fb v.cursorX v.cursorY c v.curAttr = .ok fb ∧
      ShowsFrom top { v with fb := fb } (t.set (vgaCell c bootAttr)) := by
  have habove := h.above
  have hrow : t.y - top < 25 := by omega
  have hwrite : fbWrite v.fb v.cursorX v.cursorY c v.curAttr =
      .ok (Function.update v.fb ((t.y - top) * 80 + t.x) (vgaCell c v.curAttr)) := by
    rw [h.x, h.y]
    exact fb_write_ok hx hrow c v.curAttr
  refine ⟨_, hwrite, h.attr, h.x, h.y, h.above, fun row col hrow hcol => ?_⟩
  dsimp only
  rw [h.attr, Terminal.set_cell, Function.update_apply, h.cells row col hrow hcol]
  exact if_congr (by omega) rfl rfl

theorem move_shows (h : ShowsFrom top v t) (hx : t.x < 80) (hy : t.y < top + 25) (c : UInt8) :
    ∃ u, vgaMove v c = .ok u ∧ ShowsFrom top u (t.act 8 blankCell (charOp bootAttr c)) := by
  have habove := h.above
  unfold vgaMove charOp
  by_cases hnl : c = 10
  · rw [if_pos hnl, if_pos hnl]
    refine ⟨_, rfl, h.attr, rfl, ?_, by dsimp only [Terminal.act]; omega, h.cells⟩
    dsimp only [Terminal.act]
    rw [h.y]
    omega
  rw [if_neg hnl, if_neg hnl]
  by_cases hcr : c = 13
  · rw [if_pos hcr, if_pos hcr]
    exact ⟨_, rfl, h.attr, rfl, h.y, h.above, h.cells⟩
  rw [if_neg hcr, if_neg hcr]
  by_cases htab : c = 9
  · rw [if_pos htab, if_pos htab]
    refine ⟨_, rfl, h.attr, ?_, h.y, h.above, h.cells⟩
    dsimp only [Terminal.act]
    rw [h.x]
    omega
  rw [if_neg htab, if_neg htab]
  by_cases hbs : c = 8
  · rw [if_pos hbs, if_pos hbs]
    by_cases hpos : 0 < t.x
    · have hleft : ShowsFrom top { v with cursorX := v.cursorX - 1 } { t with x := t.x - 1 } := by
        refine ⟨h.attr, ?_, h.y, h.above, h.cells⟩
        dsimp only
        rw [h.x]
        omega
      obtain ⟨fb, hwrite, hshows⟩ := hleft.write (by dsimp only; omega) hy 32
      rw [if_pos (by rw [h.x]; omega), hwrite, ok_bind]
      dsimp only [Terminal.act]
      rw [if_pos hpos]
      exact ⟨_, rfl, hshows⟩
    · rw [if_neg (by rw [h.x]; omega)]
      dsimp only [Terminal.act]
      rw [if_neg hpos]
      exact ⟨_, rfl, h⟩
  rw [if_neg hbs, if_neg hbs]
  obtain ⟨fb, hwrite, hshows⟩ := h.write hx hy c
  rw [hwrite, ok_bind]
  refine ⟨_, rfl, hshows.attr, ?_, hshows.y, hshows.above, hshows.cells⟩
  dsimp only [Terminal.act]
  rw [h.x]
  rfl

theorem wrap_shows (h : ShowsFrom top v t) : ShowsFrom top (wrapLine v) (t.wrap 80) := by
  have habove := h.above
  unfold wrapLine vgaWidth Terminal.wrap
  by_cases hx : 80 ≤ t.x
  · rw [if_pos (by rw [h.x]; omega), if_pos hx]
    refine ⟨h.attr, rfl, ?_, Nat.le_succ_of_le habove, h.cells⟩
    dsimp only
    rw [h.y]
    omega
  · rw [if_neg (by rw [h.x]; omega), if_neg hx]
    exact h

/-- The row that comes up from below is blank on the terminal too. -/
theorem scroll_shows (h : ShowsFrom top v t) (hy : t.y = top + 25) (hblank : ∀ col, t.cell (top + 25) col = blankCell) :
    ∃ u, scrollPast v = .ok u ∧ ShowsFrom (top + 1) u t := by
  obtain ⟨fb, hrun, hup, hlast⟩ := scroll_eq v
  unfold scrollPast vgaHeight
  rw [if_pos (by rw [h.y]; omega)]
  refine ⟨_, hrun, h.attr, h.x, ?_, by omega, fun row col hrow hcol => ?_⟩
  · dsimp only
    omega
  · dsimp only
    by_cases hlow : row < 24
    · have hfrom := h.cells (row + 1) col (by omega) hcol
      rw [hup _ (by omega), Nat.add_right_comm, ← Nat.succ_mul, Nat.add_right_comm, Nat.add_assoc]
      exact hfrom
    · obtain rfl : row = 24 := by omega
      rw [hlast _ (by omega) (by omega), h.attr]
      exact (hblank col).symm

theorem no_scroll (h : ShowsFrom top v t) (hy : t.y < top + 25) : scrollPast v = .ok v := by
  have habove := h.above
  unfold scrollPast vgaHeight
  exact if_neg (by rw [h.y]; omega)

/-- Between two characters the screen shows the end of the terminal. -/
structure Settled (v : Vga) (t : Terminal UInt16) : Prop where
  shows : ShowsFrom (t.y - 24) v t
  endless : t.Open 80 blankCell

theorem putchar_settled (h : Settled v t) (c : UInt8) :
    ∃ u, vgaPutchar v c = .ok u ∧ Settled u (t.step 80 8 blankCell (charOp bootAttr c)) := by
  have hnext : (t.step 80 8 blankCell (charOp bootAttr c)).Open 80 blankCell := h.endless.step _
  have hrows : t.y ≤ (t.step 80 8 blankCell (charOp bootAttr c)).y ∧
      (t.step 80 8 blankCell (charOp bootAttr c)).y ≤ t.y + 1 := t.step_y (by omega) _
  obtain ⟨v₁, hmove, hmoved⟩ := move_shows h.shows h.endless.inside (by omega) c
  have hwrapped : ShowsFrom (t.y - 24) (wrapLine v₁) (t.step 80 8 blankCell (charOp bootAttr c)) := wrap_shows hmoved
  have hrun : vgaPutchar v c = scrollPast (wrapLine v₁) := congrArg (· >>= _) hmove
  rw [hrun]
  have hbelow : ∀ col, (t.step 80 8 blankCell (charOp bootAttr c)).cell (t.y + 1) col = blankCell := by
    intro col
    rw [t.step_cell _ (Nat.lt_succ_self _), h.endless.below _ _ (Nat.lt_succ_self _)]
  generalize t.step 80 8 blankCell (charOp bootAttr c) = u at hnext hrows hwrapped hbelow ⊢
  have habove := hwrapped.above
  by_cases hlast : u.y = t.y - 24 + 25
  · have hrow : t.y - 24 + 25 = t.y + 1 := by omega
    obtain ⟨s, hscroll, hscrolled⟩ := scroll_shows hwrapped hlast (by rw [hrow]; exact hbelow)
    have htop : u.y - 24 = t.y - 24 + 1 := by omega
    exact ⟨s, hscroll, by rw [htop]; exact hscrolled, hnext⟩
  · have htop : u.y - 24 = t.y - 24 := by omega
    exact ⟨_, no_scroll hwrapped (by omega), by rw [htop]; exact hwrapped, hnext⟩

/-- Between two characters the cursor is on the screen. -/
theorem Settled.on_screen (h : Settled v t) : Shows v t := by
  have hx := h.shows.x
  have hy := h.shows.y
  have hinside := h.endless.inside
  refine ⟨hx, ?_, ?_, ?_, h.shows.cells⟩
  · rw [hy]
    omega
  · rw [hx]
    omega
  · rw [hy]
    omega

theorem init_settled (v : Vga) (mode : UInt8) :
    ∃ u ports, vgaInit v mode = .ok (u, ports) ∧ Settled u (Terminal.cleared blankCell) := by
  obtain ⟨fb, hrun, hfb⟩ := vga_clear_eq { v with curAttr := bootAttr }
  refine ⟨_, _, congrArg (· >>= _) hrun, ?_, Terminal.cleared_open (by omega)⟩
  exact ⟨rfl, rfl, rfl, Nat.le_refl _, fun row col hrow hcol => hfb _ (by omega)⟩

theorem put_all_settled (h : Settled v t) (cs : List UInt8) : ∃ u, vgaPutAll v cs = .ok u ∧
    Settled u (cs.foldl (fun t c => t.step 80 8 blankCell (charOp bootAttr c)) t) := by
  induction cs generalizing v t with
  | nil => exact ⟨v, rfl, h⟩
  | cons c cs ih =>
    obtain ⟨u, hput, hnext⟩ := putchar_settled h c
    obtain ⟨w, hrest, hlast⟩ := ih hnext
    refine ⟨w, ?_, hlast⟩
    unfold vgaPutAll at hrest ⊢
    rw [List.foldlM_cons, hput, ok_bind, hrest]

/-- After `vga_init` and any characters the screen shows the end of an endless terminal, and
no character is written outside of it. -/
theorem screen_shows_terminal (v : Vga) (mode : UInt8) (cs : List UInt8) :
    ∃ u ports s, vgaInit v mode = .ok (u, ports) ∧ vgaPutAll u cs = .ok s ∧ Shows s (terminal cs) := by
  obtain ⟨u, ports, hinit, hu⟩ := init_settled v mode
  obtain ⟨s, hput, hs⟩ := put_all_settled hu cs
  exact ⟨u, ports, s, hinit, hput, hs.on_screen⟩

end BaSic.Proofs.VgaScreen
