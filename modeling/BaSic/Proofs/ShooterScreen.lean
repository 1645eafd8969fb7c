import BaSic.Proofs.ShooterSteps
import BaSic.Lib.Canvas

namespace BaSic.Proofs.ShooterScreen
open Kernel Kernel.Shooter ShooterSteps Lib

/-- The cell that `put` writes, if it is on the screen. -/
def mark (col row : Int) (c : UInt8) (fg bg : VgaColor) : List (Nat × UInt16) :=
  if col < 0 ∨ vgaWidth ≤ col ∨ row < 0 ∨ vgaHeight ≤ row then []
  else [((row * vgaWidth + col).toNat, vgaCell c ((bg.code <<< 4) ||| fg.code))]

def blank : UInt16 := vgaCell 32 ((VgaColor.black.code <<< 4) ||| VgaColor.black.code)

/-- The same places, blank. -/
def rub (marks : List (Nat × UInt16)) : List (Nat × UInt16) := marks.map (fun m => (m.1, blank))

def rowMarks (col row : Int) (s : List UInt8) (fg : VgaColor) : List (Nat × UInt16) :=
  match s with
  | [] => []
  | c :: s => mark col row c fg .black ++ rowMarks (col + 1) row s fg

def numMarks (col row : Int) (val : UInt32) (fg : VgaColor) : List (Nat × UInt16) :=
  if val = 0 then mark col row 48 fg .black else rowMarks col row (numChars 10 val []) fg

def starMarks (g : Game) : List (Nat × UInt16) :=
  (List.finRange 20).flatMap (fun i => mark (g.stars i).x (g.stars i).y (g.stars i).ch .darkGrey .black)

def enemyMarks (g : Game) : List (Nat × UInt16) :=
  (List.finRange 24).flatMap (fun i =>
    if (g.enemies i).active then mark (g.enemies i).x (g.enemies i).y (g.enemies i).ch (g.enemies i).color .black else [])

def bulletMarks (g : Game) : List (Nat × UInt16) :=
  (List.finRange 8).flatMap (fun i =>
    if (g.bullets i).active then mark (g.bullets i).x (g.bullets i).y 124 .lightCyan .black else [])

def playerMarks (g : Game) : List (Nat × UInt16) :=
  mark (g.playerX - 1) playerRow 40 .lightGreen .black ++ mark g.playerX playerRow 94 .white .black ++
    mark (g.playerX + 1) playerRow 41 .lightGreen .black

def hudRow : List (Nat × UInt16) :=
  (List.range vgaWidth).flatMap (fun (c : Nat) => mark c 0 32 .black .darkGrey)

def hudText (g : Game) : List (Nat × UInt16) :=
  rowMarks 1 0 (Fs.bytes "SCORE:") .yellow ++ numMarks 8 0 g.score .white ++
    rowMarks 20 0 (Fs.bytes "LIVES:") .lightRed ++
    (List.range g.playerLives.toNat).flatMap (fun (i : Nat) => mark (27 + i * 2) 0 60 .lightRed .darkGrey) ++
    rowMarks 50 0 (Fs.bytes "LEVEL:") .lightCyan ++ numMarks 57 0 g.level .white ++
    rowMarks 65 0 (Fs.bytes "A/D:move SPACE:fire") .darkGrey

def hudMarks (g : Game) : List (Nat × UInt16) := hudRow ++ hudText g

def overMarks (g : Game) : List (Nat × UInt16) :=
  rowMarks 35 11 (Fs.bytes "GAME  OVER") .lightRed ++ rowMarks 34 12 (Fs.bytes "SCORE:") .yellow ++
    numMarks 41 12 g.score .white ++ rowMarks 32 14 (Fs.bytes "press Q to exit") .lightGrey

def clearMarks : List (Nat × UInt16) :=
  (List.range vgaHeight).flatMap (fun (r : Nat) =>
    (List.range vgaWidth).flatMap (fun (c : Nat) => mark c r 32 .black .black))

/-- What stays on the screen from frame to frame. -/
def backMarks (g : Game) : List (Nat × UInt16) := hudMarks g ++ starMarks g

/-- What moves. -/
def movingMarks (g : Game) : List (Nat × UInt16) := playerMarks g ++ bulletMarks g ++ enemyMarks g

/-- The whole picture, in the order in which it is drawn. -/
def allMarks (g : Game) : List (Nat × UInt16) :=
  starMarks g ++ enemyMarks g ++ bulletMarks g ++ playerMarks g ++ hudMarks g

variable {g g' : Game} {fb s : Framebuffer} {i : Nat}

theorem put_eq (fb : Framebuffer) (col row : Int) (c : UInt8) (fg bg : VgaColor) :
    put fb col row c fg bg = paint fb (mark col row c fg bg) := by
  unfold put mark
  split
  · rfl
  · rfl

theorem mark_places {col row : Int} {c : UInt8} {fg bg : VgaColor} (h : i ∈ places (mark col row c fg bg)) :
    0 ≤ col ∧ col < 80 ∧ 0 ≤ row ∧ row < 25 ∧ (i : Int) = row * 80 + col := by
  unfold mark vgaWidth vgaHeight at h
  split at h
  · cases h
  · rename_i hin
    obtain rfl := List.mem_singleton.mp h
    simp only [not_or, not_lt, not_le] at hin
    dsimp only
    omega

theorem mark_mem {col row : Int} {c : UInt8} {fg bg : VgaColor} (hcol : 0 ≤ col ∧ col < 80) (hrow : 0 ≤ row ∧ row < 25)
    (hi : (i : Int) = row * 80 + col) : i ∈ places (mark col row c fg bg) := by
  have hin : ¬ (col < 0 ∨ vgaWidth ≤ col ∨ row < 0 ∨ vgaHeight ≤ row) := by
    unfold vgaWidth vgaHeight
    omega
  unfold mark
  rw [if_neg hin]
  refine List.mem_singleton.mpr ?_
  unfold vgaWidth
  omega

theorem rub_mark (col row : Int) (c : UInt8) (fg bg : VgaColor) :
    rub (mark col row c fg bg) = mark col row 32 .black .black := by
  unfold rub mark
  split
  · rfl
  · rfl

@[simp] theorem rub_places (marks : List (Nat × UInt16)) : places (rub marks) = places marks := by
  unfold places rub
  rw [List.map_map]
  rfl

theorem rub_blank {marks : List (Nat × UInt16)} : ∀ m ∈ rub marks, m.2 = blank := by
  intro m hm
  obtain ⟨k, -, rfl⟩ := List.mem_map.mp hm
  rfl

theorem rub_append (a b : List (Nat × UInt16)) : rub (a ++ b) = rub a ++ rub b := List.map_append

theorem rub_flatMap {β : Type} (l : List β) (m : β → List (Nat × UInt16)) :
    rub (l.flatMap m) = l.flatMap (fun x => rub (m x)) := List.map_flatMap

theorem draw_char_row_eq (fb : Framebuffer) (col row : Int) (s : List UInt8) (fg : VgaColor) :
    drawCharRow fb col row s fg = paint fb (rowMarks col row s fg) := by
  induction s generalizing fb col with
  | nil => rfl
  | cons c s ih => rw [drawCharRow, ih, put_eq, rowMarks, paint_append]

theorem draw_num_eq (fb : Framebuffer) (col row : Int) (val : UInt32) (fg : VgaColor) :
    drawNum fb col row val fg = paint fb (numMarks col row val fg) := by
  unfold drawNum numMarks
  split
  · rw [put_eq]
  · rw [draw_char_row_eq]

theorem clear_field_eq (fb : Framebuffer) : clearField fb = paint fb clearMarks := by
  unfold clearField clearMarks
  simp only [put_eq, foldl_paint]

theorem draw_hud_eq (g : Game) (fb : Framebuffer) : drawHud g fb = paint fb (hudMarks g) := by
  unfold drawHud hudMarks hudRow hudText
  simp only [put_eq, foldl_paint, draw_char_row_eq, draw_num_eq, paint_append]

theorem draw_stars_eq (g : Game) (fb : Framebuffer) : drawStars g fb = paint fb (starMarks g) := by
  unfold drawStars starMarks
  simp only [put_eq, foldl_paint]

theorem draw_player_eq (g : Game) (fb : Framebuffer) : drawPlayer g fb = paint fb (playerMarks g) := by
  unfold drawPlayer playerMarks
  simp only [put_eq, paint_append]

theorem erase_player_eq (g : Game) (fb : Framebuffer) : erasePlayer g fb = paint fb (rub (playerMarks g)) := by
  unfold erasePlayer playerMarks
  simp only [put_eq, rub_append, rub_mark, paint_append]

/-- A loop that draws only what is active. -/
theorem foldl_paint_if {β : Type} (l : List β) (p : β → Bool) (m : β → List (Nat × UInt16)) (fb : Framebuffer) :
    l.foldl (fun fb x => if p x then paint fb (m x) else fb) fb = paint fb (l.flatMap (fun x => if p x then m x else [])) := by
  rw [← foldl_paint]
  refine congrArg (fun f => List.foldl f fb l) (funext fun fb => funext fun x => ?_)
  split
  · rfl
  · rfl

theorem rub_if {p : Prop} [Decidable p] (marks : List (Nat × UInt16)) :
    rub (if p then marks else []) = if p then rub marks else [] := by
  split
  · rfl
  · rfl

theorem draw_enemies_eq (g : Game) (fb : Framebuffer) : drawEnemies g fb = paint fb (enemyMarks g) := by
  unfold drawEnemies enemyMarks
  simp only [put_eq, foldl_paint_if _ (fun i => (g.enemies i).active)]

theorem erase_enemies_eq (g : Game) (fb : Framebuffer) : eraseEnemies g fb = paint fb (rub (enemyMarks g)) := by
  unfold eraseEnemies enemyMarks
  simp only [put_eq, foldl_paint_if _ (fun i => (g.enemies i).active), rub_flatMap, rub_if, rub_mark]

theorem draw_bullets_eq (g : Game) (fb : Framebuffer) : drawBullets g fb = paint fb (bulletMarks g) := by
  unfold drawBullets bulletMarks
  simp only [put_eq, foldl_paint_if _ (fun i => (g.bullets i).active)]

theorem erase_bullets_eq (g : Game) (fb : Framebuffer) : eraseBullets g fb = paint fb (rub (bulletMarks g)) := by
  unfold eraseBullets bulletMarks
  simp only [put_eq, foldl_paint_if _ (fun i => (g.bullets i).active), rub_flatMap, rub_if, rub_mark]

theorem draw_game_over_eq (g : Game) (fb : Framebuffer) : drawGameOver g fb = paint fb (overMarks g) := by
  unfold drawGameOver overMarks
  simp only [draw_char_row_eq, draw_num_eq, paint_append]
  rfl

theorem mark_lt {col row : Int} {c : UInt8} {fg bg : VgaColor} (h : i ∈ places (mark col row c fg bg)) : i < 2000 := by
  have := mark_places h
  omega

theorem row_marks_row {col row : Int} {s : List UInt8} {fg : VgaColor} (h : i ∈ places (rowMarks col row s fg)) :
    0 ≤ row ∧ row < 25 ∧ row * 80 ≤ i ∧ i < row * 80 + 80 := by
  induction s generalizing col with
  | nil => cases h
  | cons c s ih =>
    rw [rowMarks, places_append, List.mem_append] at h
    rcases h with hc | hs
    · have := mark_places hc
      omega
    · exact ih hs

theorem num_marks_row {col row : Int} {val : UInt32} {fg : VgaColor} (h : i ∈ places (numMarks col row val fg)) :
    0 ≤ row ∧ row < 25 ∧ row * 80 ≤ i ∧ i < row * 80 + 80 := by
  unfold numMarks at h
  split at h
  · have := mark_places h
    omega
  · exact row_marks_row h

theorem clear_places : i ∈ places clearMarks ↔ i < 2000 := by
  unfold clearMarks vgaHeight vgaWidth
  simp only [mem_places_flatMap, List.mem_range]
  constructor
  · rintro ⟨r, -, c, -, hi⟩
    exact mark_lt hi
  · intro hi
    exact ⟨i / 80, by omega, i % 80, by omega, mark_mem (by omega) (by omega) (by omega)⟩

theorem mark_blank {col row : Int} : ∀ m ∈ mark col row 32 .black .black, m.2 = blank := by
  intro m hm
  unfold mark at hm
  split at hm
  · cases hm
  · rw [List.mem_singleton.mp hm]
    rfl

/-- `clear_field` blanks the screen and nothing else. -/
theorem clear_field_apply (fb : Framebuffer) (i : Nat) : clearField fb i = if i < 2000 then blank else fb i := by
  rw [clear_field_eq]
  split
  · refine paint_inside (fun m hm => ?_) (clear_places.mpr ‹_›)
    obtain ⟨r, -, hm⟩ := List.mem_flatMap.mp hm
    obtain ⟨c, -, hm⟩ := List.mem_flatMap.mp hm
    exact mark_blank m hm
  · exact paint_outside (fun hi => absurd (clear_places.mp hi) ‹_›)

/-- The first row is covered, and only that. -/
theorem hud_places : i ∈ places (hudMarks g) ↔ i < 80 := by
  unfold hudMarks hudRow vgaWidth
  rw [places_append, List.mem_append, mem_places_flatMap]
  constructor
  · rintro (⟨c, -, hi⟩ | hi)
    · have := mark_places hi
      omega
    · unfold hudText at hi
      simp only [places_append, List.mem_append, mem_places_flatMap] at hi
      rcases hi with (((((hi | hi) | hi) | ⟨k, -, hi⟩) | hi) | hi) | hi
      · have := row_marks_row hi
        omega
      · have := num_marks_row hi
        omega
      · have := row_marks_row hi
        omega
      · have := mark_places hi
        omega
      · have := row_marks_row hi
        omega
      · have := num_marks_row hi
        omega
      · have := row_marks_row hi
        omega
  · intro hi
    refine Or.inl ⟨i, List.mem_range.mpr hi, mark_mem (by omega) (by omega) (by omega)⟩

theorem star_places_lt (h : i ∈ places (starMarks g)) : i < 2000 := by
  obtain ⟨k, -, hi⟩ := mem_places_flatMap.mp h
  exact mark_lt hi

theorem enemy_places_lt (h : i ∈ places (enemyMarks g)) : i < 2000 := by
  obtain ⟨k, -, hi⟩ := mem_places_flatMap.mp h
  split at hi
  · exact mark_lt hi
  · cases hi

theorem bullet_places_lt (h : i ∈ places (bulletMarks g)) : i < 2000 := by
  obtain ⟨k, -, hi⟩ := mem_places_flatMap.mp h
  split at hi
  · exact mark_lt hi
  · cases hi

theorem player_places_lt (h : i ∈ places (playerMarks g)) : i < 2000 := by
  unfold playerMarks at h
  simp only [places_append, List.mem_append] at h
  rcases h with (h | h) | h
  · exact mark_lt h
  · exact mark_lt h
  · exact mark_lt h

theorem over_places_lt (h : i ∈ places (overMarks g)) : i < 2000 := by
  unfold overMarks at h
  simp only [places_append, List.mem_append] at h
  rcases h with ((h | h) | h) | h
  · have := row_marks_row h
    omega
  · have := row_marks_row h
    omega
  · have := num_marks_row h
    omega
  · have := row_marks_row h
    omega

theorem all_places : i ∈ places (allMarks g) ↔ i ∈ places (backMarks g) ∨ i ∈ places (movingMarks g) := by
  unfold allMarks backMarks movingMarks
  simp only [places_append, List.mem_append]
  tauto

theorem all_places_lt (h : i ∈ places (allMarks g)) : i < 2000 := by
  unfold allMarks at h
  simp only [places_append, List.mem_append] at h
  rcases h with (((h | h) | h) | h) | h
  · exact star_places_lt h
  · exact enemy_places_lt h
  · exact bullet_places_lt h
  · exact player_places_lt h
  · have := hud_places.mp h
    omega

theorem back_places_congr (h : g'.stars = g.stars) : i ∈ places (backMarks g') ↔ i ∈ places (backMarks g) := by
  have hstars : starMarks g' = starMarks g := by
    unfold starMarks
    rw [h]
  unfold backMarks
  rw [places_append, places_append, List.mem_append, List.mem_append, hud_places, hud_places, hstars]

/-- The screen drawn anew from what the game is. -/
def picture (g : Game) (fb : Framebuffer) : Framebuffer :=
  drawHud g (drawPlayer g (drawBullets g (drawEnemies g (drawStars g (clearField fb)))))

/-- `playFrame` without erasing: the picture is drawn on an empty screen. -/
def plainPlayFrame (p : Play) (c : UInt8) : Play :=
  let (g, spaceHeld) := trigger (steerRight (steerLeft p.game c) c) p.spaceHeld c
  let g := (updateEnemies (updateBullets g) p.fb).1
  if g.enemiesAlive ≤ 0 ∧ g.gameOver = false then ⟨g, drawLevelClear (picture g p.fb), spaceHeld, 60⟩
  else ⟨g, picture g p.fb, spaceHeld, p.levelClearTimer⟩

/-- The game that draws every picture on an empty screen. -/
def plainFrame (p : Play) (c : UInt8) : Option Play :=
  if 0 < p.levelClearTimer then some (pauseFrame p)
  else if c = 113 ∨ c = 81 then none
  else if p.game.gameOver then some { p with fb := drawGameOver p.game (picture p.game p.fb) }
  else some (plainPlayFrame p c)

theorem picture_eq (g : Game) (fb : Framebuffer) : picture g fb = paint (clearField fb) (allMarks g) := by
  unfold picture allMarks
  simp only [draw_hud_eq, draw_stars_eq, draw_player_eq, draw_enemies_eq, draw_bullets_eq, paint_append]

/-- Nothing but the marks is on the screen, and beyond it everything is as it was. -/
def Clean (marks : List (Nat × UInt16)) (fb₀ fb : Framebuffer) : Prop :=
  ∀ i, i ∉ places marks → fb i = if i < 2000 then blank else fb₀ i

/-- The next picture hides everything that is left of the last one. -/
theorem redraw_over {fb₀ : Framebuffer} (h : Clean (backMarks g) fb₀ fb) (hstars : g'.stars = g.stars) :
    drawHud g' (drawPlayer g' (drawBullets g' (drawEnemies g' (drawStars g' fb)))) = picture g' fb₀ := by
  have hdraw : drawHud g' (drawPlayer g' (drawBullets g' (drawEnemies g' (drawStars g' fb)))) =
      paint fb (allMarks g') := by
    unfold allMarks
    simp only [draw_hud_eq, draw_stars_eq, draw_player_eq, draw_enemies_eq, draw_bullets_eq, paint_append]
  rw [hdraw, picture_eq]
  refine paint_congr (fun i hi => ?_)
  have hback : i ∉ places (backMarks g) := by
    rw [← back_places_congr hstars]
    exact fun hmem => hi (all_places.mpr (Or.inl hmem))
  rw [h i hback, clear_field_apply]

/-- Blank marks on the screen leave it clean. -/
theorem Clean.rub {marks rubbed : List (Nat × UInt16)} {fb₀ : Framebuffer} (h : Clean marks fb₀ fb)
    (hlt : ∀ i ∈ places rubbed, i < 2000) : Clean marks fb₀ (paint fb (rub rubbed)) := by
  intro i hi
  by_cases hr : i ∈ places rubbed
  · rw [paint_inside rub_blank (by rwa [rub_places]), if_pos (hlt i hr)]
  · rw [paint_outside (by rwa [rub_places]), h i hi]

/-- Once erased, what moves is gone. -/
theorem erased_clean (h : Clean (allMarks g) fb fb) :
    Clean (backMarks g) fb (eraseEnemies g (eraseBullets g (erasePlayer g fb))) := by
  have herase : eraseEnemies g (eraseBullets g (erasePlayer g fb)) = paint fb (rub (movingMarks g)) := by
    unfold movingMarks
    rw [erase_player_eq, erase_bullets_eq, erase_enemies_eq, rub_append, rub_append, paint_append, paint_append]
  intro i hi
  rw [herase]
  by_cases hr : i ∈ places (movingMarks g)
  · rw [paint_inside rub_blank (by rwa [rub_places]), if_pos (all_places_lt (all_places.mpr (Or.inr hr)))]
  · rw [paint_outside (by rwa [rub_places])]
    exact h i (fun hmem => (all_places.mp hmem).elim hi hr)

theorem picture_clean (g : Game) (fb : Framebuffer) : Clean (allMarks g) (picture g fb) (picture g fb) := by
  intro i hi
  split
  · rw [picture_eq, paint_outside hi, clear_field_apply, if_pos ‹_›]
  · rfl

theorem steer_left_stars (g : Game) (c : UInt8) : (steerLeft g c).stars = g.stars := by
  unfold steerLeft
  split_ifs <;> rfl

theorem steer_right_stars (g : Game) (c : UInt8) : (steerRight g c).stars = g.stars := by
  unfold steerRight
  split_ifs <;> rfl

theorem trigger_stars (g : Game) (held : Bool) (c : UInt8) : (trigger g held c).1.stars = g.stars := by
  unfold trigger fireBullet
  split
  · split
    · rfl
    · split
      · rfl
      · rfl
  · rfl

theorem update_bullet_stars (g : Game) (k : Fin 8) : (updateBullet g k).stars = g.stars := by
  unfold updateBullet hit
  dsimp only
  split
  · split
    · rfl
    · split
      · split
        · rfl
        · rfl
      · rfl
  · rfl

theorem move_enemy_stars (down : Bool) (g : Game) (j : Fin 24) : (moveEnemy down g j).stars = g.stars := by
  unfold moveEnemy
  dsimp only
  split
  · split
    · rfl
    · rfl
  · rfl

theorem foldl_stars {β : Type} {f : Game → β → Game} (h : ∀ g x, (f g x).stars = g.stars) (l : List β) (g : Game) :
    (l.foldl f g).stars = g.stars := by
  induction l generalizing g with
  | nil => rfl
  | cons x l ih => rw [List.foldl_cons, ih, h]

theorem update_enemies_stars (g : Game) (fb : Framebuffer) : (updateEnemies g fb).1.stars = g.stars := by
  unfold updateEnemies
  dsimp only
  split
  · rfl
  · unfold stepEnemies turn
    dsimp only
    rw [foldl_stars (move_enemy_stars _)]
    split
    · rfl
    · split
      · rfl
      · rfl

theorem update_enemies_clean {marks : List (Nat × UInt16)} {fb₀ : Framebuffer} (h : Clean marks fb₀ fb) (g : Game) :
    Clean marks fb₀ (updateEnemies g fb).2 := by
  unfold updateEnemies
  dsimp only
  split
  · exact h
  · unfold stepEnemies
    dsimp only
    rw [erase_enemies_eq]
    exact h.rub (fun _ hi => enemy_places_lt hi)

/-- The screen decides nothing. -/
theorem update_enemies_game (g : Game) (fb s : Framebuffer) : (updateEnemies g fb).1 = (updateEnemies g s).1 := by
  unfold updateEnemies stepEnemies
  dsimp only
  split
  · rfl
  · rfl

/-- What is known about the screen between two frames. -/
structure Tidy (p : Play) : Prop where
  pause : 0 < p.levelClearTimer → p.game.gameOver = false
  playing : p.levelClearTimer = 0 → p.game.gameOver = false → Clean (allMarks p.game) p.fb p.fb
  ended : p.levelClearTimer = 0 → p.game.gameOver = true →
    paint p.fb (overMarks p.game) = paint (picture p.game p.fb) (overMarks p.game)

variable {p : Play} {c : UInt8}

theorem play_frame_eq (h : Clean (allMarks p.game) p.fb p.fb) : playFrame p c = plainPlayFrame p c := by
  have hstars : ∀ fb, (updateEnemies (updateBullets
      (trigger (steerRight (steerLeft p.game c) c) p.spaceHeld c).1) fb).1.stars = p.game.stars := by
    intro fb
    rw [update_enemies_stars]
    unfold updateBullets
    rw [foldl_stars update_bullet_stars, trigger_stars, steer_right_stars, steer_left_stars]
  have hclean := update_enemies_clean (erased_clean h)
    (updateBullets (trigger (steerRight (steerLeft p.game c) c) p.spaceHeld c).1)
  unfold playFrame plainPlayFrame
  dsimp only
  rw [redraw_over hclean (hstars _), update_enemies_game _ _ p.fb]

theorem clear_field_paint {marks : List (Nat × UInt16)} (h : ∀ i ∈ places marks, i < 2000) :
    clearField (paint fb marks) = clearField fb := by
  funext i
  rw [clear_field_apply, clear_field_apply]
  split
  · rfl
  · exact paint_outside (fun hi => absurd (h i hi) ‹_›)

/-- A picture does not depend on what was painted before. -/
theorem picture_paint {marks : List (Nat × UInt16)} (h : ∀ i ∈ places marks, i < 2000) :
    picture g (paint fb marks) = picture g fb := by
  rw [picture_eq, picture_eq, clear_field_paint h]

theorem picture_twice (g : Game) (fb : Framebuffer) : picture g (picture g fb) = picture g fb := by
  have hclear : clearField (clearField fb) = clearField fb := by
    rw [clear_field_eq fb]
    exact (clear_field_paint (fun i hi => clear_places.mp hi)).trans (clear_field_eq fb)
  rw [picture_eq g fb, picture_paint (fun i hi => all_places_lt hi), picture_eq, hclear]

theorem play_frame_tidy (h : Tidy p) (htimer : p.levelClearTimer = 0) (hover : p.game.gameOver = false) :
    playFrame p c = plainPlayFrame p c ∧ Tidy (playFrame p c) := by
  have heq := play_frame_eq (c := c) (h.playing htimer hover)
  refine ⟨heq, ?_⟩
  rw [heq]
  unfold plainPlayFrame
  dsimp only
  split
  · rename_i hdone
    have hsixty : ¬ 60 = 0 := by decide
    exact ⟨fun _ => hdone.2, fun hzero => absurd hzero hsixty, fun hzero => absurd hzero hsixty⟩
  · refine ⟨fun hpos => absurd htimer (Nat.ne_of_gt hpos), fun _ _ => picture_clean _ _, fun _ _ => ?_⟩
    dsimp only
    rw [picture_twice]

/-- A new wave starts on a screen with the stars only. -/
theorem back_clean (g : Game) (fb : Framebuffer) :
    Clean (allMarks g) (drawStars g (drawHud g (clearField fb))) (drawStars g (drawHud g (clearField fb))) := by
  have hback : drawStars g (drawHud g (clearField fb)) = paint (clearField fb) (backMarks g) := by
    unfold backMarks
    rw [draw_stars_eq, draw_hud_eq, paint_append]
  intro i hi
  split
  · rw [hback, paint_outside (fun hmem => hi (all_places.mpr (Or.inl hmem))), clear_field_apply, if_pos ‹_›]
  · rfl

theorem pause_frame_tidy (h : Tidy p) (htimer : 0 < p.levelClearTimer) : Tidy (pauseFrame p) := by
  have hover := h.pause htimer
  unfold pauseFrame
  dsimp only
  split
  · rename_i hleft
    refine ⟨fun hpos => absurd hleft (Nat.ne_of_gt hpos), fun _ _ => back_clean _ _, fun _ hended => ?_⟩
    exact absurd (hover.symm.trans hended) (by decide)
  · rename_i hleft
    exact ⟨fun _ => hover, fun hzero => absurd hzero hleft, fun hzero => absurd hzero hleft⟩

theorem over_frame_tidy (h : Tidy p) (htimer : p.levelClearTimer = 0) (hover : p.game.gameOver = true) :
    drawGameOver p.game p.fb = drawGameOver p.game (picture p.game p.fb) ∧
      Tidy { p with fb := drawGameOver p.game p.fb } := by
  have hended := h.ended htimer hover
  refine ⟨by rw [draw_game_over_eq, draw_game_over_eq, hended], ?_⟩
  refine ⟨fun hpos => absurd htimer (Nat.ne_of_gt hpos), fun _ hgoing => ?_, fun _ _ => ?_⟩
  · exact absurd (hover.symm.trans hgoing) (by decide)
  · dsimp only
    rw [draw_game_over_eq, paint_twice, picture_paint (fun i hi => over_places_lt hi), hended]

theorem start_tidy (g : Game) (fb : Framebuffer) (timerTicks : UInt32) : Tidy (startPlay g fb timerTicks) := by
  refine ⟨fun hpos => absurd hpos (Nat.lt_irrefl 0), fun _ _ => ?_, fun _ hended => ?_⟩
  · intro i hi
    split
    · have hother := fun hmem => hi (all_places.mpr hmem)
      unfold startPlay at hother ⊢
      unfold backMarks movingMarks at hother
      simp only [places_append, List.mem_append] at hother
      dsimp only
      rw [draw_player_eq, paint_outside (fun hmem => hother (Or.inr (Or.inl (Or.inl hmem)))), draw_enemies_eq,
        paint_outside (fun hmem => hother (Or.inr (Or.inr hmem))), draw_stars_eq,
        paint_outside (fun hmem => hother (Or.inl (Or.inr hmem))), draw_hud_eq,
        paint_outside (fun hmem => hother (Or.inl (Or.inl hmem))), clear_field_apply, if_pos ‹_›]
    · rfl
  · have hgoing : (startPlay g fb timerTicks).game.gameOver = false := init_game_over g timerTicks
    rw [hgoing] at hended
    cases hended

theorem frame_tidy (h : Tidy p) : frame p c = plainFrame p c ∧ ∀ q, frame p c = some q → Tidy q := by
  unfold frame plainFrame
  by_cases htimer : 0 < p.levelClearTimer
  · rw [if_pos htimer, if_pos htimer]
    refine ⟨rfl, fun q hq => ?_⟩
    rw [← Option.some.inj hq]
    exact pause_frame_tidy h htimer
  · have hzero : p.levelClearTimer = 0 := Nat.eq_zero_of_not_pos htimer
    rw [if_neg htimer, if_neg htimer]
    split
    · exact ⟨rfl, fun q hq => by cases hq⟩
    · split
      · obtain ⟨heq, htidy⟩ := over_frame_tidy h hzero ‹_›
        refine ⟨by rw [heq], fun q hq => ?_⟩
        rw [← Option.some.inj hq]
        exact htidy
      · obtain ⟨heq, htidy⟩ := play_frame_tidy (c := c) h hzero (Bool.eq_false_of_not_eq_true ‹_›)
        refine ⟨by rw [heq], fun q hq => ?_⟩
        rw [← Option.some.inj hq]
        exact htidy

/-- Erasing only what moves shows the same as drawing every picture on an empty screen, whatever
keys are pressed. -/
theorem screen_is_redrawn (g : Game) (fb : Framebuffer) (timerTicks : UInt32) (keys : List UInt8) :
    keys.foldlM frame (startPlay g fb timerTicks) = keys.foldlM plainFrame (startPlay g fb timerTicks) := by
  have hrun : ∀ p, Tidy p → keys.foldlM frame p = keys.foldlM plainFrame p := by
    induction keys with
    | nil => exact fun _ _ => rfl
    | cons c keys ih =>
      intro p hp
      obtain ⟨heq, hkept⟩ := frame_tidy (c := c) hp
      rw [List.foldlM_cons, List.foldlM_cons, ← heq]
      cases hq : frame p c with
      | none => rfl
      | some q => exact ih q (hkept q hq)
  exact hrun _ (start_tidy g fb timerTicks)

end BaSic.Proofs.ShooterScreen
