import BaSic.Kernel.Vga
import BaSic.Fs.Ramfs

namespace BaSic.Kernel.Shooter
open Fs

def fieldTop : Int := 1
def fieldBot : Int := 22
def playerRow : Int := 23

/-- `bullet_t` -/
structure Bullet where
  x : Int
  y : Int
  active : Bool
  deriving DecidableEq, Repr

/-- `enemy_t` -/
structure Enemy where
  x : Int
  y : Int
  active : Bool
  hp : Int
  ch : UInt8
  color : VgaColor
  deriving DecidableEq, Repr

/-- `star_t` -/
structure Star where
  x : Int
  y : Int
  ch : UInt8
  deriving DecidableEq, Repr

/-- The statics of `shooter.c` and the `dir` of `update_enemies` -/
structure Game where
  playerX : Int
  playerLives : Int
  score : UInt32
  level : UInt32
  bullets : Fin 8 → Bullet
  enemies : Fin 24 → Enemy
  stars : Fin 20 → Star
  gameOver : Bool
  enemyMoveTimer : UInt32
  enemyMoveInterval : UInt32
  enemiesAlive : Int
  rngState : UInt32
  dir : Int

def put (fb : Framebuffer) (col row : Int) (c : UInt8) (fg bg : VgaColor) : Framebuffer :=
  if col < 0 ∨ vgaWidth ≤ col ∨ row < 0 ∨ vgaHeight ≤ row then fb
  else Function.update fb (row * vgaWidth + col).toNat (vgaCell c ((bg.code <<< 4) ||| fg.code))

def clearField (fb : Framebuffer) : Framebuffer :=
  (List.range vgaHeight).foldl (fun fb (r : Nat) =>
    (List.range vgaWidth).foldl (fun fb (c : Nat) => put fb c r 32 .black .black) fb) fb

def drawCharRow (fb : Framebuffer) (col row : Int) (s : List UInt8) (fg : VgaColor) : Framebuffer :=
  match s with
  | [] => fb
  | c :: s => drawCharRow (put fb col row c fg .black) (col + 1) row s fg

/-- The characters of `buf` after the loop, with `i` cells left in front. -/
def numChars : Nat → UInt32 → List UInt8 → List UInt8
  | 0, _, text => text
  | i + 1, val, text => if val = 0 then text else numChars i (val / 10) ((48 + (val % 10).toUInt8) :: text)

def drawNum (fb : Framebuffer) (col row : Int) (val : UInt32) (fg : VgaColor) : Framebuffer :=
  if val = 0 then put fb col row 48 fg .black else drawCharRow fb col row (numChars 10 val []) fg

def rng (state : UInt32) : UInt32 :=
  let state := state ^^^ (state <<< 13)
  let state := state ^^^ (state >>> 17)
  state ^^^ (state <<< 5)

/-- One turn of `init_stars`, with its three calls of `rng`. -/
def initStar (g : Game) (i : Fin 20) : Game :=
  let a := rng g.rngState
  let b := rng a
  let c := rng b
  let star : Star := ⟨(a % 80).toNat, fieldTop + b.toNat % (fieldBot - fieldTop), if c % 3 = 0 then 42 else 46⟩
  { g with stars := Function.update g.stars i star, rngState := c }

def initStars (g : Game) : Game := (List.finRange 20).foldl initStar g

/-- `enemy_chars` -/
def enemyChars : List UInt8 := [86, 87, 77]

/-- `enemy_colors` -/
def enemyColors : List VgaColor := [.lightRed, .lightMagenta, .yellow]

/-- The enemy of row `r` and column `c` in a new wave. -/
def newEnemy (level : UInt32) (r c : Nat) : Enemy :=
  { x := 4 + c * 9, y := fieldTop + r * 3, active := true, hp := 1 + (level / 3).toNat,
    ch := enemyChars.getD (r % 3) 0, color := enemyColors.getD (r % 3) .black }

/-- One turn of the inner loop of `spawn_wave` on `idx` and the enemies. -/
def spawnEnemy (level : UInt32) (r : Nat) (s : Nat × (Fin 24 → Enemy)) (c : Nat) : Nat × (Fin 24 → Enemy) :=
  if h : s.1 < 24 then (s.1 + 1, Function.update s.2 ⟨s.1, h⟩ (newEnemy level r c)) else s

def spawnWave (g : Game) : Game :=
  let s := (List.range 3).foldl (fun s r => (List.range 8).foldl (spawnEnemy g.level r) s) (0, g.enemies)
  let interval := if g.level < 5 then 30 - g.level * 4 else 10
  { g with
    -- what is left of the table is not in use
    enemies := fun i => if s.1 ≤ i.val then { s.2 i with active := false } else s.2 i
    enemiesAlive := s.1
    enemyMoveInterval := if interval < 6 then 6 else interval }

/-- `memset(bullets, 0, sizeof(bullets))` -/
def noBullets : Fin 8 → Bullet := fun _ => ⟨0, 0, false⟩

/-- `memset(enemies, 0, sizeof(enemies))` -/
def noEnemies : Fin 24 → Enemy := fun _ => ⟨0, 0, false, 0, 0, .black⟩

def initGame (g : Game) (timerTicks : UInt32) : Game :=
  spawnWave (initStars { g with
    playerX := vgaWidth / 2, playerLives := 3, score := 0, level := 1, gameOver := false, enemyMoveTimer := 0,
    rngState := timerTicks + 1, bullets := noBullets, enemies := noEnemies })

def fireBullet (g : Game) : Game :=
  match Fin.find? (fun i => !(g.bullets i).active) with
  | some i => { g with bullets := Function.update g.bullets i ⟨g.playerX, playerRow - 1, true⟩ }
  | none => g

def drawHud (g : Game) (fb : Framebuffer) : Framebuffer :=
  let fb := (List.range vgaWidth).foldl (fun fb (c : Nat) => put fb c 0 32 .black .darkGrey) fb
  let fb := drawCharRow fb 1 0 (bytes "SCORE:") .yellow
  let fb := drawNum fb 8 0 g.score .white
  let fb := drawCharRow fb 20 0 (bytes "LIVES:") .lightRed
  let fb := (List.range g.playerLives.toNat).foldl (fun fb (i : Nat) =>
    put fb (27 + i * 2) 0 60 .lightRed .darkGrey) fb
  let fb := drawCharRow fb 50 0 (bytes "LEVEL:") .lightCyan
  let fb := drawNum fb 57 0 g.level .white
  drawCharRow fb 65 0 (bytes "A/D:move SPACE:fire") .darkGrey

def drawStars (g : Game) (fb : Framebuffer) : Framebuffer :=
  (List.finRange 20).foldl (fun fb i => put fb (g.stars i).x (g.stars i).y (g.stars i).ch .darkGrey .black) fb

def drawPlayer (g : Game) (fb : Framebuffer) : Framebuffer :=
  let fb := put fb (g.playerX - 1) playerRow 40 .lightGreen .black
  let fb := put fb g.playerX playerRow 94 .white .black
  put fb (g.playerX + 1) playerRow 41 .lightGreen .black

def erasePlayer (g : Game) (fb : Framebuffer) : Framebuffer :=
  let fb := put fb (g.playerX - 1) playerRow 32 .black .black
  let fb := put fb g.playerX playerRow 32 .black .black
  put fb (g.playerX + 1) playerRow 32 .black .black

def drawEnemies (g : Game) (fb : Framebuffer) : Framebuffer :=
  (List.finRange 24).foldl (fun fb i =>
    let e := g.enemies i
    if e.active then put fb e.x e.y e.ch e.color .black else fb) fb

def eraseEnemies (g : Game) (fb : Framebuffer) : Framebuffer :=
  (List.finRange 24).foldl (fun fb i =>
    let e := g.enemies i
    if e.active then put fb e.x e.y 32 .black .black else fb) fb

def drawBullets (g : Game) (fb : Framebuffer) : Framebuffer :=
  (List.finRange 8).foldl (fun fb i =>
    let b := g.bullets i
    if b.active then put fb b.x b.y 124 .lightCyan .black else fb) fb

def eraseBullets (g : Game) (fb : Framebuffer) : Framebuffer :=
  (List.finRange 8).foldl (fun fb i =>
    let b := g.bullets i
    if b.active then put fb b.x b.y 32 .black .black else fb) fb

/-- Bullet `i` hits enemy `j`. -/
def hit (g : Game) (i : Fin 8) (j : Fin 24) : Game :=
  let e := { g.enemies j with hp := (g.enemies j).hp - 1 }
  let g := { g with bullets := Function.update g.bullets i { g.bullets i with active := false } }
  if e.hp ≤ 0 then
    { g with
      enemies := Function.update g.enemies j { e with active := false }
      enemiesAlive := g.enemiesAlive - 1
      score := g.score + 10 * g.level }
  else { g with enemies := Function.update g.enemies j e }

/-- One turn of `update_bullets`: the bullet goes up, and the first enemy it meets is hit. -/
def updateBullet (g : Game) (i : Fin 8) : Game :=
  if (g.bullets i).active then
    let b := { g.bullets i with y := (g.bullets i).y - 1 }
    if b.y < fieldTop then { g with bullets := Function.update g.bullets i { b with active := false } }
    else
      let g := { g with bullets := Function.update g.bullets i b }
      match Fin.find? (fun j => (g.enemies j).active && b.x == (g.enemies j).x && b.y == (g.enemies j).y) with
      | some j => hit g i j
      | none => g
  else g

def updateBullets (g : Game) : Game := (List.finRange 8).foldl updateBullet g

def minX (g : Game) : Int :=
  (List.finRange 24).foldl (fun m i =>
    if (g.enemies i).active then if (g.enemies i).x < m then (g.enemies i).x else m else m) vgaWidth

def maxX (g : Game) : Int :=
  (List.finRange 24).foldl (fun m i =>
    if (g.enemies i).active then if m < (g.enemies i).x then (g.enemies i).x else m else m) 0

def moved (dir : Int) (shiftDown : Bool) (e : Enemy) : Enemy :=
  { e with x := e.x + dir, y := if shiftDown then e.y + 1 else e.y }

/-- One turn of the last loop of `update_enemies`. -/
def moveEnemy (shiftDown : Bool) (g : Game) (i : Fin 24) : Game :=
  if (g.enemies i).active then
    let e := moved g.dir shiftDown (g.enemies i)
    if playerRow ≤ e.y then
      { g with
        playerLives := g.playerLives - 1
        enemies := Function.update g.enemies i { e with active := false }
        enemiesAlive := g.enemiesAlive - 1
        gameOver := if g.playerLives - 1 ≤ 0 then true else g.gameOver }
    else { g with enemies := Function.update g.enemies i e }
  else g

/-- The enemies turn at the edges of the field. -/
def turn (g : Game) (atRight atLeft : Bool) : Game :=
  if atLeft then { g with dir := 1 } else if atRight then { g with dir := -1 } else g

/-- `update_enemies` from where the timer has run out. -/
def stepEnemies (g : Game) (fb : Framebuffer) : Game × Framebuffer :=
  let atRight : Bool := vgaWidth - 2 ≤ maxX g
  let atLeft : Bool := minX g ≤ 1
  let g := turn g atRight atLeft
  ((List.finRange 24).foldl (moveEnemy (atRight || atLeft)) g, eraseEnemies g fb)

def updateEnemies (g : Game) (fb : Framebuffer) : Game × Framebuffer :=
  let g := { g with enemyMoveTimer := g.enemyMoveTimer + 1 }
  if g.enemyMoveTimer < g.enemyMoveInterval then (g, fb) else stepEnemies { g with enemyMoveTimer := 0 } fb

def drawGameOver (g : Game) (fb : Framebuffer) : Framebuffer :=
  let cx : Int := vgaWidth / 2
  let cy : Int := vgaHeight / 2
  let fb := drawCharRow fb (cx - 5) (cy - 1) (bytes "GAME  OVER") .lightRed
  let fb := drawCharRow fb (cx - 6) cy (bytes "SCORE:") .yellow
  let fb := drawNum fb (cx + 1) cy g.score .white
  drawCharRow fb (cx - 8) (cy + 2) (bytes "press Q to exit") .lightGrey

def drawLevelClear (fb : Framebuffer) : Framebuffer :=
  let cx : Int := vgaWidth / 2 - 6
  let cy : Int := vgaHeight / 2
  let fb := drawCharRow fb cx cy (bytes "LEVEL CLEAR!") .lightGreen
  drawCharRow fb cx (cy + 2) (bytes "next wave...") .lightGrey

/-- The game on its screen, with the locals of `shooter_run` -/
structure Play where
  game : Game
  fb : Framebuffer
  spaceHeld : Bool
  levelClearTimer : Nat

/-- `shooter_run` up to its loop; `timerTicks` is what `init_game` reads. -/
def startPlay (g : Game) (fb : Framebuffer) (timerTicks : UInt32) : Play :=
  let g := initGame g timerTicks
  ⟨g, drawPlayer g (drawEnemies g (drawStars g (drawHud g (clearField fb)))), false, 0⟩

/-- A frame of the pause between two waves. -/
def pauseFrame (p : Play) : Play :=
  let p := { p with levelClearTimer := p.levelClearTimer - 1 }
  if p.levelClearTimer = 0 then
    let g := spawnWave { p.game with level := p.game.level + 1, bullets := noBullets }
    { p with game := g, fb := drawStars g (drawHud g (clearField p.fb)) }
  else p

def steerLeft (g : Game) (c : UInt8) : Game :=
  if c = 97 ∨ c = 65 then if 2 < g.playerX then { g with playerX := g.playerX - 1 } else g else g

def steerRight (g : Game) (c : UInt8) : Game :=
  if c = 100 ∨ c = 68 then if g.playerX < vgaWidth - 3 then { g with playerX := g.playerX + 1 } else g else g

/-- The game after the key and the new `space_held`; the space bar fires when it was up before. -/
def trigger (g : Game) (spaceHeld : Bool) (c : UInt8) : Game × Bool :=
  if c = 32 then if spaceHeld then (g, true) else (fireBullet g, true) else (g, false)

/-- A frame in which the game goes on; `c` is the key that was read. -/
def playFrame (p : Play) (c : UInt8) : Play :=
  let fb := eraseEnemies p.game (eraseBullets p.game (erasePlayer p.game p.fb))
  let (g, spaceHeld) := trigger (steerRight (steerLeft p.game c) c) p.spaceHeld c
  let (g, fb) := updateEnemies (updateBullets g) fb
  let fb := drawHud g (drawPlayer g (drawBullets g (drawEnemies g (drawStars g fb))))
  if g.enemiesAlive ≤ 0 ∧ g.gameOver = false then ⟨g, drawLevelClear fb, spaceHeld, 60⟩
  else ⟨g, fb, spaceHeld, p.levelClearTimer⟩

/-- One turn of the loop of `shooter_run`; `c` is what `keyboard_getchar` has, and there is
no state where the loop is left. -/
def frame (p : Play) (c : UInt8) : Option Play :=
  if 0 < p.levelClearTimer then some (pauseFrame p)
  else if c = 113 ∨ c = 81 then none
  else if p.game.gameOver then some { p with fb := drawGameOver p.game p.fb }
  else some (playFrame p c)

end BaSic.Kernel.Shooter
