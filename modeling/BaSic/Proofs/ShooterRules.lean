import BaSic.Proofs.ShooterSteps

namespace BaSic.Proofs.ShooterRules
open Kernel Kernel.Shooter ShooterSteps

/-- The statics before the first game -/
def boot : Game :=
  { playerX := 0, playerLives := 0, score := 0, level := 0, bullets := noBullets, enemies := noEnemies,
    stars := fun _ => ⟨0, 0, 0⟩, gameOver := false, enemyMoveTimer := 0, enemyMoveInterval := 0, enemiesAlive := 0,
    rngState := 12345, dir := 1 }

/-- The states of games played one after the other, whatever keys are pressed and whatever is on
the screen when a game starts. -/
inductive Reached : Play → Prop where
  | first (fb : Framebuffer) (timerTicks : UInt32) : Reached (startPlay boot fb timerTicks)
  | again {p : Play} {c : UInt8} (fb : Framebuffer) (timerTicks : UInt32) (h : Reached p) (hleft : frame p c = none) :
      Reached (startPlay p.game fb timerTicks)
  | next {p q : Play} {c : UInt8} (h : Reached p) (hnext : frame p c = some q) : Reached q

/-- The enemies left stand where a new wave would after `right` steps to the right and `down`
steps down, and above the row of the player. -/
structure Placed (right down : Int) (enemies : Fin 24 → Enemy) : Prop where
  start : 0 ≤ down
  place : ∀ i ∈ standing enemies, (enemies i).x = 4 + 9 * (i.val % 8 : Nat) + right ∧
    (enemies i).y = 1 + 3 * (i.val / 8 : Nat) + down
  field : ∀ i ∈ standing enemies, 1 ≤ (enemies i).x ∧ (enemies i).x ≤ 78 ∧ (enemies i).y ≤ 22

/-- The rules that every part of a frame keeps. -/
structure Fair (g : Game) : Prop where
  wave : ∃ right down, Placed right down g.enemies
  alive : g.enemiesAlive = (standing g.enemies).card
  hp : ∀ i ∈ standing g.enemies, 1 ≤ (g.enemies i).hp ∧ (g.enemies i).hp ≤ 1 + ((g.level / 3).toNat : Nat)
  player : 2 ≤ g.playerX ∧ g.playerX ≤ 77
  lives : -7 ≤ g.playerLives ∧ g.playerLives ≤ 3
  ended : g.gameOver = true ↔ g.playerLives ≤ 0
  stars : ∀ i, 0 ≤ (g.stars i).x ∧ (g.stars i).x < 80 ∧ 1 ≤ (g.stars i).y ∧ (g.stars i).y ≤ 21
  dir : g.dir = 1 ∨ g.dir = -1
  interval : g.enemyMoveInterval = pace g.level
  timer : g.enemyMoveTimer < 30

/-- The bullets on their way are over the columns of the player and in the field down to row `bottom`. -/
def Aimed (bottom : Int) (g : Game) : Prop :=
  ∀ k, (g.bullets k).active = true → 2 ≤ (g.bullets k).x ∧ (g.bullets k).x ≤ 77 ∧ 1 ≤ (g.bullets k).y ∧
    (g.bullets k).y ≤ bottom

/-- What `update_bullets` leaves of the enemies, `n` of which it kills. -/
structure Thinned (n : Nat) (g g' : Game) : Prop where
  playerX : g'.playerX = g.playerX
  playerLives : g'.playerLives = g.playerLives
  level : g'.level = g.level
  stars : g'.stars = g.stars
  gameOver : g'.gameOver = g.gameOver
  timer : g'.enemyMoveTimer = g.enemyMoveTimer
  interval : g'.enemyMoveInterval = g.enemyMoveInterval
  dir : g'.dir = g.dir
  kept : ∀ i ∈ standing g'.enemies, i ∈ standing g.enemies ∧ (g'.enemies i).x = (g.enemies i).x ∧ (g'.enemies i).y = (g.enemies i).y ∧
    (g'.enemies i).hp ≤ (g.enemies i).hp ∧ (1 ≤ (g.enemies i).hp → 1 ≤ (g'.enemies i).hp)
  left : (standing g'.enemies).card + n = (standing g.enemies).card
  alive : g'.enemiesAlive = g.enemiesAlive - n
  score : g'.score = g.score + 10 * g.level * UInt32.ofNat n

variable {g g' g'' : Game} {right down bottom : Int} {n m : Nat}

theorem Thinned.trans (h : Thinned n g g') (h' : Thinned m g' g'') : Thinned (n + m) g g'' where
  playerX := h'.playerX.trans h.playerX
  playerLives := h'.playerLives.trans h.playerLives
  level := h'.level.trans h.level
  stars := h'.stars.trans h.stars
  gameOver := h'.gameOver.trans h.gameOver
  timer := h'.timer.trans h.timer
  interval := h'.interval.trans h.interval
  dir := h'.dir.trans h.dir
  kept := by
    intro i hi
    obtain ⟨hi', hx', hy', hle', hpos'⟩ := h'.kept i hi
    obtain ⟨hi, hx, hy, hle, hpos⟩ := h.kept i hi'
    exact ⟨hi, hx'.trans hx, hy'.trans hy, hle'.trans hle, fun hg => hpos' (hpos hg)⟩
  left := by
    have := h.left
    have := h'.left
    omega
  alive := by
    rw [h'.alive, h.alive]
    push_cast
    omega
  score := by
    rw [h'.score, h.score, h.level, UInt32.ofNat_add, UInt32.mul_add, UInt32.add_assoc]

theorem Thinned.refl (g : Game) : Thinned 0 g g where
  playerX := rfl
  playerLives := rfl
  level := rfl
  stars := rfl
  gameOver := rfl
  timer := rfl
  interval := rfl
  dir := rfl
  kept := fun _ hi => ⟨hi, rfl, rfl, le_refl _, id⟩
  left := rfl
  alive := (Int.sub_zero _).symm
  score := by simp

theorem standing_kill {t : Fin 24 → Enemy} {j : Fin 24} {e : Enemy} (he : e.active = false) :
    standing (Function.update t j e) = (standing t).erase j := by
  ext i
  rw [Finset.mem_erase, mem_standing, mem_standing]
  by_cases hi : i = j
  · rw [hi, Function.update_self, he]
    simp
  · rw [Function.update_of_ne hi, and_iff_right hi]

theorem standing_wound {t : Fin 24 → Enemy} {j : Fin 24} {e : Enemy} (he : e.active = true) (hj : j ∈ standing t) :
    standing (Function.update t j e) = standing t := by
  ext i
  rw [mem_standing, mem_standing]
  by_cases hi : i = j
  · rw [hi, Function.update_self]
    exact iff_of_true he (mem_standing.mp hj)
  · rw [Function.update_of_ne hi]

theorem update_bullet_thinned (g : Game) (k : Fin 8) : ∃ n, Thinned n g (updateBullet g k) := by
  rcases update_bullet_cases g k with ⟨b, -, heq⟩ | ⟨b, j, -, hj, hhp, heq⟩ | ⟨b, e, j, -, he, hj, heq⟩
  · rw [heq]
    exact ⟨0, { Thinned.refl g with }⟩
  · refine ⟨0, ?_⟩
    have hactive : ({ g.enemies j with hp := (g.enemies j).hp - 1 } : Enemy).active = true := mem_standing.mp hj
    have hsame : standing (updateBullet g k).enemies = standing g.enemies := by
      rw [heq]
      exact standing_wound hactive hj
    have hkept : ∀ i ∈ standing g.enemies, (updateBullet g k).enemies i = if i = j then
        { g.enemies j with hp := (g.enemies j).hp - 1 } else g.enemies i := by
      intro i _
      rw [heq]
      exact Function.update_apply ..
    refine { playerX := by rw [heq], playerLives := by rw [heq], level := by rw [heq], stars := by rw [heq],
             gameOver := by rw [heq], timer := by rw [heq], interval := by rw [heq], dir := by rw [heq],
             kept := ?_, left := by rw [hsame]; rfl, alive := by rw [heq]; exact (Int.sub_zero _).symm,
             score := by rw [heq]; simp }
    intro i hi
    rw [hsame] at hi
    rw [hkept i hi]
    split
    · rename_i hij
      subst hij
      exact ⟨hi, rfl, rfl, by dsimp only; omega, by dsimp only; omega⟩
    · exact ⟨hi, rfl, rfl, le_refl _, id⟩
  · refine ⟨1, ?_⟩
    have hgone : standing (updateBullet g k).enemies = (standing g.enemies).erase j := by
      rw [heq]
      exact standing_kill he
    refine { playerX := by rw [heq], playerLives := by rw [heq], level := by rw [heq], stars := by rw [heq],
             gameOver := by rw [heq], timer := by rw [heq], interval := by rw [heq], dir := by rw [heq],
             kept := ?_, left := by rw [hgone]; exact Finset.card_erase_add_one hj, alive := by rw [heq]; rfl,
             score := by rw [heq]; simp }
    intro i hi
    rw [hgone] at hi
    obtain ⟨hij, hi⟩ := Finset.mem_erase.mp hi
    rw [heq]
    dsimp only
    rw [Function.update_of_ne hij]
    exact ⟨hi, rfl, rfl, le_refl _, id⟩

theorem update_bullets_thinned (g : Game) : ∃ n, Thinned n g (updateBullets g) := by
  have hfold : ∀ (l : List (Fin 8)) (g : Game), ∃ n, Thinned n g (l.foldl updateBullet g) := by
    intro l
    induction l with
    | nil => exact fun g => ⟨0, Thinned.refl g⟩
    | cons k l ih =>
      intro g
      obtain ⟨n, hn⟩ := update_bullet_thinned g k
      obtain ⟨m, hm⟩ := ih (updateBullet g k)
      exact ⟨n + m, hn.trans hm⟩
  exact hfold _ g

theorem Placed.thinned (h : Placed right down g.enemies) (ht : Thinned n g g') : Placed right down g'.enemies := by
  refine ⟨h.start, fun i hi => ?_, fun i hi => ?_⟩
  · obtain ⟨hstood, hx, hy, -⟩ := ht.kept i hi
    rw [hx, hy]
    exact h.place i hstood
  · obtain ⟨hstood, hx, hy, -⟩ := ht.kept i hi
    rw [hx, hy]
    exact h.field i hstood

theorem Fair.thinned (h : Fair g) (ht : Thinned n g g') : Fair g' where
  wave := by
    obtain ⟨right, down, hplaced⟩ := h.wave
    exact ⟨right, down, hplaced.thinned ht⟩
  alive := by
    have hleft := ht.left
    rw [ht.alive, h.alive, ← hleft]
    push_cast
    omega
  hp := by
    intro i hi
    obtain ⟨hstood, -, -, hle, hpos⟩ := ht.kept i hi
    obtain ⟨hlow, hhigh⟩ := h.hp i hstood
    rw [ht.level]
    exact ⟨hpos hlow, hle.trans hhigh⟩
  player := by rw [ht.playerX]; exact h.player
  lives := by rw [ht.playerLives]; exact h.lives
  ended := by rw [ht.gameOver, ht.playerLives]; exact h.ended
  stars := by rw [ht.stars]; exact h.stars
  dir := by rw [ht.dir]; exact h.dir
  interval := by rw [ht.interval, ht.level]; exact h.interval
  timer := by rw [ht.timer]; exact h.timer

theorem update_bullet_flies (g : Game) (k : Fin 8) :
    ∃ b, Flies (g.bullets k) b ∧ (updateBullet g k).bullets = Function.update g.bullets k b := by
  rcases update_bullet_cases g k with ⟨b, hflies, heq⟩ | ⟨b, j, hb, -, -, heq⟩ | ⟨b, e, j, hb, -, -, heq⟩
  · exact ⟨b, hflies, by rw [heq]⟩
  · exact ⟨b, fun h => absurd (hb.symm.trans h) (by decide), by rw [heq]⟩
  · exact ⟨b, fun h => absurd (hb.symm.trans h) (by decide), by rw [heq]⟩

/-- Every bullet goes up by a row or is gone. -/
theorem update_bullets_aimed (h : Aimed 22 g) : Aimed 21 (updateBullets g) := by
  -- the bullets of `l` are still to be moved
  have hfold : ∀ (l : List (Fin 8)) (g : Game), (∀ k, (g.bullets k).active = true → 2 ≤ (g.bullets k).x ∧
      (g.bullets k).x ≤ 77 ∧ 1 ≤ (g.bullets k).y ∧ (g.bullets k).y ≤ if k ∈ l then 22 else 21) →
      Aimed 21 (l.foldl updateBullet g) := by
    intro l
    induction l with
    | nil => exact fun g h => h
    | cons k l ih =>
      intro g h
      refine ih (updateBullet g k) (fun k' hk' => ?_)
      obtain ⟨b, hflies, hbullets⟩ := update_bullet_flies g k
      rw [hbullets] at hk' ⊢
      by_cases hkk : k' = k
      · subst hkk
        rw [Function.update_self] at hk' ⊢
        obtain ⟨hactive, hx, hy, hfield⟩ := hflies hk'
        obtain ⟨hleft, hright, -, hlow⟩ := h k' hactive
        rw [if_pos List.mem_cons_self] at hlow
        unfold fieldTop at hfield
        refine ⟨by omega, by omega, by omega, ?_⟩
        split <;> omega
      · rw [Function.update_of_ne hkk] at hk' ⊢
        have hold := h k' hk'
        rwa [if_congr (List.mem_cons.trans (or_iff_right hkk)) rfl rfl] at hold
  refine hfold _ g (fun k hk => ?_)
  rw [if_pos (List.mem_finRange k)]
  exact h k hk

/-- Where the enemies go in their next step -/
def heading (g : Game) : Int := if minX g ≤ 1 then 1 else if 78 ≤ maxX g then -1 else g.dir

/-- An edge has been reached. -/
def turns (g : Game) : Bool := decide (78 ≤ maxX g) || decide (minX g ≤ 1)

/-- The game when the enemies set out. -/
def ready (g : Game) : Game := { g with enemyMoveTimer := 0, dir := heading g }

def arrivals (g : Game) : Nat := (List.finRange 24).countP (fun i => decide (Arrives (ready g) (turns g) i))

/-- The game after a step of the enemies. -/
def marched (g : Game) : Game := stepped (ready g) (turns g) (List.finRange 24) (arrivals g)

/-- `update_enemies` waits or lets all the enemies take a step. -/
theorem update_enemies_cases (g : Game) (fb : Framebuffer) :
    g.enemyMoveTimer + 1 < g.enemyMoveInterval ∧
      (updateEnemies g fb).1 = { g with enemyMoveTimer := g.enemyMoveTimer + 1 } ∨
    ¬ g.enemyMoveTimer + 1 < g.enemyMoveInterval ∧ (updateEnemies g fb).1 = marched g := by
  unfold updateEnemies
  dsimp only
  split
  · exact Or.inl ⟨‹_›, rfl⟩
  · refine Or.inr ⟨‹_›, ?_⟩
    have hturn : turn { g with enemyMoveTimer := 0 } (decide (78 ≤ maxX g)) (decide (minX g ≤ 1)) = ready g := by
      unfold turn ready heading
      by_cases hleft : minX g ≤ 1
      · rw [decide_eq_true hleft, if_pos rfl, if_pos hleft]
      · by_cases hright : 78 ≤ maxX g
        · rw [decide_eq_false hleft, decide_eq_true hright, if_neg hleft, if_pos hright]
          rfl
        · rw [decide_eq_false hleft, decide_eq_false hright, if_neg hleft, if_neg hright]
          rfl
    have hmove := move_enemies_eq (ready g) (turns g) (List.nodup_finRange 24)
    unfold stepEnemies
    dsimp only
    exact (congrArg (fun h => (List.finRange 24).foldl (moveEnemy (turns g)) h) hturn).trans hmove

theorem standing_marched : standing (marched g).enemies = (standing g.enemies).filter (fun i => ¬ Arrives (ready g) (turns g) i) := by
  have htable : ∀ i, (marched g).enemies i = settled (ready g) (turns g) i := fun i => if_pos (List.mem_finRange i)
  ext i
  rw [Finset.mem_filter, mem_standing, mem_standing, htable]
  constructor
  · intro hi
    obtain ⟨hactive, hrow, -⟩ := settled_active hi
    exact ⟨hactive, fun h => hrow h.2⟩
  · rintro ⟨hactive, hstays⟩
    rw [settled_stays (g := ready g) hactive hstays]
    exact hactive

theorem marched_enemies {i : Fin 24} (hi : i ∈ standing (marched g).enemies) : i ∈ standing g.enemies ∧
    (marched g).enemies i = moved (heading g) (turns g) (g.enemies i) ∧
    (moved (heading g) (turns g) (g.enemies i)).y ≤ 22 := by
  have htable : (marched g).enemies i = settled (ready g) (turns g) i := if_pos (List.mem_finRange i)
  rw [standing_marched, Finset.mem_filter] at hi
  obtain ⟨hstood, hstays⟩ := hi
  refine ⟨hstood, ?_, ?_⟩
  · rw [htable, settled_stays (g := ready g) (mem_standing.mp hstood) hstays]
    rfl
  · by_contra hlow
    refine hstays ⟨mem_standing.mp hstood, ?_⟩
    unfold playerRow
    exact Int.add_one_le_of_lt (not_le.mp hlow)

theorem card_marched : (standing (marched g).enemies).card + arrivals g = (standing g.enemies).card := by
  have harrive : arrivals g = ((standing g.enemies).filter (fun i => Arrives (ready g) (turns g) i)).card := by
    have hall : (standing g.enemies).filter (fun i => Arrives (ready g) (turns g) i) =
        Finset.univ.filter (fun i => Arrives (ready g) (turns g) i) := by
      ext i
      rw [Finset.mem_filter, Finset.mem_filter, mem_standing]
      exact ⟨fun h => ⟨Finset.mem_univ i, h.2⟩, fun h => ⟨h.2.1, h.2⟩⟩
    rw [hall]
    unfold arrivals
    rw [List.countP_eq_length_filter]
    rfl
  rw [standing_marched, harrive, add_comm]
  exact Finset.card_filter_add_card_filter_not _

/-- The step keeps the enemies between the edges: they turn before they would leave the field. -/
theorem placed_marched (h : Placed right down g.enemies) (hdir : g.dir = 1 ∨ g.dir = -1) :
    Placed (right + heading g) (down + if turns g then 1 else 0) (marched g).enemies := by
  have hstart := h.start
  refine ⟨by split <;> omega, fun i hi => ?_, fun i hi => ?_⟩
  · obtain ⟨hstood, heq, -⟩ := marched_enemies hi
    obtain ⟨hx, hy⟩ := h.place i hstood
    rw [heq]
    unfold moved
    dsimp only
    refine ⟨by omega, ?_⟩
    split
    · omega
    · omega
  · obtain ⟨hstood, heq, hrow⟩ := marched_enemies hi
    obtain ⟨hx, -⟩ := h.place i hstood
    obtain ⟨hleft, hright, -⟩ := h.field i hstood
    rw [heq]
    have hmoved : (moved (heading g) (turns g) (g.enemies i)).x = (g.enemies i).x + heading g := rfl
    rw [hmoved]
    have hheading : 1 ≤ (g.enemies i).x + heading g ∧ (g.enemies i).x + heading g ≤ 78 := by
      unfold heading
      by_cases hmin : minX g ≤ 1
      · rw [if_pos hmin]
        obtain ⟨j, hj, hedge⟩ := min_x_le.mp hmin
        obtain ⟨hxj, -⟩ := h.place j hj
        omega
      · rw [if_neg hmin]
        have hnot : ¬ (g.enemies i).x ≤ 1 := fun hedge => hmin (min_x_le.mpr ⟨i, hstood, hedge⟩)
        by_cases hmax : 78 ≤ maxX g
        · rw [if_pos hmax]
          omega
        · rw [if_neg hmax]
          have hnot' : ¬ 78 ≤ (g.enemies i).x := fun hedge => hmax (le_max_x.mpr ⟨i, hstood, hedge⟩)
          omega
    exact ⟨hheading.1, hheading.2, hrow⟩

/-- Only one row of enemies can arrive at a time. -/
theorem arrivals_le (h : Placed right down g.enemies) : arrivals g ≤ 8 := by
  have hrow : ∀ r : Nat, r < 3 → (List.finRange 24).countP (fun i => decide (i.val / 8 = r)) = 8 := by decide
  by_cases hnone : ∃ i, Arrives (ready g) (turns g) i
  · obtain ⟨i, hi⟩ := hnone
    have hplace : ∀ j, Arrives (ready g) (turns g) j → 1 + 3 * (j.val / 8 : Nat) + down = 22 := by
      intro j hj
      have hstood := mem_standing.mpr hj.1
      have hy := (h.place j hstood).2
      have hfield := (h.field j hstood).2.2
      have harrive : 23 ≤ if turns g then (g.enemies j).y + 1 else (g.enemies j).y := hj.2
      split at harrive
      · have hy' : (g.enemies j).y = 1 + 3 * (j.val / 8 : Nat) + down := hy
        omega
      · have hfield' : (g.enemies j).y ≤ 22 := hfield
        omega
    rw [← hrow (i.val / 8) (by omega)]
    refine List.countP_mono_left (fun j _ hj => ?_)
    have hi' := hplace i hi
    have hj' := hplace j (of_decide_eq_true hj)
    exact decide_eq_true (by omega)
  · have hzero : arrivals g = 0 := List.countP_eq_zero.mpr (fun i _ hi => hnone ⟨i, of_decide_eq_true hi⟩)
    omega

theorem pace_le (level : UInt32) : (pace level).toNat ≤ 30 := by
  unfold pace
  dsimp only
  by_cases hlow : level < 5
  · have hcases : level = 0 ∨ level = 1 ∨ level = 2 ∨ level = 3 ∨ level = 4 := by
      rw [UInt32.lt_iff_toNat_lt] at hlow
      simp only [← UInt32.toNat_inj]
      have hfive : (5 : UInt32).toNat = 5 := rfl
      rw [hfive] at hlow
      change level.toNat = 0 ∨ level.toNat = 1 ∨ level.toNat = 2 ∨ level.toNat = 3 ∨ level.toNat = 4
      omega
    rcases hcases with rfl | rfl | rfl | rfl | rfl <;> decide
  · rw [if_neg hlow]
    decide

theorem Fair.waiting (h : Fair g) (hwait : g.enemyMoveTimer + 1 < g.enemyMoveInterval) :
    Fair { g with enemyMoveTimer := g.enemyMoveTimer + 1 } := by
  have htimer : g.enemyMoveTimer + 1 < 30 := by
    have hpace := pace_le g.level
    rw [← h.interval] at hpace
    exact UInt32.lt_of_lt_of_le hwait (UInt32.le_iff_toNat_le.mpr hpace)
  exact { h with timer := htimer }

theorem Fair.marched (h : Fair g) (hgoing : g.gameOver = false) : Fair (marched g) where
  wave := by
    obtain ⟨right, down, hplaced⟩ := h.wave
    exact ⟨_, _, placed_marched hplaced h.dir⟩
  alive := by
    have hcard := card_marched (g := g)
    have halive : (ShooterRules.marched g).enemiesAlive = g.enemiesAlive - arrivals g := rfl
    rw [halive, h.alive, ← hcard]
    push_cast
    omega
  hp := by
    intro i hi
    obtain ⟨hstood, heq, -⟩ := marched_enemies hi
    rw [heq]
    exact h.hp i hstood
  player := h.player
  lives := by
    obtain ⟨right, down, hplaced⟩ := h.wave
    have hfew := arrivals_le hplaced
    have hleft : ¬ g.playerLives ≤ 0 := fun hle => absurd (hgoing.symm.trans (h.ended.mpr hle)) (by decide)
    have hlives : (ShooterRules.marched g).playerLives = g.playerLives - arrivals g := rfl
    have hmost := h.lives.2
    rw [hlives]
    omega
  ended := by
    have hleft : ¬ g.playerLives ≤ 0 := fun hle => absurd (hgoing.symm.trans (h.ended.mpr hle)) (by decide)
    have hover : (ShooterRules.marched g).gameOver =
        (g.gameOver || decide (0 < arrivals g ∧ g.playerLives - arrivals g ≤ 0)) := rfl
    have hlives : (ShooterRules.marched g).playerLives = g.playerLives - arrivals g := rfl
    rw [hover, hlives, hgoing, Bool.false_or, decide_eq_true_iff]
    omega
  stars := h.stars
  dir := by
    have hdir : (ShooterRules.marched g).dir = heading g := rfl
    rw [hdir]
    unfold heading
    split
    · exact Or.inl rfl
    · split
      · exact Or.inr rfl
      · exact h.dir
  interval := h.interval
  timer := by
    have hzero : (ShooterRules.marched g).enemyMoveTimer = 0 := rfl
    rw [hzero]
    decide

theorem update_enemies_fair (h : Fair g) (hgoing : g.gameOver = false) (fb : Framebuffer) :
    Fair (updateEnemies g fb).1 := by
  rcases update_enemies_cases g fb with ⟨hwait, heq⟩ | ⟨-, heq⟩
  · rw [heq]
    exact h.waiting hwait
  · rw [heq]
    exact h.marched hgoing

theorem update_enemies_bullets (g : Game) (fb : Framebuffer) : (updateEnemies g fb).1.bullets = g.bullets := by
  rcases update_enemies_cases g fb with ⟨-, heq⟩ | ⟨-, heq⟩
  · rw [heq]
  · rw [heq]
    rfl

theorem steer_left_fair (h : Fair g) (c : UInt8) : Fair (steerLeft g c) := by
  unfold steerLeft
  have hplayer := h.player
  split_ifs with hkey hroom
  · exact { h with player := ⟨by dsimp only; omega, by dsimp only; omega⟩ }
  · exact h
  · exact h

theorem steer_right_fair (h : Fair g) (c : UInt8) : Fair (steerRight g c) := by
  unfold steerRight
  have hplayer := h.player
  split_ifs with hkey hroom
  · have hedge : g.playerX < 77 := hroom
    exact { h with player := ⟨by dsimp only; omega, by dsimp only; omega⟩ }
  · exact h
  · exact h

theorem steer_left_bullets (g : Game) (c : UInt8) : (steerLeft g c).bullets = g.bullets := by
  unfold steerLeft
  split_ifs <;> rfl

theorem steer_right_bullets (g : Game) (c : UInt8) : (steerRight g c).bullets = g.bullets := by
  unfold steerRight
  split_ifs <;> rfl

theorem Aimed.lower (h : Aimed 21 g) : Aimed 22 g := by
  intro k hk
  obtain ⟨hleft, hright, htop, hlow⟩ := h k hk
  exact ⟨hleft, hright, htop, by omega⟩

theorem trigger_fair (h : Fair g) (ha : Aimed 21 g) (held : Bool) (c : UInt8) :
    Fair (trigger g held c).1 ∧ Aimed 22 (trigger g held c).1 := by
  unfold trigger
  split
  · split
    · exact ⟨h, ha.lower⟩
    · unfold fireBullet
      dsimp only
      split
      · rename_i k hk
        refine ⟨{ h with }, fun k' hk' => ?_⟩
        dsimp only at hk' ⊢
        by_cases hkk : k' = k
        · have hrow : 1 ≤ playerRow - 1 ∧ playerRow - 1 ≤ 22 := by decide
          rw [hkk, Function.update_self]
          exact ⟨h.player.1, h.player.2, hrow⟩
        · rw [Function.update_of_ne hkk] at hk' ⊢
          exact ha.lower k' hk'
      · exact ⟨h, ha.lower⟩
  · exact ⟨h, ha.lower⟩

/-- What holds between two frames of the loop. -/
structure Sound (p : Play) : Prop where
  fair : Fair p.game
  aimed : Aimed 21 p.game
  pause : 0 < p.levelClearTimer → standing p.game.enemies = ∅ ∧ p.game.gameOver = false ∧ p.levelClearTimer ≤ 60
  playing : p.levelClearTimer = 0 → p.game.gameOver = false → (standing p.game.enemies).Nonempty

variable {p q : Play} {c : UInt8}

theorem standing_new (level : UInt32) :
    standing (fun i : Fin 24 => newEnemy level (i.val / 8) (i.val % 8)) = Finset.univ := by
  ext i
  rw [mem_standing]
  exact iff_of_true rfl (Finset.mem_univ i)

theorem placed_new (level : UInt32) : Placed 0 0 (fun i : Fin 24 => newEnemy level (i.val / 8) (i.val % 8)) := by
  refine ⟨le_refl 0, fun i _ => ?_, fun i _ => ?_⟩
  · unfold newEnemy fieldTop
    dsimp only
    omega
  · unfold newEnemy fieldTop
    dsimp only
    omega

/-- The rules hold at the start of a wave. -/
theorem spawn_fair (hplayer : 2 ≤ g.playerX ∧ g.playerX ≤ 77) (hlives : 1 ≤ g.playerLives ∧ g.playerLives ≤ 3)
    (hover : g.gameOver = false)
    (hstars : ∀ i, 0 ≤ (g.stars i).x ∧ (g.stars i).x < 80 ∧ 1 ≤ (g.stars i).y ∧ (g.stars i).y ≤ 21)
    (hdir : g.dir = 1 ∨ g.dir = -1) (htimer : g.enemyMoveTimer < 30) : Fair (spawnWave g) := by
  rw [spawn_wave_eq]
  refine { wave := ⟨0, 0, placed_new g.level⟩, alive := ?_, hp := fun i _ => ?_, player := hplayer,
           lives := ⟨by dsimp only; omega, hlives.2⟩, ended := ?_, stars := hstars, dir := hdir, interval := rfl,
           timer := htimer }
  · rw [standing_new]
    rfl
  · unfold newEnemy
    dsimp only
    omega
  · dsimp only
    rw [hover]
    exact iff_of_false (by decide) (by omega)

theorem init_stars_eq (l : List (Fin 20)) (g : Game) : ∃ stars state,
    l.foldl initStar g = { g with stars := stars, rngState := state } ∧
    ∀ i ∈ l, 0 ≤ (stars i).x ∧ (stars i).x < 80 ∧ 1 ≤ (stars i).y ∧ (stars i).y ≤ 21 := by
  induction l using List.reverseRecOn with
  | nil => exact ⟨g.stars, g.rngState, rfl, fun i hi => absurd hi List.not_mem_nil⟩
  | append_singleton l i ih =>
    obtain ⟨stars, state, heq, hall⟩ := ih
    rw [List.foldl_append, heq, List.foldl_cons, List.foldl_nil]
    refine ⟨_, _, rfl, fun j hj => ?_⟩
    by_cases hji : j = i
    · rw [hji, Function.update_self]
      dsimp only
      have hcol : (rng state % 80).toNat < 80 := by
        rw [UInt32.toNat_mod]
        exact Nat.mod_lt _ (by decide)
      have hbot : fieldBot = 22 := rfl
      have htop : fieldTop = 1 := rfl
      rw [hbot, htop]
      omega
    · rw [Function.update_of_ne hji]
      refine hall j ?_
      simpa [hji] using hj

theorem start_sound (hdir : g.dir = 1 ∨ g.dir = -1) (fb : Framebuffer) (timerTicks : UInt32) :
    Sound (startPlay g fb timerTicks) := by
  have hgame : Fair (initGame g timerTicks) ∧ Aimed 21 (initGame g timerTicks) ∧
      (standing (initGame g timerTicks).enemies).Nonempty := by
    unfold initGame initStars
    obtain ⟨stars, state, heq, hall⟩ := init_stars_eq (List.finRange 20)
      { g with
        playerX := vgaWidth / 2, playerLives := 3, score := 0, level := 1, gameOver := false, enemyMoveTimer := 0,
        rngState := timerTicks + 1, bullets := noBullets, enemies := noEnemies }
    have hmid : (2 : Int) ≤ vgaWidth / 2 ∧ (vgaWidth / 2 : Int) ≤ 77 := by decide
    have hlives : (1 : Int) ≤ 3 ∧ (3 : Int) ≤ 3 := by decide
    have htimer : (0 : UInt32) < 30 := by decide
    rw [heq]
    refine ⟨spawn_fair hmid hlives rfl (fun i => hall i (List.mem_finRange i)) hdir htimer, ?_, ?_⟩
    · rw [spawn_wave_eq]
      exact fun k hk => by cases hk
    · rw [spawn_wave_eq, standing_new]
      exact Finset.univ_nonempty
  exact ⟨hgame.1, hgame.2.1, fun hpos => absurd hpos (Nat.lt_irrefl 0), fun _ _ => hgame.2.2⟩

/-- The keys change only where the player and the bullets are. -/
theorem aim_eq (g : Game) (held : Bool) (c : UInt8) : ∃ x bullets,
    (trigger (steerRight (steerLeft g c) c) held c).1 = { g with playerX := x, bullets := bullets } := by
  have hsteer : ∃ x, steerRight (steerLeft g c) c = { g with playerX := x } := by
    unfold steerRight steerLeft
    split_ifs
    all_goals exact ⟨_, rfl⟩
  obtain ⟨x, hx⟩ := hsteer
  rw [hx]
  unfold trigger fireBullet
  split
  · split
    · exact ⟨x, g.bullets, rfl⟩
    · split
      · exact ⟨x, _, rfl⟩
      · exact ⟨x, g.bullets, rfl⟩
  · exact ⟨x, g.bullets, rfl⟩

/-- The game of a frame, and the pause that it may start. -/
theorem play_frame_game (p : Play) (c : UInt8) : ∃ fb g,
    g = (updateEnemies (updateBullets (trigger (steerRight (steerLeft p.game c) c) p.spaceHeld c).1) fb).1 ∧
    (playFrame p c).game = g ∧
    (playFrame p c).levelClearTimer = if g.enemiesAlive ≤ 0 ∧ g.gameOver = false then 60 else p.levelClearTimer := by
  refine ⟨eraseEnemies p.game (eraseBullets p.game (erasePlayer p.game p.fb)), _, rfl, ?_⟩
  unfold playFrame
  dsimp only
  split
  · exact ⟨rfl, rfl⟩
  · exact ⟨rfl, rfl⟩

theorem alive_le (h : Fair g) : g.enemiesAlive ≤ 0 ↔ standing g.enemies = ∅ := by
  rw [h.alive, ← Finset.card_eq_zero]
  omega

theorem play_frame_sound (h : Sound p) (htimer : p.levelClearTimer = 0) (hgoing : p.game.gameOver = false) :
    Sound (playFrame p c) := by
  obtain ⟨fb, g, hg, hgame, hpause⟩ := play_frame_game p c
  have hsteer : Aimed 21 (steerRight (steerLeft p.game c) c) := by
    unfold Aimed
    rw [steer_right_bullets, steer_left_bullets]
    exact h.aimed
  obtain ⟨hfair, haimed⟩ := trigger_fair (steer_right_fair (steer_left_fair h.fair c) c) hsteer p.spaceHeld c
  obtain ⟨x, bullets, haim⟩ := aim_eq p.game p.spaceHeld c
  obtain ⟨n, hthin⟩ := update_bullets_thinned (trigger (steerRight (steerLeft p.game c) c) p.spaceHeld c).1
  have hstill := hthin.gameOver
  rw [haim] at hstill
  have hnext : Fair g := by
    rw [hg]
    exact update_enemies_fair (hfair.thinned hthin) (by rw [haim, hstill]; exact hgoing) fb
  have hbullets : Aimed 21 g := by
    unfold Aimed
    rw [hg, update_enemies_bullets]
    exact update_bullets_aimed haimed
  refine ⟨by rw [hgame]; exact hnext, by rw [hgame]; exact hbullets, fun hpos => ?_, fun hzero hon => ?_⟩
  · rw [hpause] at hpos ⊢
    rw [hgame]
    split at hpos
    · rename_i hdone
      rw [if_pos hdone]
      exact ⟨(alive_le hnext).mp hdone.1, hdone.2, le_refl 60⟩
    · exact absurd htimer (Nat.ne_of_gt hpos)
  · rw [hgame] at hon ⊢
    rw [hpause] at hzero
    by_contra hnone
    rw [if_pos ⟨(alive_le hnext).mpr (Finset.not_nonempty_iff_eq_empty.mp hnone), hon⟩] at hzero
    cases hzero

theorem pause_frame_sound (h : Sound p) (htimer : 0 < p.levelClearTimer) : Sound (pauseFrame p) := by
  obtain ⟨hnone, hgoing, hmost⟩ := h.pause htimer
  unfold pauseFrame
  dsimp only
  split
  · rename_i hlast
    have hlives : 1 ≤ p.game.playerLives ∧ p.game.playerLives ≤ 3 := by
      have hleft : ¬ p.game.playerLives ≤ 0 := fun hle => absurd (hgoing.symm.trans (h.fair.ended.mpr hle)) (by decide)
      exact ⟨by omega, h.fair.lives.2⟩
    refine ⟨?_, ?_, fun hpos => absurd hlast (Nat.ne_of_gt hpos), fun _ _ => ?_⟩
    · exact spawn_fair h.fair.player hlives hgoing h.fair.stars h.fair.dir h.fair.timer
    · dsimp only
      rw [spawn_wave_eq]
      exact fun k hk => by cases hk
    · dsimp only
      rw [spawn_wave_eq, standing_new]
      exact Finset.univ_nonempty
  · rename_i hlast
    refine ⟨h.fair, h.aimed, fun _ => ⟨hnone, hgoing, by dsimp only; omega⟩, fun hzero => absurd hzero hlast⟩

theorem frame_sound (h : Sound p) (hq : frame p c = some q) : Sound q := by
  unfold frame at hq
  by_cases htimer : 0 < p.levelClearTimer
  · rw [if_pos htimer] at hq
    rw [← Option.some.inj hq]
    exact pause_frame_sound h htimer
  · have hzero : p.levelClearTimer = 0 := Nat.eq_zero_of_not_pos htimer
    rw [if_neg htimer] at hq
    split at hq
    · cases hq
    · split at hq
      · rw [← Option.some.inj hq]
        exact ⟨h.fair, h.aimed, h.pause, h.playing⟩
      · rw [← Option.some.inj hq]
        exact play_frame_sound h hzero (Bool.eq_false_of_not_eq_true ‹_›)

/-- Between two frames every enemy left is in its place of the wave and inside the field, and so
is every bullet; the counters agree with the tables. -/
theorem reached_sound (h : Reached p) : Sound p := by
  induction h with
  | first fb timerTicks => exact start_sound (Or.inl rfl) fb timerTicks
  | again fb timerTicks _ _ ih => exact start_sound ih.fair.dir fb timerTicks
  | next _ hnext ih => exact frame_sound ih hnext

theorem Reached.run {keys : List UInt8} (h : Reached p) (hrun : keys.foldlM frame p = some q) : Reached q := by
  induction keys generalizing p with
  | nil =>
    obtain rfl := Option.some.inj hrun
    exact h
  | cons c keys ih =>
    rw [List.foldlM_cons] at hrun
    obtain ⟨next, hnext, hrun⟩ := Option.bind_eq_some_iff.mp hrun
    exact ih (.next h hnext) hrun

/-- In the first game a shot from the start hits an enemy. -/
theorem first_shot_hits : ∃ q, (32 :: List.replicate 14 0).foldlM frame (startPlay boot (fun _ => 0) 41) = some q ∧
    q.game.score = 10 ∧ q.game.enemiesAlive = 23 := by
  have hgoes : ((32 :: List.replicate 14 0).foldlM frame (startPlay boot (fun _ => 0) 41)).map
      (fun q => (q.game.score, q.game.enemiesAlive)) = some (10, 23) := by decide +kernel
  obtain ⟨q, hq, hcounts⟩ := Option.map_eq_some_iff.mp hgoes
  exact ⟨q, hq, Prod.mk.inj hcounts⟩

theorem reached_sound_shot : ∃ q, (32 :: List.replicate 14 0).foldlM frame (startPlay boot (fun _ => 0) 41) = some q ∧
    q.game.enemiesAlive = 23 ∧ Sound q := by
  obtain ⟨q, hq, -, halive⟩ := first_shot_hits
  exact ⟨q, hq, halive, reached_sound (Reached.run (.first _ _) hq)⟩

end BaSic.Proofs.ShooterRules
