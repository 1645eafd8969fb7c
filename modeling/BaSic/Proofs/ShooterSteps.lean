import BaSic.Kernel.Shooter

namespace BaSic.Proofs.ShooterSteps
open Kernel Kernel.Shooter

/-- The enemies left -/
def standing (enemies : Fin 24 → Enemy) : Finset (Fin 24) := Finset.univ.filter (fun i => (enemies i).active = true)

/-- The bullet in its next frame, if it is still on its way. -/
def Flies (b b' : Bullet) : Prop := b'.active = true → b.active = true ∧ b'.x = b.x ∧ b'.y = b.y - 1 ∧ fieldTop ≤ b'.y

variable {g : Game} {i : Fin 24} {k : Fin 8}

theorem mem_standing {enemies : Fin 24 → Enemy} : i ∈ standing enemies ↔ (enemies i).active = true := by
  unfold standing
  rw [Finset.mem_filter]
  exact and_iff_right (Finset.mem_univ i)

/-- A turn of `update_bullets` moves a bullet and does no more, wounds an enemy, or kills one. -/
theorem update_bullet_cases (g : Game) (k : Fin 8) :
    (∃ b, Flies (g.bullets k) b ∧ updateBullet g k = { g with bullets := Function.update g.bullets k b }) ∨
    (∃ b j, b.active = false ∧ j ∈ standing g.enemies ∧ 1 < (g.enemies j).hp ∧ updateBullet g k =
      { g with
        bullets := Function.update g.bullets k b
        enemies := Function.update g.enemies j { g.enemies j with hp := (g.enemies j).hp - 1 } }) ∨
    ∃ b e j, b.active = false ∧ e.active = false ∧ j ∈ standing g.enemies ∧ updateBullet g k =
      { g with
        bullets := Function.update g.bullets k b
        enemies := Function.update g.enemies j e
        enemiesAlive := g.enemiesAlive - 1
        score := g.score + 10 * g.level } := by
  unfold updateBullet
  by_cases hactive : (g.bullets k).active = true
  · rw [if_pos hactive]
    dsimp only
    split
    · refine Or.inl ⟨{ g.bullets k with y := (g.bullets k).y - 1, active := false }, fun h => ?_, rfl⟩
      cases h
    · rename_i hin
      split
      · rename_i j hj
        have hstanding : j ∈ standing g.enemies := by
          have hhit := (Fin.find?_eq_some_iff.mp hj).1
          rw [Bool.and_eq_true, Bool.and_eq_true] at hhit
          exact mem_standing.mpr hhit.1.1
        unfold hit
        dsimp only
        rw [Function.update_self, Function.update_idem]
        split
        · exact Or.inr (Or.inr ⟨_, _, j, rfl, rfl, hstanding, rfl⟩)
        · exact Or.inr (Or.inl ⟨_, j, rfl, hstanding, by omega, rfl⟩)
      · exact Or.inl ⟨{ g.bullets k with y := (g.bullets k).y - 1 }, fun _ => ⟨hactive, rfl, rfl, not_lt.mp hin⟩, rfl⟩
  · rw [if_neg hactive]
    exact Or.inl ⟨g.bullets k, fun h => absurd h hactive, by rw [Function.update_eq_self]⟩

/-- The enemy comes to the row of the player. -/
def Arrives (g : Game) (down : Bool) (i : Fin 24) : Prop :=
  (g.enemies i).active = true ∧ playerRow ≤ (moved g.dir down (g.enemies i)).y

instance (g : Game) (down : Bool) (i : Fin 24) : Decidable (Arrives g down i) :=
  inferInstanceAs (Decidable (_ ∧ _))

/-- The enemy after the step. -/
def settled (g : Game) (down : Bool) (i : Fin 24) : Enemy :=
  if (g.enemies i).active then
    let e := moved g.dir down (g.enemies i)
    if playerRow ≤ e.y then { e with active := false } else e
  else g.enemies i

theorem settled_active {down : Bool} (h : (settled g down i).active = true) :
    (g.enemies i).active = true ∧ ¬ playerRow ≤ (moved g.dir down (g.enemies i)).y ∧
      settled g down i = moved g.dir down (g.enemies i) := by
  unfold settled at h ⊢
  by_cases hactive : (g.enemies i).active = true
  · rw [if_pos hactive] at h ⊢
    dsimp only at h ⊢
    split at h
    · cases h
    · rename_i hrow
      exact ⟨hactive, hrow, if_neg hrow⟩
  · rw [if_neg hactive] at h
    exact absurd h hactive

theorem settled_stays {down : Bool} (hactive : (g.enemies i).active = true) (h : ¬ Arrives g down i) :
    settled g down i = moved g.dir down (g.enemies i) := by
  unfold settled
  rw [if_pos hactive]
  exact if_neg (fun hrow => h ⟨hactive, hrow⟩)

theorem settled_arrives {down : Bool} (h : Arrives g down i) :
    settled g down i = { moved g.dir down (g.enemies i) with active := false } := by
  unfold settled
  rw [if_pos h.1]
  exact if_pos h.2

/-- The step of the enemies in the list, of which `n` arrive. -/
def stepped (g : Game) (down : Bool) (l : List (Fin 24)) (n : Nat) : Game :=
  { g with
    enemies := fun i => if i ∈ l then settled g down i else g.enemies i
    playerLives := g.playerLives - n
    enemiesAlive := g.enemiesAlive - n
    gameOver := g.gameOver || decide (0 < n ∧ g.playerLives - n ≤ 0) }

/-- One more enemy has its turn. -/
theorem stepped_enemies (down : Bool) (l : List (Fin 24)) (i : Fin 24) (n : Nat) :
    Function.update (stepped g down l n).enemies i (settled g down i) =
      fun j => if j ∈ l ++ [i] then settled g down j else g.enemies j := by
  funext j
  by_cases hj : j = i
  · rw [hj, Function.update_self, if_pos (by simp)]
  · rw [Function.update_of_ne hj]
    have hmem : j ∈ l ++ [i] ↔ j ∈ l := by simp [hj]
    simp only [stepped, hmem]

/-- The game is over from the arrival on that takes the last life. -/
theorem last_life (lives : Int) (ended : Bool) (n : Nat) :
    (if lives - n - 1 ≤ 0 then true else ended || decide (0 < n ∧ lives - n ≤ 0)) =
      (ended || decide (0 < n + 1 ∧ lives - (n + 1 : Nat) ≤ 0)) := by
  have hcast : lives - (n + 1 : Nat) = lives - n - 1 := by omega
  rw [hcast]
  split
  · rename_i hlast
    rw [decide_eq_true ⟨Nat.succ_pos n, hlast⟩, Bool.or_true]
  · rename_i hleft
    have hbefore : ¬ (0 < n ∧ lives - n ≤ 0) := fun h => hleft (by omega)
    rw [decide_eq_false hbefore, decide_eq_false (fun h => hleft h.2)]

theorem move_enemy_stepped {down : Bool} {l : List (Fin 24)} (hi : i ∉ l) (n : Nat) :
    moveEnemy down (stepped g down l n) i = stepped g down (l ++ [i]) (n + if Arrives g down i then 1 else 0) := by
  have hsame : (stepped g down l n).enemies i = g.enemies i := if_neg hi
  have hdir : (stepped g down l n).dir = g.dir := rfl
  have henemies := stepped_enemies (g := g) down l i n
  unfold moveEnemy
  rw [hsame, hdir]
  by_cases hactive : (g.enemies i).active = true
  · rw [if_pos hactive]
    dsimp only
    by_cases harrives : Arrives g down i
    · have hlives : g.playerLives - n - 1 = g.playerLives - (n + 1 : Nat) := by omega
      have halive : g.enemiesAlive - n - 1 = g.enemiesAlive - (n + 1 : Nat) := by omega
      have hover := last_life g.playerLives g.gameOver n
      rw [settled_arrives harrives] at henemies
      rw [if_pos harrives.2, if_pos harrives, henemies]
      unfold stepped
      dsimp only
      rw [hover, hlives, halive]
    · rw [settled_stays hactive harrives] at henemies
      rw [if_neg (fun hrow => harrives ⟨hactive, hrow⟩), if_neg harrives, henemies]
      rfl
  · have hidle : settled g down i = g.enemies i := if_neg hactive
    rw [hidle, ← hsame, Function.update_eq_self] at henemies
    rw [if_neg hactive, if_neg (fun h => hactive h.1)]
    unfold stepped at henemies ⊢
    dsimp only at henemies
    rw [henemies]
    rfl

/-- The loop of `update_enemies` over enemies of which none comes twice. -/
theorem move_enemies_eq (g : Game) (down : Bool) {l : List (Fin 24)} (hl : l.Nodup) :
    l.foldl (moveEnemy down) g = stepped g down l (l.countP (fun i => decide (Arrives g down i))) := by
  induction l using List.reverseRecOn with
  | nil => simp [stepped]
  | append_singleton l i ih =>
    obtain ⟨hnodup, -, hi⟩ := List.nodup_append.mp hl
    have hnot : i ∉ l := fun h => hi i h i (List.mem_singleton_self i) rfl
    rw [List.foldl_append, ih hnodup, List.foldl_cons, List.foldl_nil, move_enemy_stepped hnot, List.countP_append,
      List.countP_singleton]
    simp

/-- The first `n` enemies of the wave have been set up. -/
def Spawned (level : UInt32) (n : Nat) (s : Nat × (Fin 24 → Enemy)) : Prop :=
  s.1 = n ∧ ∀ i : Fin 24, i.val < n → s.2 i = newEnemy level (i.val / 8) (i.val % 8)

theorem spawn_enemy_spawned {level : UInt32} {r c : Nat} {s : Nat × (Fin 24 → Enemy)} (h : Spawned level (8 * r + c) s)
    (hr : r < 3) (hc : c < 8) : Spawned level (8 * r + (c + 1)) (spawnEnemy level r s c) := by
  have hlt : s.1 < 24 := by
    rw [h.1]
    omega
  unfold spawnEnemy
  rw [dif_pos hlt]
  refine ⟨congrArg (· + 1) h.1, fun i hi => ?_⟩
  dsimp only
  by_cases heq : i = ⟨s.1, hlt⟩
  · have hrow : (s.1 : Nat) / 8 = r ∧ s.1 % 8 = c := by
      rw [h.1]
      omega
    rw [heq, Function.update_self, hrow.1, hrow.2]
  · have hne : i.val ≠ s.1 := fun he => heq (Fin.ext he)
    rw [Function.update_of_ne heq]
    refine h.2 i ?_
    rw [h.1] at hne
    omega

theorem spawn_row_spawned {level : UInt32} {r c : Nat} {s : Nat × (Fin 24 → Enemy)} (h : Spawned level (8 * r) s)
    (hr : r < 3) (hc : c ≤ 8) : Spawned level (8 * r + c) ((List.range c).foldl (spawnEnemy level r) s) := by
  induction c with
  | zero => exact h
  | succ c ih =>
    rw [List.range_succ, List.foldl_append, List.foldl_cons, List.foldl_nil]
    exact spawn_enemy_spawned (ih (Nat.le_of_succ_le hc)) hr hc

theorem spawn_rows_spawned (level : UInt32) (enemies : Fin 24 → Enemy) {r : Nat} (hr : r ≤ 3) :
    Spawned level (8 * r)
      ((List.range r).foldl (fun s r => (List.range 8).foldl (spawnEnemy level r) s) (0, enemies)) := by
  induction r with
  | zero => exact ⟨rfl, fun i hi => absurd hi (Nat.not_lt_zero _)⟩
  | succ r ih =>
    rw [List.range_succ (n := r), List.foldl_append, List.foldl_cons, List.foldl_nil]
    exact spawn_row_spawned (ih (Nat.le_of_succ_le hr)) hr (Nat.le_refl 8)

/-- The frames between two steps of the enemies -/
def pace (level : UInt32) : UInt32 :=
  let interval := if level < 5 then 30 - level * 4 else 10
  if interval < 6 then 6 else interval

/-- A new wave has all its enemies, in three rows of eight. -/
theorem spawn_wave_eq (g : Game) : spawnWave g =
    { g with
      enemies := fun i => newEnemy g.level (i.val / 8) (i.val % 8)
      enemiesAlive := 24
      enemyMoveInterval := pace g.level } := by
  have hspawned := spawn_rows_spawned g.level g.enemies (Nat.le_refl 3)
  unfold spawnWave pace
  dsimp only
  generalize (List.range 3).foldl (fun s r => (List.range 8).foldl (spawnEnemy g.level r) s) (0, g.enemies) = s
    at hspawned
  obtain ⟨hidx, henemies⟩ := hspawned
  have htable : (fun i : Fin 24 => if s.1 ≤ i.val then { s.2 i with active := false } else s.2 i) =
      fun i : Fin 24 => newEnemy g.level (i.val / 8) (i.val % 8) := by
    funext i
    rw [if_neg (by omega), henemies i i.isLt]
  rw [htable, hidx]
  rfl

theorem spawn_wave_over (g : Game) : (spawnWave g).gameOver = g.gameOver := by
  unfold spawnWave
  rfl

theorem init_stars_over (l : List (Fin 20)) (g : Game) : (l.foldl initStar g).gameOver = g.gameOver := by
  induction l generalizing g with
  | nil => rfl
  | cons i l ih => exact ih (initStar g i)

theorem init_game_over (g : Game) (timerTicks : UInt32) : (initGame g timerTicks).gameOver = false := by
  rw [initGame, spawn_wave_over, initStars, init_stars_over]

theorem foldl_min_le (l : List (Fin 24)) (m b : Int) :
    (l.foldl (fun m i => if (g.enemies i).active then if (g.enemies i).x < m then (g.enemies i).x else m else m) m ≤ b) ↔
      m ≤ b ∨ ∃ i ∈ l, i ∈ standing g.enemies ∧ (g.enemies i).x ≤ b := by
  induction l generalizing m with
  | nil => simp
  | cons i l ih =>
    rw [List.foldl_cons, ih, List.exists_mem_cons_iff, mem_standing, ← or_assoc]
    refine or_congr_left ?_
    split
    · rename_i hactive
      rw [and_iff_right hactive]
      split
      · omega
      · omega
    · rename_i hidle
      rw [or_iff_left (fun h => hidle h.1)]

theorem le_foldl_max (l : List (Fin 24)) (m b : Int) :
    (b ≤ l.foldl (fun m i => if (g.enemies i).active then if m < (g.enemies i).x then (g.enemies i).x else m else m) m) ↔
      b ≤ m ∨ ∃ i ∈ l, i ∈ standing g.enemies ∧ b ≤ (g.enemies i).x := by
  induction l generalizing m with
  | nil => simp
  | cons i l ih =>
    rw [List.foldl_cons, ih, List.exists_mem_cons_iff, mem_standing, ← or_assoc]
    refine or_congr_left ?_
    split
    · rename_i hactive
      rw [and_iff_right hactive]
      split
      · omega
      · omega
    · rename_i hidle
      rw [or_iff_left (fun h => hidle h.1)]

/-- Some enemy is at the left edge. -/
theorem min_x_le : minX g ≤ 1 ↔ ∃ i ∈ standing g.enemies, (g.enemies i).x ≤ 1 := by
  unfold minX
  rw [foldl_min_le, or_iff_right (by decide)]
  simp only [List.mem_finRange, true_and]

/-- Some enemy is at the right edge. -/
theorem le_max_x : 78 ≤ maxX g ↔ ∃ i ∈ standing g.enemies, 78 ≤ (g.enemies i).x := by
  unfold maxX
  rw [le_foldl_max, or_iff_right (by decide)]
  simp only [List.mem_finRange, true_and]

end BaSic.Proofs.ShooterSteps
