import BaSic.Proofs.ShooterRules

namespace BaSic.Proofs.ShooterWaves
open Kernel Kernel.Shooter ShooterSteps ShooterRules

/-- Of the enemies of the waves so far, those that are not left have been shot, each for ten points
times its level, or have come through, each for a life. The levels of the latter are in `lost`. -/
structure Accounts (waves : Nat) (lost : List Nat) (g : Game) : Prop where
  level : g.level = UInt32.ofNat waves
  lives : g.playerLives = 3 - lost.length
  levels : ∀ l ∈ lost, 1 ≤ l ∧ l ≤ waves
  score : g.score.toNat + 10 * lost.sum ≡
    10 * (24 * ∑ l ∈ Finset.range waves, l + waves * (24 - (standing g.enemies).card)) [MOD 2 ^ 32]
  started : 1 ≤ waves

variable {g g' : Game} {waves n : Nat} {lost : List Nat} {p q : Play} {c : UInt8}

theorem card_standing_le (t : Fin 24 → Enemy) : (standing t).card ≤ 24 := by
  have hall := Finset.card_le_univ (standing t)
  rwa [Fintype.card_fin] at hall

/-- Points are added up modulo the size of the counter. -/
theorem add_points (score : UInt32) (waves n : Nat) :
    (score + 10 * UInt32.ofNat waves * UInt32.ofNat n).toNat ≡ score.toNat + 10 * (waves * n) [MOD 2 ^ 32] := by
  have hpoints : 10 * UInt32.ofNat waves * UInt32.ofNat n = UInt32.ofNat (10 * (waves * n)) := by
    rw [UInt32.ofNat_mul, UInt32.ofNat_mul, UInt32.mul_assoc]
    rfl
  rw [hpoints, UInt32.toNat_add, UInt32.toNat_ofNat']
  exact (Nat.mod_modEq _ _).trans ((Nat.mod_modEq _ _).add_left _)

theorem Accounts.thinned (h : Accounts waves lost g) (ht : Thinned n g g') : Accounts waves lost g' where
  level := ht.level.trans h.level
  lives := ht.playerLives.trans h.lives
  levels := h.levels
  score := by
    have hcard : 24 - (standing g'.enemies).card = 24 - (standing g.enemies).card + n := by
      have hleft := ht.left
      have hmost := card_standing_le g.enemies
      omega
    have hpoints := add_points g.score waves n
    rw [ht.score, hcard, h.level]
    calc (g.score + 10 * UInt32.ofNat waves * UInt32.ofNat n).toNat + 10 * lost.sum
        ≡ g.score.toNat + 10 * (waves * n) + 10 * lost.sum [MOD 2 ^ 32] := hpoints.add_right _
      _ = g.score.toNat + 10 * lost.sum + 10 * (waves * n) := by ring
      _ ≡ 10 * (24 * ∑ l ∈ Finset.range waves, l + waves * (24 - (standing g.enemies).card)) + 10 * (waves * n)
          [MOD 2 ^ 32] := h.score.add_right _
      _ = 10 * (24 * ∑ l ∈ Finset.range waves, l + waves * (24 - (standing g.enemies).card + n)) := by ring
  started := h.started

theorem Accounts.marched (h : Accounts waves lost g) :
    Accounts waves (List.replicate (arrivals g) waves ++ lost) (ShooterRules.marched g) where
  level := h.level
  lives := by
    have hlives : (ShooterRules.marched g).playerLives = g.playerLives - arrivals g := rfl
    rw [hlives, h.lives, List.length_append, List.length_replicate]
    push_cast
    omega
  levels := by
    intro l hl
    rcases List.mem_append.mp hl with hnew | hold
    · rw [List.eq_of_mem_replicate hnew]
      exact ⟨h.started, le_refl waves⟩
    · exact h.levels l hold
  score := by
    have hcard : 24 - (standing (ShooterRules.marched g).enemies).card =
        24 - (standing g.enemies).card + arrivals g := by
      have hleft := card_marched (g := g)
      have hmost := card_standing_le g.enemies
      omega
    have hscore : (ShooterRules.marched g).score = g.score := rfl
    rw [hscore, hcard, List.sum_append, List.sum_replicate, smul_eq_mul]
    calc g.score.toNat + 10 * (arrivals g * waves + lost.sum)
        = g.score.toNat + 10 * lost.sum + 10 * (waves * arrivals g) := by ring
      _ ≡ 10 * (24 * ∑ l ∈ Finset.range waves, l + waves * (24 - (standing g.enemies).card)) +
          10 * (waves * arrivals g) [MOD 2 ^ 32] := h.score.add_right _
      _ = 10 * (24 * ∑ l ∈ Finset.range waves, l + waves * (24 - (standing g.enemies).card + arrivals g)) := by ring
  started := h.started

/-- A bound on the steps that the enemies have left, however many of them are shot: some of a wave
that has gone `right` stay in the field only as far as the leftmost or rightmost column can go. -/
def stepsLeft (dir right down : Int) : Int :=
  (22 - down) * 141 + if dir = 1 then 74 - right else right + 66

theorem steps_left_bounds {right down : Int} {t : Fin 24 → Enemy} (h : Placed right down t) (hsome : (standing t).Nonempty)
    (dir : Int) :
    0 ≤ stepsLeft dir right down ∧ stepsLeft dir right down ≤ 3242 ∧ stepsLeft dir right down ≤ (22 - down) * 141 + 140 := by
  obtain ⟨i, hi⟩ := hsome
  obtain ⟨hx, hy⟩ := h.place i hi
  obtain ⟨hleft, hright, hlow⟩ := h.field i hi
  have hstart := h.start
  unfold stepsLeft
  split
  · omega
  · omega

theorem steps_left_marched {right down : Int} (h : Placed right down g.enemies) (hdir : g.dir = 1 ∨ g.dir = -1)
    (hsome : (standing (marched g).enemies).Nonempty) :
    stepsLeft (marched g).dir (right + heading g) (down + if turns g then 1 else 0) + 1 ≤ stepsLeft g.dir right down := by
  have hnext := placed_marched h hdir
  have hheading : (marched g).dir = heading g := rfl
  have hsome' : (standing g.enemies).Nonempty := hsome.imp (fun i hi => (marched_enemies hi).1)
  obtain ⟨-, -, hmost⟩ := steps_left_bounds hnext hsome (heading g)
  obtain ⟨i, hi⟩ := hsome'
  obtain ⟨hx, -⟩ := h.place i hi
  obtain ⟨hleft, hright, -⟩ := h.field i hi
  rw [hheading]
  by_cases hturn : turns g = true
  · rw [if_pos hturn] at hmost ⊢
    refine (Int.add_le_add_right hmost 1).trans ?_
    unfold stepsLeft
    split
    · omega
    · omega
  · have hon : heading g = g.dir := by
      unfold turns at hturn
      rw [Bool.or_eq_true, decide_eq_true_iff, decide_eq_true_iff, not_or] at hturn
      unfold heading
      rw [if_neg hturn.2, if_neg hturn.1]
    rw [if_neg hturn, hon]
    unfold stepsLeft
    rcases hdir with hgo | hgo
    · rw [hgo, if_pos rfl, if_pos rfl]
      omega
    · rw [hgo, if_neg (by decide), if_neg (by decide)]
      omega

/-- A bound on the frames that the wave has left. -/
def patience (g : Game) (right down : Int) : Int :=
  31 * stepsLeft g.dir right down + (g.enemyMoveInterval.toNat - g.enemyMoveTimer.toNat : Nat)

/-- A frame of play ends the wave or the game, or brings the end of the wave nearer. -/
theorem play_frame_patience {right down : Int} (h : Sound p) (htimer : p.levelClearTimer = 0)
    (hgoing : p.game.gameOver = false) (hplaced : Placed right down p.game.enemies)
    (hnot : ¬ (0 < (playFrame p c).levelClearTimer ∨ (playFrame p c).game.gameOver = true)) :
    ∃ right' down', Placed right' down' (playFrame p c).game.enemies ∧
      patience (playFrame p c).game right' down' + 1 ≤ patience p.game right down := by
  have hsound := play_frame_sound (c := c) h htimer hgoing
  rw [not_or] at hnot
  have hsome := hsound.playing (Nat.eq_zero_of_not_pos hnot.1) (Bool.eq_false_of_not_eq_true hnot.2)
  obtain ⟨fb, g, hg, hgame, -⟩ := play_frame_game p c
  obtain ⟨n, hthin⟩ := update_bullets_thinned (trigger (steerRight (steerLeft p.game c) c) p.spaceHeld c).1
  obtain ⟨x, bullets, haim⟩ := aim_eq p.game p.spaceHeld c
  rw [hgame, hg] at hsome ⊢
  rw [haim] at hthin hsome ⊢
  have hplaced' : Placed right down (updateBullets { p.game with playerX := x, bullets := bullets }).enemies :=
    Placed.thinned (g := { p.game with playerX := x, bullets := bullets }) hplaced hthin
  have hdir := hthin.dir
  have hinterval := hthin.interval
  have hticks := hthin.timer
  dsimp only at hdir hinterval hticks
  generalize updateBullets { p.game with playerX := x, bullets := bullets } = shot at *
  have hdir' : shot.dir = 1 ∨ shot.dir = -1 := by
    rw [hdir]
    exact h.fair.dir
  have hsame : patience shot right down = patience p.game right down := by
    unfold patience
    rw [hdir, hinterval, hticks]
  rw [← hsame]
  rcases update_enemies_cases shot fb with ⟨hwait, heq⟩ | ⟨-, heq⟩
  · rw [heq]
    refine ⟨right, down, hplaced', ?_⟩
    have htick : (shot.enemyMoveTimer + 1).toNat = shot.enemyMoveTimer.toNat + 1 := by
      have hfew := h.fair.timer
      rw [← hticks, UInt32.lt_iff_toNat_lt] at hfew
      have hthirty : (30 : UInt32).toNat = 30 := rfl
      rw [UInt32.toNat_add]
      have hone : (1 : UInt32).toNat = 1 := rfl
      omega
    rw [UInt32.lt_iff_toNat_lt, htick] at hwait
    unfold patience
    dsimp only
    rw [htick]
    omega
  · rw [heq] at hsome ⊢
    refine ⟨_, _, placed_marched hplaced' hdir', ?_⟩
    have hsteps := steps_left_marched hplaced' hdir' hsome
    have hpace := pace_le p.game.level
    rw [← h.fair.interval, ← hinterval] at hpace
    have hinterval' : (marched shot).enemyMoveInterval = shot.enemyMoveInterval := rfl
    unfold patience
    rw [hinterval']
    omega

/-- Whatever keys but Q are pressed, a wave is cleared or the game is lost within 100533 frames. -/
theorem wave_ends (h : Reached p) (htimer : p.levelClearTimer = 0) (hgoing : p.game.gameOver = false) {keys : List UInt8}
    (hlen : 100533 ≤ keys.length) (hkeys : ∀ c ∈ keys, c ≠ 113 ∧ c ≠ 81) :
    ∃ before q, before <+: keys ∧ before.foldlM frame p = some q ∧ (0 < q.levelClearTimer ∨ q.game.gameOver = true) := by
  -- by induction on the keys: each frame brings the end nearer
  have hrun : ∀ (keys : List UInt8) (p : Play) (right down : Int), Reached p → p.levelClearTimer = 0 →
      p.game.gameOver = false → Placed right down p.game.enemies → patience p.game right down < keys.length →
      (∀ c ∈ keys, c ≠ 113 ∧ c ≠ 81) → ∃ before q, before <+: keys ∧ before.foldlM frame p = some q ∧
        (0 < q.levelClearTimer ∨ q.game.gameOver = true) := by
    intro keys
    induction keys with
    | nil =>
      intro p right down hp htimer hgoing hplaced hlen _
      have hsound := reached_sound hp
      obtain ⟨hpos, -⟩ := steps_left_bounds hplaced (hsound.playing htimer hgoing) p.game.dir
      unfold patience at hlen
      rw [List.length_nil] at hlen
      omega
    | cons c keys ih =>
      intro p right down hp htimer hgoing hplaced hlen hkeys
      have hframe : frame p c = some (playFrame p c) := by
        have hc := hkeys c List.mem_cons_self
        unfold frame
        rw [if_neg (Nat.not_lt.mpr (Nat.le_of_eq htimer)), if_neg (not_or.mpr hc), hgoing]
        rfl
      by_cases hend : 0 < (playFrame p c).levelClearTimer ∨ (playFrame p c).game.gameOver = true
      · refine ⟨[c], playFrame p c, ⟨keys, rfl⟩, ?_, hend⟩
        rw [List.foldlM_cons, hframe]
        rfl
      · obtain ⟨right', down', hplaced', hless⟩ :=
          play_frame_patience (reached_sound hp) htimer hgoing hplaced hend
        rw [not_or] at hend
        rw [List.length_cons] at hlen
        obtain ⟨before, q, ⟨after, hafter⟩, hq, hdone⟩ := ih (playFrame p c) right' down' (.next hp hframe)
          (Nat.eq_zero_of_not_pos hend.1) (Bool.eq_false_of_not_eq_true hend.2) hplaced' (by omega)
          (fun k hk => hkeys k (List.mem_cons_of_mem c hk))
        refine ⟨c :: before, q, ⟨after, by rw [List.cons_append, hafter]⟩, ?_, hdone⟩
        rw [List.foldlM_cons, hframe]
        exact hq
  have hsound := reached_sound h
  obtain ⟨right, down, hplaced⟩ := hsound.fair.wave
  obtain ⟨-, hmost, -⟩ := steps_left_bounds hplaced (hsound.playing htimer hgoing) p.game.dir
  have hpace := pace_le p.game.level
  rw [← hsound.fair.interval] at hpace
  refine hrun keys p right down h htimer hgoing hplaced ?_ hkeys
  unfold patience
  omega

/-- The fire button is held from the start. -/
theorem wave_ends_firing : ∃ before q, before <+: List.replicate 100533 32 ∧
    before.foldlM frame (startPlay boot (fun _ => 0) 41) = some q ∧ (0 < q.levelClearTimer ∨ q.game.gameOver = true) :=
  wave_ends (.first _ _) rfl (init_game_over boot 41) (Nat.le_of_eq List.length_replicate.symm) (by
    intro c hc
    rw [List.eq_of_mem_replicate hc]
    decide)

end BaSic.Proofs.ShooterWaves
