import BaSic.Kernel.Timer

namespace BaSic.Proofs.TimerSleep
open Kernel

variable {t u : Timer} {tick target ms : UInt32} {passed e n : Nat} {looks seen : List Nat}

/-- The timer as `timer_init(1000)` leaves it, some time later. -/
def timerAt (tick : UInt32) : Timer := ⟨tick, ticksPerMsOf 1000⟩

/-- A sleep that returns has lasted `ms` ticks, and it has returned where the counter is
looked at with exactly `ms` ticks gone. -/
structure SleepsFor (t : Timer) (ms : UInt32) : Prop where
  least : ∀ looks u e, timerSleep t ms looks = .ok (u, e) → ms.toNat ≤ e
  exact : ∀ seen later, seen ≠ [] → seen.sum = ms.toNat → ∃ u, timerSleep t ms (seen ++ later) = .ok (u, ms.toNat)

/-- At 1000 Hz a millisecond is a tick. -/
theorem timer_init_boot (t : Timer) : ∃ ports, timerInit t 1000 = .ok (timerAt t.tickCount, ports) := ⟨_, rfl⟩

theorem ticks_of_irqs (t : Timer) (n : Nat) :
    ((timerTickIncrement^[n] t).tickCount).toNat = (t.tickCount.toNat + n) % 4294967296 := by
  induction n with
  | zero => exact (Nat.mod_eq_of_lt t.tickCount.toNat_lt).symm
  | succ n ih =>
    rw [Function.iterate_succ_apply', timerTickIncrement, UInt32.toNat_add, ih]
    simp only [UInt32.reduceToNat]
    omega

theorem timer_sleep_eq (tick ms : UInt32) (looks : List Nat) :
    timerSleep (timerAt tick) ms looks = sleepUntil (tick + ms) (timerAt tick) 0 looks := by
  have hrate : ticksPerMsOf 1000 = 1 := rfl
  simp only [timerSleep, timerAt, hrate, UInt32.mul_one]

/-- A counter that has not wrapped when the loop ends has reached the target, whatever
the looks before. -/
theorem sleep_until_least (hstart : t.tickCount.toNat = (tick.toNat + passed) % 4294967296)
    (hfits : tick.toNat + ms.toNat < 4294967296) (h : sleepUntil (tick + ms) t passed looks = .ok (u, e)) :
    ms.toNat ≤ e := by
  induction looks generalizing t passed with
  | nil => cases h
  | cons n looks ih =>
    have hticks := ticks_of_irqs t n
    rw [sleepUntil] at h
    split at h
    · refine ih ?_ h
      rw [hticks, hstart]
      omega
    · obtain ⟨-, rfl⟩ := Prod.mk.inj (Except.ok.inj h)
      rename_i hdone
      rw [UInt32.lt_iff_toNat_lt, UInt32.toNat_add, hticks, hstart] at hdone
      omega

/-- Looks before the target go on, and the one at the target ends the loop. -/
theorem sleep_until_exact (hstart : t.tickCount.toNat = tick.toNat + passed)
    (hfits : tick.toNat + ms.toNat < 4294967296) (hne : seen ≠ []) (hsum : passed + seen.sum = ms.toNat)
    (later : List Nat) : ∃ u, sleepUntil (tick + ms) t passed (seen ++ later) = .ok (u, ms.toNat) := by
  induction seen generalizing t passed with
  | nil => exact absurd rfl hne
  | cons n seen ih =>
    rw [List.sum_cons] at hsum
    have hticks : (timerTickIncrement^[n] t).tickCount.toNat = tick.toNat + (passed + n) := by
      rw [ticks_of_irqs, hstart]
      omega
    have hlt : (timerTickIncrement^[n] t).tickCount < tick + ms ↔ passed + n < ms.toNat := by
      rw [UInt32.lt_iff_toNat_lt, UInt32.toNat_add, hticks]
      omega
    rw [List.cons_append, sleepUntil]
    by_cases hdone : passed + n = ms.toNat
    · rw [if_neg (by rw [hlt]; omega), hdone]
      exact ⟨_, rfl⟩
    · have hrest : seen ≠ [] := by
        rintro rfl
        exact hdone hsum
      rw [if_pos (by rw [hlt]; omega)]
      exact ih hticks hrest (by omega)

/-- A target below the counter ends the loop at the first look. -/
theorem sleep_until_wrapped (hwraps : 4294967296 ≤ tick.toNat + ms.toNat) :
    sleepUntil (tick + ms) (timerAt tick) 0 [0] = .ok (timerAt tick, 0) := by
  have hlow : ¬ tick < tick + ms := by
    have hms := ms.toNat_lt
    rw [UInt32.lt_iff_toNat_lt, UInt32.toNat_add]
    omega
  rw [sleepUntil]
  exact if_neg hlow

/-- `timer_sleep` lasts its time exactly when its target does not wrap. -/
theorem timer_sleep_lasts (tick ms : UInt32) :
    SleepsFor (timerAt tick) ms ↔ tick.toNat + ms.toNat < 4294967296 := by
  constructor
  · intro h
    by_contra hwraps
    have hms := h.least [0] (timerAt tick) 0 (by rw [timer_sleep_eq, sleep_until_wrapped (by omega)])
    have htick := tick.toNat_lt
    omega
  · intro hfits
    constructor
    · intro looks u e h
      rw [timer_sleep_eq] at h
      exact sleep_until_least (Nat.mod_eq_of_lt tick.toNat_lt).symm hfits h
    · intro seen later hne hsum
      have hstart : (timerAt tick).tickCount.toNat = tick.toNat + 0 := rfl
      rw [← Nat.zero_add seen.sum] at hsum
      rw [timer_sleep_eq]
      exact sleep_until_exact hstart hfits hne hsum later

/-- Ten milliseconds at the last tick before the wrap are over at once. -/
theorem timer_sleep_wraps : ¬ ∀ tick ms : UInt32, ms.toNat < 2147483648 → SleepsFor (timerAt tick) ms := by
  intro h
  have hms := (h 0xFFFFFFFF 10 (by decide)).least [0] (timerAt 0xFFFFFFFF) 0 rfl
  cases hms

end BaSic.Proofs.TimerSleep
