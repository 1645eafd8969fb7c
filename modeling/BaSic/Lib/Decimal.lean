import Mathlib

namespace BaSic.Lib.Decimal

/-- The digits of a number in base `b` with the first one first; zero has none. -/
def leading (b n : Nat) : List Nat := (Nat.digits b n).reverse

/-- The digits of a number as it is written: zero has one. -/
def written (b n : Nat) : List Nat := if n = 0 then [0] else leading b n

variable {b n d k : Nat}

theorem leading_zero (b : Nat) : leading b 0 = [] := by
  unfold leading
  rw [Nat.digits_zero, List.reverse_nil]

/-- The last digit is the remainder; the others are those of the quotient. -/
theorem leading_step (hb : 1 < b) (hn : 0 < n) : leading b n = leading b (n / b) ++ [n % b] := by
  unfold leading
  rw [Nat.digits_def' hb hn, List.reverse_cons]

theorem leading_lt (hb : 1 < b) (hd : d ∈ leading b n) : d < b :=
  Nat.digits_lt_base hb (List.mem_reverse.mp hd)

theorem leading_ne_nil (hn : n ≠ 0) : leading b n ≠ [] := by
  unfold leading
  rw [Ne, List.reverse_eq_nil_iff]
  exact Nat.digits_ne_nil_iff_ne_zero.mpr hn

/-- No zero comes first. -/
theorem head_leading (b n : Nat) : (leading b n).head? ≠ some 0 := by
  unfold leading
  rw [List.head?_reverse]
  by_cases hn : n = 0
  · simp [hn]
  · rw [List.getLast?_eq_some_getLast (Nat.digits_ne_nil_iff_ne_zero.mpr hn)]
    intro hlast
    exact Nat.getLast_digit_ne_zero b hn (Option.some.inj hlast)

/-- Read from the first on, the digits give the number. -/
theorem foldl_leading (b n : Nat) : (leading b n).foldl (fun m d => m * b + d) 0 = n := by
  have hread : (leading b n).foldl (fun m d => m * b + d) 0 = Nat.ofDigits b (Nat.digits b n) := by
    unfold leading
    rw [List.foldl_reverse, Nat.ofDigits_eq_foldr]
    refine congrArg (fun f => List.foldr f 0 _) (funext fun d => funext fun m => ?_)
    rw [Nat.cast_id, Nat.mul_comm, Nat.add_comm]
  rw [hread, Nat.ofDigits_digits]

theorem written_ne_nil (b n : Nat) : written b n ≠ [] := by
  unfold written
  split
  · exact List.cons_ne_nil _ _
  · exact leading_ne_nil ‹_›

theorem written_lt (hb : 1 < b) (hd : d ∈ written b n) : d < b := by
  unfold written at hd
  split at hd
  · rw [List.mem_singleton.mp hd]
    exact Nat.lt_of_succ_lt hb
  · exact leading_lt hb hd

/-- Zero comes first in the number zero only. -/
theorem written_head (h : (written b n).head? = some 0) : written b n = [0] := by
  unfold written at h ⊢
  split
  · rfl
  · rw [if_neg ‹_›] at h
    exact absurd h (head_leading b n)

theorem foldl_written (b n : Nat) : (written b n).foldl (fun m d => m * b + d) 0 = n := by
  unfold written
  split
  · rw [‹n = 0›]
    exact (Nat.add_zero _).trans (Nat.zero_mul b)
  · exact foldl_leading b n

end BaSic.Lib.Decimal
