import Mathlib

namespace BaSic.Lib

/-- The sum of the little-endian 16-bit words, the last byte of an odd length alone. -/
def wordSum : List UInt8 → Nat
  | [] => 0
  | [b] => b.toNat
  | lo :: hi :: bytes => lo.toNat + 256 * hi.toNat + wordSum bytes

/-- The carries out of 16 bits are added back in until none is left. -/
def foldCarries (sum : Nat) : Nat :=
  if sum / 65536 ≠ 0 then foldCarries (sum % 65536 + sum / 65536) else sum
termination_by sum
decreasing_by omega

/-- What follows an odd number of bytes begins with the high byte of the last one's word. -/
theorem word_sum_append_aligned (bytes rest : List UInt8) :
    wordSum (bytes ++ rest) = wordSum bytes + wordSum (if bytes.length % 2 = 1 then 0 :: rest else rest) := by
  induction bytes using wordSum.induct with
  | case1 => exact (Nat.zero_add _).symm
  | case2 b =>
    cases rest with
    | nil => rfl
    | cons c rest =>
      simp only [List.singleton_append, List.length_singleton, wordSum, if_true, UInt8.toNat_zero]
      omega
  | case3 lo hi bytes ih =>
    rw [List.cons_append, List.cons_append, wordSum, wordSum, ih, List.length_cons, List.length_cons,
      Nat.add_assoc bytes.length, Nat.add_mod_right, ← Nat.add_assoc]

theorem word_sum_append {bytes : List UInt8} (heven : bytes.length % 2 = 0) (rest : List UInt8) :
    wordSum (bytes ++ rest) = wordSum bytes + wordSum rest := by
  rw [word_sum_append_aligned, if_neg (by omega)]

theorem fold_carries_lt (sum : Nat) : foldCarries sum < 65536 := by
  induction sum using foldCarries.induct with
  | case1 sum h ih =>
    rw [foldCarries, if_pos h]
    exact ih
  | case2 sum h =>
    rw [foldCarries, if_neg h]
    omega

/-- Folding keeps the value modulo `2 ^ 16 - 1`. -/
theorem fold_carries_mod (sum : Nat) : foldCarries sum ≡ sum [MOD 65535] := by
  induction sum using foldCarries.induct with
  | case1 sum h ih =>
    rw [foldCarries, if_pos h]
    refine ih.trans ?_
    unfold Nat.ModEq
    omega
  | case2 sum h =>
    rw [foldCarries, if_neg h]

theorem fold_carries_pos {sum : Nat} (hpos : 0 < sum) : 0 < foldCarries sum := by
  induction sum using foldCarries.induct with
  | case1 sum h ih =>
    rw [foldCarries, if_pos h]
    exact ih (by omega)
  | case2 sum h =>
    rw [foldCarries, if_neg h]
    exact hpos

/-- All ones stand for zero where there was something to add. -/
theorem fold_carries_ones_iff {sum : Nat} : foldCarries sum = 65535 ↔ 0 < sum ∧ sum ≡ 0 [MOD 65535] := by
  have hmod := fold_carries_mod sum
  have hlt := fold_carries_lt sum
  constructor
  · intro hones
    refine ⟨?_, hmod.symm.trans (by rw [hones]; rfl)⟩
    rcases Nat.eq_zero_or_pos sum with rfl | hpos
    · have hzero : foldCarries 0 = 0 := by
        rw [foldCarries]
        rfl
      rw [hzero] at hones
      cases hones
    · exact hpos
  · rintro ⟨hpos, hzero⟩
    have hfold := fold_carries_pos hpos
    obtain ⟨k, hk⟩ := Nat.modEq_zero_iff_dvd.mp (hmod.trans hzero)
    omega

/-- What the complement of another sum's folding, added to a sum, makes of it. -/
theorem fold_carries_complement_iff (sum other : Nat) :
    foldCarries (sum + (65535 - foldCarries other)) = 65535 ↔ other ≡ sum [MOD 65535] ∧ (sum = 0 → other = 0) := by
  have hmod := fold_carries_mod other
  have hlt := fold_carries_lt other
  have hzero : foldCarries other = 65535 ↔ 0 < other ∧ other ≡ 0 [MOD 65535] := fold_carries_ones_iff
  rw [fold_carries_ones_iff]
  unfold Nat.ModEq at *
  constructor
  · rintro ⟨hpos, hall⟩
    refine ⟨by omega, ?_⟩
    rintro rfl
    omega
  · rintro ⟨hsame, hboth⟩
    refine ⟨?_, by omega⟩
    rcases Nat.eq_zero_or_pos sum with rfl | hpos
    · have hother := hboth rfl
      omega
    · exact Nat.add_pos_left hpos _

/-- A sum to which the complement of its folding was added folds to all ones. -/
theorem fold_carries_complement (sum : Nat) : foldCarries (sum + (65535 - foldCarries sum)) = 65535 :=
  (fold_carries_complement_iff sum sum).mpr ⟨rfl, id⟩

theorem word_sum_eq_zero {bytes : List UInt8} : wordSum bytes = 0 ↔ ∀ b ∈ bytes, b = 0 := by
  have hnat : ∀ b : UInt8, b.toNat = 0 ↔ b = 0 := fun b => UInt8.toNat_inj (b := 0)
  induction bytes using wordSum.induct with
  | case1 => simp [wordSum]
  | case2 b => simp [wordSum, hnat]
  | case3 lo hi bytes ih =>
    rw [wordSum, List.forall_mem_cons, List.forall_mem_cons]
    constructor
    · intro hsum
      exact ⟨(hnat lo).mp (by omega), (hnat hi).mp (by omega), ih.mp (by omega)⟩
    · rintro ⟨hlo, hhi, hbytes⟩
      rw [(hnat lo).mpr hlo, (hnat hi).mpr hhi, ih.mpr hbytes]

end BaSic.Lib
