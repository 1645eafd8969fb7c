import Mathlib

namespace BaSic.Lib

/-- Byte-addressed memory. -/
abbrev Mem := Nat → UInt8

/-- The little-endian 32-bit word at `a`. -/
def read32 (m : Mem) (a : Nat) : Nat :=
  (m a).toNat + 256 * (m (a + 1)).toNat + 65536 * (m (a + 2)).toNat + 16777216 * (m (a + 3)).toNat

def write32 (m : Mem) (a v : Nat) : Mem := fun i =>
  if i = a then UInt8.ofNat v
  else if i = a + 1 then UInt8.ofNat (v / 256)
  else if i = a + 2 then UInt8.ofNat (v / 65536)
  else if i = a + 3 then UInt8.ofNat (v / 16777216)
  else m i

theorem read32_write32 (m : Mem) (a v : Nat) : read32 (write32 m a v) a = v % 4294967296 := by
  simp only [read32, write32, ↓reduceIte]
  rw [if_neg (by omega : ¬ a + 1 = a), if_neg (by omega : ¬ a + 2 = a),
    if_neg (by omega : ¬ a + 2 = a + 1), if_neg (by omega : ¬ a + 3 = a),
    if_neg (by omega : ¬ a + 3 = a + 1), if_neg (by omega : ¬ a + 3 = a + 2)]
  simp only [UInt8.toNat_ofNat']
  omega

/-- A word only depends on its four bytes. -/
theorem read32_congr {m m' : Mem} {a : Nat} (h : ∀ i, a ≤ i → i < a + 4 → m' i = m i) :
    read32 m' a = read32 m a := by
  unfold read32
  rw [h a (by omega) (by omega), h (a + 1) (by omega) (by omega), h (a + 2) (by omega) (by omega),
    h (a + 3) (by omega) (by omega)]

theorem write32_outside (m : Mem) (a v i : Nat) (h : i < a ∨ a + 4 ≤ i) : write32 m a v i = m i := by
  unfold write32
  rw [if_neg (by omega), if_neg (by omega), if_neg (by omega), if_neg (by omega)]

theorem read32_write32_apart (m : Mem) (a b v : Nat) (h : b + 4 ≤ a ∨ a + 4 ≤ b) :
    read32 (write32 m a v) b = read32 m b :=
  read32_congr (fun i _ _ => write32_outside m a v i (by omega))

theorem byte_or_and (x y z : UInt8) : (x ||| y) &&& z = (x &&& z) ||| (y &&& z) := by
  apply UInt8.toBitVec_inj.mp
  simp only [UInt8.toBitVec_and, UInt8.toBitVec_or, BitVec.and_or_distrib_right]

/-- Reading a word as a signed number and back loses nothing. -/
theorem of_int_to_int (n : UInt32) : UInt32.ofInt n.toBitVec.toInt = n := by
  apply UInt32.toNat_inj.mp
  have hlt := n.toNat_lt
  simp only [UInt32.ofInt, BitVec.toInt_eq_toNat_cond, UInt32.toNat_toBitVec, UInt32.toNat_ofNat']
  split
  all_goals omega

variable {offset size capacity : UInt32}

/-- Cutting a size to the room behind the offset, where their sum fits in 32 bits. -/
theorem clamp_to_nat (hle : offset ≤ capacity) (hfit : offset.toNat + size.toNat < 4294967296) :
    (if offset + size > capacity then capacity - offset else size).toNat =
      min size.toNat (capacity.toNat - offset.toNat) := by
  have hsum : (offset + size).toNat = offset.toNat + size.toNat := by
    rw [UInt32.toNat_add]
    omega
  have hsub := UInt32.toNat_sub_of_le _ _ hle
  have hroom := UInt32.le_iff_toNat_le.mp hle
  split
  · rename_i hover
    rw [gt_iff_lt, UInt32.lt_iff_toNat_lt] at hover
    omega
  · rename_i hunder
    rw [gt_iff_lt, UInt32.lt_iff_toNat_lt] at hunder
    omega

/-- A sum that wraps round passes the same test by. -/
theorem clamp_passed_by (hle : offset ≤ capacity) (hwrap : 4294967296 ≤ offset.toNat + size.toNat) :
    ¬ offset + size > capacity := by
  have hsum : (offset + size).toNat = (offset.toNat + size.toNat) % 4294967296 := UInt32.toNat_add ..
  have hroom := UInt32.le_iff_toNat_le.mp hle
  have hoff := offset.toNat_lt
  have hsize := size.toNat_lt
  rw [gt_iff_lt, UInt32.lt_iff_toNat_lt]
  omega

theorem larger_to_nat (a b : UInt32) : (if a > b then a else b).toNat = max b.toNat a.toNat := by
  split
  · rename_i h
    exact (Nat.max_eq_right (Nat.le_of_lt (UInt32.lt_iff_toNat_lt.mp h))).symm
  · rename_i h
    rw [gt_iff_lt, UInt32.lt_iff_toNat_lt] at h
    exact (Nat.max_eq_left (Nat.not_lt.mp h)).symm

/-- Putting `b` above the low `k` bits held by `a`. -/
theorem or_shl_of_lt {a k : Nat} (h : a < 2 ^ k) (b : Nat) : a ||| (b <<< k) = a + b * 2 ^ k := by
  rw [Nat.or_comm, ← Nat.shiftLeft_add_eq_or_of_lt h, Nat.shiftLeft_eq, Nat.add_comm]

theorem shl_or_of_lt {a k : Nat} (h : a < 2 ^ k) (b : Nat) : (b <<< k) ||| a = b * 2 ^ k + a := by
  rw [← Nat.shiftLeft_add_eq_or_of_lt h, Nat.shiftLeft_eq]

/-- A 16-bit word put together from its bytes. -/
theorem word_to_nat (lo hi : UInt8) : (lo.toUInt16 ||| (hi.toUInt16 <<< 8)).toNat = lo.toNat + hi.toNat * 256 := by
  have h0 := lo.toNat_lt
  have h1 := hi.toNat_lt
  have hjoin : lo.toNat ||| hi.toNat <<< 8 = lo.toNat + hi.toNat * 256 := or_shl_of_lt h0 _
  rw [UInt16.toNat_or, UInt16.toNat_shiftLeft]
  simp only [UInt8.toNat_toUInt16, UInt16.reduceToNat, Nat.reduceMod]
  rw [Nat.mod_eq_of_lt (by rw [Nat.shiftLeft_eq]; omega), hjoin]

/-- Masking with `n` ones above `k` zeros keeps the field in between. -/
theorem and_field (x n k : Nat) : x &&& ((2 ^ n - 1) <<< k) = x / 2 ^ k % 2 ^ n * 2 ^ k := by
  apply Nat.eq_of_testBit_eq
  intro i
  rw [Nat.testBit_and, Nat.testBit_shiftLeft, ← Nat.shiftLeft_eq, Nat.testBit_shiftLeft,
    ← Nat.shiftRight_eq_div_pow, Nat.testBit_mod_two_pow, Nat.testBit_two_pow_sub_one,
    Nat.testBit_shiftRight]
  cases hi : decide (i ≥ k) with
  | false => simp
  | true =>
    have hik : k + (i - k) = i := by
      have := of_decide_eq_true hi
      omega
    rw [hik]
    simp [Bool.and_comm]

end BaSic.Lib
