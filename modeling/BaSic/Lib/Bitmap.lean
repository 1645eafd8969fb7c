import Mathlib

namespace BaSic.Lib

/-- Bit `i` of a sequence of `w`-bit words. -/
def bit {w : Nat} (words : Nat → BitVec w) (i : Nat) : Bool := (words (i / w)).getLsbD (i % w)

def setBit {w : Nat} (words : Nat → BitVec w) (i : Nat) : Nat → BitVec w :=
  Function.update words (i / w) (words (i / w) ||| (1#w <<< (i % w)))

def clearBit {w : Nat} (words : Nat → BitVec w) (i : Nat) : Nat → BitVec w :=
  Function.update words (i / w) (words (i / w) &&& ~~~(1#w <<< (i % w)))

/-- The positions below `n` whose bit is 0. -/
def unset {w : Nat} (words : Nat → BitVec w) (n : Nat) : Finset Nat :=
  (Finset.range n).filter (fun i => bit words i = false)

variable {w : Nat} {words : Nat → BitVec w} {i j k n : Nat}

theorem one_shl_bit (hj : j < w) : (1#w <<< i).getLsbD j = decide (j = i) := by
  by_cases h : j = i
  · subst h
    simp [hj]
  · simp only [BitVec.getLsbD_shiftLeft, BitVec.getLsbD_one, h, decide_false]
    by_cases hji : j < i
    · simp [hji]
    · have hne : j - i ≠ 0 := by omega
      simp [hne]

theorem same_place (hd : j / w = i / w) : j % w = i % w ↔ j = i := by
  constructor
  · intro hm
    rw [← Nat.div_add_mod j w, ← Nat.div_add_mod i w, hd, hm]
  · intro h
    rw [h]

theorem bit_setBit (hw : 0 < w) : bit (setBit words i) j = (decide (j = i) || bit words j) := by
  unfold bit setBit
  by_cases hd : j / w = i / w
  · rw [hd, Function.update_self, BitVec.getLsbD_or, one_shl_bit (Nat.mod_lt j hw), Bool.or_comm]
    simp only [same_place hd]
  · rw [Function.update_of_ne hd]
    have hne : j ≠ i := fun h => hd (by rw [h])
    simp [hne]

theorem bit_clearBit (hw : 0 < w) : bit (clearBit words i) j = (!decide (j = i) && bit words j) := by
  unfold bit clearBit
  by_cases hd : j / w = i / w
  · rw [hd, Function.update_self, BitVec.getLsbD_and, BitVec.getLsbD_not,
      one_shl_bit (Nat.mod_lt j hw), Bool.and_comm]
    simp only [same_place hd, Nat.mod_lt j hw, decide_true, Bool.true_and]
  · rw [Function.update_of_ne hd]
    have hne : j ≠ i := fun h => hd (by rw [h])
    simp [hne]

@[simp] theorem mem_unset : i ∈ unset words n ↔ i < n ∧ bit words i = false := by
  simp [unset]

theorem unset_setBit (hw : 0 < w) : unset (setBit words i) n = (unset words n).erase i := by
  ext j
  simp only [mem_unset, bit_setBit hw, Finset.mem_erase, Bool.or_eq_false_iff, decide_eq_false_iff_not]
  exact and_left_comm

theorem unset_clearBit (hw : 0 < w) (hi : i < n) :
    unset (clearBit words i) n = insert i (unset words n) := by
  ext j
  simp only [mem_unset, bit_clearBit hw, Finset.mem_insert, Bool.and_eq_false_iff,
    Bool.not_eq_false', decide_eq_true_eq]
  constructor
  · rintro ⟨hj, he | hb⟩
    · exact Or.inl he
    · exact Or.inr ⟨hj, hb⟩
  · rintro (rfl | ⟨hj, hb⟩)
    · exact ⟨hi, Or.inl rfl⟩
    · exact ⟨hj, Or.inr hb⟩

/-- A word of ones holds no 0 bit. -/
theorem bit_of_ones (hw : 0 < w) (h : words (i / w) = BitVec.allOnes w) : bit words i = true := by
  unfold bit
  rw [h, BitVec.getLsbD_allOnes]
  exact decide_eq_true (Nat.mod_lt i hw)

end BaSic.Lib
