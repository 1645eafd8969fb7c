import BaSic.MemCopy
import BaSic.Lib.Writes

namespace BaSic.Memory
open Lib

/-- `while (n && (*dst++ = *src++)) n--;` and what it leaves of `dst` and `n`. The NUL
that ends the loop has been written, but is not counted. -/
def copyLoop (w : Writing) (dst src : Nat) : Nat → Writing × Nat × Nat
  | 0 => (w, dst, 0)
  | n + 1 =>
    let c := w.mem (u32 src)
    if c ≠ 0 then copyLoop (w.put (u32 dst) c) (dst + 1) (src + 1) n
    else (w.put (u32 dst) c, dst + 1, n + 1)

/-- `while (n--) *dst++ = '\0';` -/
def padLoop (w : Writing) (dst : Nat) : Nat → Writing
  | 0 => w
  | n + 1 => padLoop (w.put (u32 dst) 0) (dst + 1) n

/-- `strncpy` on a memory, with the addresses it writes. -/
def strncpy (m : Mem) (dst src n : UInt32) : UInt32 × Writing :=
  let (w, d, left) := copyLoop ⟨m, []⟩ dst.toNat src.toNat n.toNat
  (dst, padLoop w d left)

/-- The characters that the first loop copies and counts. -/
def copied (m : Mem) (dst src : Nat) : Nat → List UInt8
  | 0 => []
  | n + 1 =>
    let c := m (u32 src)
    if c ≠ 0 then c :: copied (Function.update m (u32 dst) c) (dst + 1) (src + 1) n else []

/-- The padding, to which the NUL that ends the first loop belongs. -/
def padding (len n : Nat) : Nat := if len < n then n - len + 1 else 0

variable {m : Mem} {w : Writing} {dst src n i j : Nat} {c : UInt8}

theorem copied_cons (h : m (u32 src) ≠ 0) : copied m dst src (n + 1) =
    m (u32 src) :: copied (Function.update m (u32 dst) (m (u32 src))) (dst + 1) (src + 1) n := if_pos h

theorem copied_nil (h : m (u32 src) = 0) : copied m dst src (n + 1) = [] := if_neg (not_not_intro h)

theorem copied_length_le (m : Mem) (dst src n : Nat) : (copied m dst src n).length ≤ n := by
  induction n generalizing m dst src with
  | zero => exact Nat.le_refl 0
  | succ n ih =>
    by_cases h : m (u32 src) = 0
    · rw [copied_nil h]
      exact Nat.zero_le _
    · rw [copied_cons h, List.length_cons]
      exact Nat.succ_le_succ (ih ..)

theorem copied_ne_zero (hc : c ∈ copied m dst src n) : c ≠ 0 := by
  induction n generalizing m dst src with
  | zero => cases hc
  | succ n ih =>
    by_cases h : m (u32 src) = 0
    · rw [copied_nil h] at hc
      cases hc
    · rw [copied_cons h] at hc
      rcases List.mem_cons.mp hc with rfl | hc
      · exact h
      · exact ih hc

theorem pad_loop_eq : padLoop w dst n = w.puts u32 dst (List.replicate n 0) := by
  induction n generalizing w dst with
  | zero => rfl
  | succ n ih => rw [padLoop, ih, List.replicate_succ, Writing.puts_cons]

theorem padding_succ {len : Nat} : padding (len + 1) (n + 1) = padding len n := by
  unfold padding
  simp only [Nat.succ_lt_succ_iff, Nat.add_sub_add_right]

/-- The two loops one after the other: the characters, and the padding behind them. -/
theorem copy_pad_eq : (let (v, d, left) := copyLoop w dst src n; padLoop v d left) =
    w.puts u32 dst (copied w.mem dst src n ++ List.replicate (padding (copied w.mem dst src n).length n) 0) := by
  induction n generalizing w dst src with
  | zero => rfl
  | succ n ih =>
    by_cases h : w.mem (u32 src) = 0
    · have hpad : padding 0 (n + 1) = n + 1 + 1 := rfl
      rw [copied_nil h, copyLoop, if_neg (not_not_intro h), h, List.nil_append, List.length_nil, hpad,
        List.replicate_succ, Writing.puts_cons]
      exact pad_loop_eq
    · rw [copied_cons h, copyLoop, if_pos h, List.length_cons, padding_succ, List.cons_append, Writing.puts_cons]
      exact ih

theorem strncpy_eq (m : Mem) (dst src n : UInt32) : (strncpy m dst src n).2 =
    (⟨m, []⟩ : Writing).puts u32 dst.toNat (copied m dst.toNat src.toNat n.toNat ++
      List.replicate (padding (copied m dst.toNat src.toNat n.toNat).length n.toNat) 0) := copy_pad_eq

/-- A character of the source that nothing has been written over is copied as it was. -/
theorem copied_kept (hj : j < (copied m dst src n).length) (h : ∀ i, i < j → u32 (dst + i) ≠ u32 (src + j)) :
    (copied m dst src n).getD j 0 = m (u32 (src + j)) := by
  induction n generalizing m dst src j with
  | zero => cases hj
  | succ n ih =>
    by_cases hc : m (u32 src) = 0
    · rw [copied_nil hc] at hj
      cases hj
    · rw [copied_cons hc] at hj ⊢
      cases j with
      | zero => rfl
      | succ j =>
        have hnext : ∀ i k, i + (k + 1) = i + 1 + k := fun i k => by omega
        have hfirst : u32 dst ≠ u32 (src + (j + 1)) := h 0 (Nat.succ_pos j)
        rw [List.getD_cons_succ, ih (Nat.lt_of_succ_lt_succ hj), ← hnext, Function.update_of_ne hfirst.symm]
        intro i hi
        rw [← hnext, ← hnext]
        exact h (i + 1) (Nat.succ_lt_succ hi)

/-- A character that an earlier one has been written over is that one again. -/
theorem copied_again (hn : n ≤ 4294967296) (hj : j < (copied m dst src n).length) (hij : i < j)
    (h : u32 (dst + i) = u32 (src + j)) : (copied m dst src n).getD j 0 = (copied m dst src n).getD i 0 := by
  induction n generalizing m dst src i j with
  | zero => cases hj
  | succ n ih =>
    by_cases hc : m (u32 src) = 0
    · rw [copied_nil hc] at hj
      cases hj
    · have hlen := copied_length_le m dst src (n + 1)
      rw [copied_cons hc] at hj hlen ⊢
      obtain ⟨j, rfl⟩ := Nat.exists_eq_succ_of_ne_zero (Nat.ne_of_gt (Nat.lt_of_le_of_lt (Nat.zero_le i) hij))
      rw [List.length_cons] at hj hlen
      have hnext : src + (j + 1) = src + 1 + j := by omega
      rw [List.getD_cons_succ]
      cases i with
      | zero =>
        rw [copied_kept (Nat.lt_of_succ_lt_succ hj), ← hnext, ← h]
        · exact Function.update_self ..
        · intro k hk
          rw [← hnext, ← h, Nat.add_assoc]
          exact u32_add_ne (by omega : 1 + k ≠ 0) (by omega) (by omega)
      | succ i =>
        have hsame : u32 (dst + 1 + i) = u32 (src + 1 + j) := by
          rw [← hnext, ← h]
          congr 1
          omega
        exact ih (by omega) (Nat.lt_of_succ_lt_succ hj) (Nat.lt_of_succ_lt_succ hij) hsame

end BaSic.Memory
