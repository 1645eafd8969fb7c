import BaSic.Machine
import BaSic.Lib.Reads
import BaSic.Lib.Writes

namespace BaSic
open Lib

/-- The byte at a 32-bit address -/
def readByte (m : Mem) (a : Nat) : Reading UInt8 := readCell m (u32 a)

def readHalf (m : Mem) (a : Nat) : Reading Nat := do
  let b0 ← readByte m a
  let b1 ← readByte m (a + 1)
  pure (b0.toNat + 256 * b1.toNat)

def readWord (m : Mem) (a : Nat) : Reading Nat := do
  let lo ← readHalf m a
  let hi ← readHalf m (a + 2)
  pure (lo + 65536 * hi)

def memset (m : Mem) (dst : Nat) (c : UInt8) : Nat → Mem
  | 0 => m
  | n + 1 => memset (Function.update m (u32 dst) c) (dst + 1) c n

def memcpy (m : Mem) (dst src : Nat) : Nat → Reading Mem
  | 0 => pure m
  | n + 1 => do
    let c ← readByte m src
    memcpy (Function.update m (u32 dst) c) (dst + 1) (src + 1) n

variable {m : Mem} {a dst src n j : Nat} {c : UInt8} {P : Nat → Prop}

theorem u32_lt (n : Nat) : u32 n < 4294967296 := Nat.mod_lt n (by omega)

theorem read_half_lt (m : Mem) (a : Nat) : (readHalf m a).val < 65536 := by
  have hlo := (readByte m a).val.toNat_lt
  have hhi := (readByte m (a + 1)).val.toNat_lt
  change (readByte m a).val.toNat + 256 * (readByte m (a + 1)).val.toNat < 65536
  omega

theorem read_word_lt (m : Mem) (a : Nat) : (readWord m a).val < 4294967296 := by
  have hlo := read_half_lt m a
  have hhi := read_half_lt m (a + 2)
  change (readHalf m a).val + 65536 * (readHalf m (a + 2)).val < 4294967296
  omega

theorem read_half_congr {m' : Mem} (h : ∀ j, j < 2 → m' (u32 (a + j)) = m (u32 (a + j))) :
    (readHalf m' a).val = (readHalf m a).val := by
  have hlo : m' (u32 a) = m (u32 a) := h 0 (by omega)
  unfold readHalf readByte
  simp only [bind_val, read_cell_val, pure_val, hlo, h 1 (by omega)]

theorem read_word_congr {m' : Mem} (h : ∀ j, j < 4 → m' (u32 (a + j)) = m (u32 (a + j))) :
    (readWord m' a).val = (readWord m a).val := by
  have hlo : (readHalf m' a).val = (readHalf m a).val := read_half_congr (fun j hj => h j (by omega))
  have hhi : (readHalf m' (a + 2)).val = (readHalf m (a + 2)).val := read_half_congr (fun j hj => by
    rw [Nat.add_assoc]
    exact h (2 + j) (by omega))
  unfold readWord
  simp only [bind_val, pure_val, hlo, hhi]

theorem all_read_half : (readHalf m a).All P ↔ ∀ j, j < 2 → P (u32 (a + j)) := by
  unfold readHalf readByte
  simp only [all_bind, all_cell, all_pure, and_true]
  constructor
  · rintro ⟨h0, h1⟩ j hj
    rcases (by omega : j = 0 ∨ j = 1) with rfl | rfl
    · exact h0
    · exact h1
  · exact fun h => ⟨h 0 (by omega), h 1 (by omega)⟩

theorem all_read_word : (readWord m a).All P ↔ ∀ j, j < 4 → P (u32 (a + j)) := by
  unfold readWord
  simp only [all_bind, all_read_half, all_pure, and_true]
  constructor
  · rintro ⟨hlo, hhi⟩ j hj
    by_cases hj' : j < 2
    · exact hlo j hj'
    · obtain ⟨i, rfl⟩ : ∃ i, j = 2 + i := ⟨j - 2, by omega⟩
      rw [← Nat.add_assoc]
      exact hhi i (by omega)
  · refine fun h => ⟨fun j hj => h j (by omega), fun j hj => ?_⟩
    rw [Nat.add_assoc]
    exact h (2 + j) (by omega)

/-- Two of less than 2³² consecutive addresses differ. -/
theorem u32_add_ne {i j : Nat} (hij : i ≠ j) (hi : i < 4294967296) (hj : j < 4294967296) :
    u32 (dst + i) ≠ u32 (dst + j) := by
  unfold u32
  omega

/-- Bytes that go to less than 2³² consecutive addresses are found there. -/
theorem puts_byte {w : Writing} {bytes : List UInt8} (h : bytes.length ≤ 4294967296) (hj : j < bytes.length) :
    (w.puts u32 dst bytes).mem (u32 (dst + j)) = bytes.getD j 0 := by
  refine Writing.puts_inside (fun i k hi hk hsame => ?_) hj
  by_contra hne
  exact u32_add_ne hne (by omega) (by omega) hsame

theorem memset_eq {w : Writing} : memset w.mem dst c n = (w.puts u32 dst (List.replicate n c)).mem := by
  induction n generalizing w dst with
  | zero => rfl
  | succ n ih =>
    rw [memset, List.replicate_succ, Writing.puts_cons, ← ih]
    rfl

theorem memset_outside (h : ∀ j, j < n → a ≠ u32 (dst + j)) : memset m dst c n a = m a := by
  have houtside : ((⟨m, []⟩ : Writing).puts u32 dst (List.replicate n c)).mem a = m a :=
    Writing.puts_outside (fun j hj => h j (by rwa [List.length_replicate] at hj))
  rwa [← memset_eq] at houtside

theorem memset_inside (hn : n ≤ 4294967296) (hj : j < n) : memset m dst c n (u32 (dst + j)) = c := by
  have hlen : (List.replicate n c).length = n := List.length_replicate
  have hinside : ((⟨m, []⟩ : Writing).puts u32 dst (List.replicate n c)).mem (u32 (dst + j)) = _ :=
    puts_byte (by omega) (by omega)
  rwa [← memset_eq, List.getD_replicate _ hj] at hinside

/-- What `memcpy` reads: the bytes of the source. -/
theorem all_memcpy : (memcpy m dst src n).All P ↔ ∀ j, j < n → P (u32 (src + j)) := by
  induction n generalizing m dst src with
  | zero => exact iff_of_true (all_pure m) (fun j hj => absurd hj (Nat.not_lt_zero j))
  | succ n ih =>
    rw [memcpy, all_bind, ih]
    unfold readByte
    rw [all_cell]
    constructor
    · rintro ⟨hfirst, hrest⟩ j hj
      cases j with
      | zero => exact hfirst
      | succ j =>
        rw [Nat.add_comm j, ← Nat.add_assoc]
        exact hrest j (by omega)
    · refine fun h => ⟨h 0 (by omega), fun j hj => ?_⟩
      rw [Nat.add_assoc, Nat.add_comm 1]
      exact h (j + 1) (by omega)

theorem memcpy_outside (h : ∀ j, j < n → a ≠ u32 (dst + j)) : (memcpy m dst src n).val a = m a := by
  induction n generalizing m dst src with
  | zero => rfl
  | succ n ih =>
    have hrest : ∀ j, j < n → a ≠ u32 (dst + 1 + j) := by
      intro j hj
      rw [Nat.add_assoc, Nat.add_comm 1]
      exact h (j + 1) (by omega)
    have hfirst : a ≠ u32 dst := h 0 (by omega)
    rw [memcpy, bind_val, ih hrest, Function.update_of_ne hfirst]

/-- Between ranges that are apart `memcpy` copies. -/
theorem memcpy_inside (hn : n ≤ 4294967296) (hapart : ∀ i j, i < n → j < n → u32 (src + i) ≠ u32 (dst + j))
    (hj : j < n) : (memcpy m dst src n).val (u32 (dst + j)) = m (u32 (src + j)) := by
  induction n generalizing m dst src j with
  | zero => exact absurd hj (Nat.not_lt_zero j)
  | succ n ih =>
    rw [memcpy, bind_val]
    cases j with
    | zero =>
      have hrest : ∀ i, i < n → u32 dst ≠ u32 (dst + 1 + i) := by
        intro i hi
        rw [Nat.add_assoc]
        exact u32_add_ne (by omega : 0 ≠ 1 + i) (by omega) (by omega)
      exact (memcpy_outside hrest).trans (Function.update_self ..)
    | succ j =>
      have hnext : ∀ k, dst + (k + 1) = dst + 1 + k ∧ src + (k + 1) = src + 1 + k := fun k => by omega
      have hread : u32 (src + (j + 1)) ≠ u32 dst := hapart (j + 1) 0 (by omega) (by omega)
      rw [(hnext j).2] at hread
      rw [(hnext j).1, (hnext j).2, ih (by omega) ?_ (by omega), Function.update_of_ne hread]
      intro i k hi hk
      rw [← (hnext i).2, ← (hnext k).1]
      exact hapart (i + 1) (k + 1) (by omega) (by omega)

end BaSic
