import BaSic.Proofs.HeapCoalesce
import BaSic.Fs.Ramfs

namespace BaSic.Proofs.HeapRoom
open Mm Fs Lib HeapBlocks HeapAlloc HeapSystem HeapCoalesce

/-- The heap as the file system uses it. -/
def heapKmalloc : Kmalloc HeapState := fun s size =>
  match heapStep s (.kmalloc (UInt32.ofNat size)) with
  | .ok (p, s) => (p ≠ 0, s)
  | .error _ => (false, s)

/-- The sizes of the free blocks met from `cur` on. -/
def freeFrom (m : Mem) : Nat → Nat → Nat
  | 0, _ => 0
  | fuel + 1, cur =>
    if cur = 0 then 0
    else (if freeOf m cur ≠ 0 then sizeOfBlock m cur else 0) + freeFrom m fuel (nextOf m cur)

/-- The amount of free heap. -/
def freeBytes (h : Heap) : Nat := freeFrom h.mem heapFuel h.heapHead

/-- The same, over the blocks. -/
def freeSum : List Block → Nat
  | [] => 0
  | b :: bs => (if b.free then b.size else 0) + freeSum bs

/-- First fit has a block for each of the requests, one after another. -/
def Served : List UInt32 → List Block → Prop
  | [], _ => True
  | size :: sizes, bs => (grant size bs).1 ≠ 0 ∧ Served sizes (grant size bs).2

variable {m : Mem} {s : HeapState} {a p size fuel : Nat} {n : UInt32} {bs cs : List Block}

theorem free_from_eq (h : Seg m a bs heapEnd) (ha : 0 < a) (hfuel : bs.length ≤ fuel) :
    freeFrom m fuel (link a) = freeSum bs := by
  induction bs generalizing a fuel with
  | nil =>
    obtain rfl : a = heapEnd := h
    have hlink : link heapEnd = 0 := if_pos rfl
    cases fuel with
    | zero => rfl
    | succ fuel => simp [freeFrom, freeSum, hlink]
  | cons b bs ih =>
    obtain ⟨hlink, -⟩ := h.cons_link
    obtain ⟨hhdr, -, hrest⟩ := h
    obtain ⟨fuel, rfl⟩ := Nat.exists_eq_add_of_le' (Nat.le_trans (Nat.succ_pos bs.length) hfuel)
    have htail := ih hrest (by omega) (Nat.le_of_succ_le_succ hfuel)
    simp only [freeFrom, freeSum, hlink, if_neg (Nat.ne_of_gt ha), hhdr.next, htail, hhdr.size, hhdr.free_ne]

theorem free_bytes_eq (h : Stores s bs) : freeBytes s.heap = freeSum bs := by
  have hsum := free_from_eq h.seg (by decide) h.fuel
  rwa [h.link] at hsum

theorem free_sum_append (bs cs : List Block) : freeSum (bs ++ cs) = freeSum bs + freeSum cs := by
  induction bs with
  | nil => simp [freeSum]
  | cons b bs ih => simp [freeSum, ih, Nat.add_assoc]

/-- A block that is handed out is free no more. -/
theorem first_fit_free_sum (hpos : 0 < size) (hfit : firstFit size a bs = some (p, cs)) : freeSum cs < freeSum bs := by
  induction bs generalizing a cs with
  | nil => simp [firstFit] at hfit
  | cons b bs ih =>
    simp only [firstFit] at hfit
    split at hfit
    · rename_i hb
      cases hfit
      have hplace : freeSum (place size b) < b.size := by
        unfold place
        split
        · simp only [freeSum]
          simp
          omega
        · simp [freeSum]
          omega
      simp only [free_sum_append, freeSum, hb.1, if_true]
      omega
    · obtain ⟨⟨q, ds⟩, hq, he⟩ := Option.map_eq_some_iff.mp hfit
      cases he
      simpa [freeSum] using ih hq

theorem grant_none (h : (grant n bs).1 = 0) : (grant n bs).2 = bs := by
  rcases grant_cases n bs with ⟨-, hg⟩ | ⟨-, -, hne⟩
  · rw [hg]
  · exact absurd h hne

theorem grant_free_sum (hn : 0 < align8 n) (h : (grant n bs).1 ≠ 0) : freeSum (grant n bs).2 < freeSum bs := by
  rcases grant_cases n bs with ⟨-, hg⟩ | ⟨-, hfit, -⟩
  · rw [hg] at h
    exact absurd rfl h
  · exact first_fit_free_sum hn hfit

theorem grant_zero_iff (hn : n ≠ 0) : (grant n bs).1 = 0 ↔ ∀ b ∈ bs, b.free = true → b.size < align8 n := by
  rw [← first_fit_none (a := heapStart)]
  rcases grant_cases n bs with ⟨hno, hg⟩ | ⟨-, hfit, hne⟩
  · simp [hg, hno.resolve_left hn]
  · simp [hfit, hne]

/-- The file system gets a block exactly when first fit has one. -/
theorem kmalloc_grant (h : Stores s bs) (size : Nat) :
    ((heapKmalloc s size).1 = true ↔ (grant (UInt32.ofNat size) bs).1 ≠ 0) ∧
      Stores (heapKmalloc s size).2 (grant (UInt32.ofNat size) bs).2 := by
  obtain ⟨t, hrun, ht, -⟩ := h.malloc (UInt32.ofNat size)
  simp only [heapKmalloc, hrun]
  exact ⟨by simp, ht⟩

end BaSic.Proofs.HeapRoom
