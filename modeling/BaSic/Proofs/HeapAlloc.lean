import BaSic.Proofs.HeapBlocks
import BaSic.Lib.Words

namespace BaSic.Proofs.HeapAlloc
open Mm Lib HeapBlocks

variable {m m' : Mem} {a c e : Nat} {b : Block} {bs cs : List Block}

theorem align8_toNat (size : UInt32) : align8 size = (size.toNat + 7) % 4294967296 / 8 * 8 := by
  have hmask : (~~~7 : UInt32).toNat = (2 ^ 29 - 1) <<< 3 := by decide
  have hlt := (size + 7).toNat_lt
  unfold align8
  rw [UInt32.toNat_and, hmask, and_field, UInt32.toNat_add] at *
  simp only [UInt32.reduceToNat] at *
  omega

theorem align8_mod (size : UInt32) : align8 size % 8 = 0 := by
  rw [align8_toNat]
  omega

/-- Bytes outside a block's own extent are not written when it is claimed. -/
theorem split_outside (hs : sizeOfBlock m a = b.size) (size : Nat) (hfit : size ≤ b.size)
    (hb : b.size < 4294967200) {i : Nat} (hi : i < a ∨ a + hdrSize + b.size ≤ i) :
    setFree (splitBlock m a size) a 0 i = m i := by
  have hH : hdrSize = 16 := rfl
  rw [set_free_outside _ _ _ _ (by omega)]
  unfold splitBlock
  rw [hs, u32_of_lt (by omega)]
  split
  · simp only [setSize, setNext, setMagic]
    rw [write32_outside _ _ _ _ (by omega), write32_outside _ _ _ _ (by omega),
      write32_outside _ _ _ _ (by omega), set_free_outside _ _ _ _ (by omega),
      write32_outside _ _ _ _ (by omega), write32_outside _ _ _ _ (by omega)]
  · rfl

/-- The two headers a split leaves. -/
theorem split_hdrs (hh : Hdr m a b) (size : Nat) (hroom : size + hdrSize + 8 ≤ b.size)
    (ha : a + hdrSize + b.size ≤ heapEnd) :
    Hdr (setFree (splitBlock m a size) a 0) a ⟨size, false⟩ ∧
      Hdr (setFree (splitBlock m a size) a 0) (a + hdrSize + size)
        ⟨b.size - size - hdrSize, true⟩ := by
  have hH : hdrSize = 16 := rfl
  have hend : heapEnd = 4194304 := rfl
  have hmagic : heapMagic < 4294967296 := by decide
  have hsub : sub32 (sub32 b.size size) hdrSize = b.size - size - hdrSize := by
    rw [sub32_of_le (a := b.size) (by omega) (by omega), sub32_of_le (by omega) (by omega)]
  have hnext := hh.next
  have hsize := hh.size
  unfold splitBlock
  rw [hh.size, u32_of_lt (by omega), if_pos hroom]
  refine ⟨⟨?_, ?_, ?_, ?_⟩, ⟨?_, ?_, ?_, ?_⟩⟩
  · simp (disch := omega) only [magicOf, setSize, setNext, setMagic, read32_set_free,
      read32_write32_apart]
    exact hh.magic
  · simp (disch := omega) only [sizeOfBlock, setSize, read32_set_free, read32_write32]
    omega
  · simp [freeOf, setFree]
  · simp (disch := omega) only [nextOf, setSize, setNext, read32_set_free, read32_write32_apart,
      read32_write32]
    rw [link_of_lt (by omega)]
    omega
  · simp (disch := omega) only [magicOf, setSize, setNext, setMagic, read32_set_free,
      read32_write32_apart, read32_write32]
    omega
  · simp only [sizeOfBlock] at hsize
    simp (disch := omega) only [sizeOfBlock, setSize, setNext, setMagic, read32_set_free,
      read32_write32_apart, read32_write32]
    rw [hsize, hsub]
    omega
  · have hbyte : ∀ i v, v + 4 ≤ i → ∀ m' : Mem, ∀ w, write32 m' v w i = m' i :=
      fun i v h m' w => write32_outside m' v w i (Or.inr h)
    simp only [freeOf]
    rw [set_free_outside _ _ _ _ (by omega)]
    simp only [setSize, setNext]
    rw [write32_outside _ _ _ _ (by omega), write32_outside _ _ _ _ (by omega),
      write32_outside _ _ _ _ (by omega)]
    simp [setFree]
  · simp only [nextOf] at hnext
    simp (disch := omega) only [nextOf, setSize, setNext, setMagic, read32_set_free,
      read32_write32_apart, read32_write32]
    rw [hnext]
    rw [show a + hdrSize + size + hdrSize + (b.size - size - hdrSize) = a + hdrSize + b.size by omega]
    exact Nat.mod_eq_of_lt (link_lt ha)

/-- Claiming `size` bytes of the free block at `a` leaves the blocks `place` says. -/
theorem split_seg (h : Seg m a (b :: bs) heapEnd) (size : Nat) (hsize : size % 8 = 0)
    (hfit : size ≤ b.size) :
    Seg (setFree (splitBlock m a size) a 0) a (place size b ++ bs) heapEnd := by
  have hH : hdrSize = 16 := rfl
  have hend : heapEnd = 4194304 := rfl
  have hle := h.cons_lt
  obtain ⟨hh, hal, ht⟩ := h
  have htail : Seg (setFree (splitBlock m a size) a 0) (a + hdrSize + b.size) bs heapEnd :=
    ht.congr (fun i hi _ => split_outside hh.size size hfit (by omega) (Or.inr hi))
  unfold place
  split
  · rename_i hroom
    obtain ⟨hfst, hsnd⟩ := split_hdrs hh size hroom hle
    have hnext : a + hdrSize + size + hdrSize + (b.size - size - hdrSize) = a + hdrSize + b.size := by
      omega
    refine ⟨hfst, hsize, hsnd, by simp only; omega, ?_⟩
    simp only
    rw [hnext]
    exact htail
  · rename_i hroom
    refine ⟨?_, hal, htail⟩
    unfold splitBlock at *
    rw [hh.size, u32_of_lt (by omega), if_neg hroom]
    refine ⟨?_, ?_, ?_, ?_⟩
    · exact (read32_set_free _ _ _ _ (by omega)).trans hh.magic
    · exact (read32_set_free _ _ _ _ (by omega)).trans hh.size
    · simp [freeOf, setFree]
    · exact (read32_set_free _ _ _ _ (by omega)).trans hh.next

/-- Where a first fit lands, and that it leaves every other block in place. -/
theorem first_fit_some {size p : Nat} (h : firstFit size a bs = some (p, cs)) :
    ∃ x b, (x, b) ∈ layout a bs ∧ b.free = true ∧ size ≤ b.size ∧ p = x + hdrSize ∧
      (∃ d : Block, (x, d) ∈ layout a cs ∧ d.free = false ∧ size ≤ d.size) ∧
      ∀ y d, (y, d) ∈ layout a bs → y ≠ x → (y, d) ∈ layout a cs := by
  induction bs generalizing a cs with
  | nil => simp [firstFit] at h
  | cons b bs ih =>
    rcases first_fit_cons h with ⟨hfit, rfl, rfl⟩ | ⟨-, ds, hq, rfl⟩
    · obtain ⟨e, rest, hplace, hused, hsize, -⟩ := place_front size a b
      rw [layout_place, hplace]
      refine ⟨a, b, List.mem_cons_self, hfit.1, hfit.2, rfl, ⟨e, List.mem_cons_self, hused, hsize hfit.2⟩, ?_⟩
      intro y d hy hne
      rcases List.mem_cons.mp hy with he | hy
      · cases he
        exact absurd rfl hne
      · exact List.mem_append_right _ hy
    · obtain ⟨x, d, hx, hfree, hfit, hp, ⟨d', hd, hd'⟩, hrest⟩ := ih hq
      refine ⟨x, d, List.mem_cons_of_mem _ hx, hfree, hfit, hp, ⟨d', List.mem_cons_of_mem _ hd, hd'⟩, ?_⟩
      intro y e hy hne
      rcases List.mem_cons.mp hy with he | hy
      · rw [he]
        exact List.mem_cons_self
      · exact List.mem_cons_of_mem _ (hrest y e hy hne)

/-- The search loop of `kmalloc` hands out what first fit over the block list
says, and writes only inside the free block it claims. -/
theorem kmalloc_from_some (h : Seg m a bs heapEnd) (ha : 0 < a) (size : Nat) (hsize : size % 8 = 0)
    (fuel : Nat) (hfuel : bs.length ≤ fuel) {p : Nat} (hfit : firstFit size a bs = some (p, cs)) :
    ∃ m', kmallocFrom fuel m size (link a) = .ok (p, m') ∧ Seg m' a cs heapEnd ∧
      ∃ x b, (x, b) ∈ layout a bs ∧ b.free = true ∧ p = x + hdrSize ∧
        ∀ i, i < x ∨ x + hdrSize + b.size ≤ i → m' i = m i := by
  have hH : hdrSize = 16 := rfl
  have hend : heapEnd = 4194304 := rfl
  induction bs generalizing a cs fuel with
  | nil => simp [firstFit] at hfit
  | cons b bs ih =>
    obtain ⟨hlink, hne⟩ := h.cons_link
    have hle := h.cons_lt
    have hcond : (freeOf m a ≠ 0 ∧ size ≤ sizeOfBlock m a) ↔ (b.free = true ∧ size ≤ b.size) := by
      rw [h.1.free_ne, h.1.size]
    rw [hlink]
    unfold kmallocFrom
    rw [if_neg (by omega)]
    rcases first_fit_cons hfit with ⟨hb, rfl, rfl⟩ | ⟨hb, ds, hq, rfl⟩
    · rw [if_pos (hcond.mpr hb)]
      refine ⟨_, rfl, split_seg h size hsize hb.2, a, b, List.mem_cons_self, hb.1, rfl, ?_⟩
      exact fun i hi => split_outside h.1.size size hb.2 (by omega) hi
    · rw [if_neg (hb ∘ hcond.mp)]
      cases fuel with
      | zero => simp at hfuel
      | succ fuel =>
        rw [List.length_cons] at hfuel
        obtain ⟨m', hrun, hseg, x, d, hx, hfree, hp, hout⟩ := ih h.2.2 (by omega) fuel (by omega) hq
        have hax := layout_start hx
        refine ⟨m', ?_, ⟨?_, h.2.1, hseg⟩, x, d, List.mem_cons_of_mem _ hx, hfree, hp, hout⟩
        · rw [← hrun, h.1.next]
        · exact h.1.congr (fun i _ hi => hout i (by omega))

theorem kmalloc_from_none (h : Seg m a bs heapEnd) (size : Nat) (fuel : Nat)
    (hfuel : bs.length ≤ fuel) (hfit : firstFit size a bs = none) :
    kmallocFrom fuel m size (link a) = .ok (0, m) := by
  induction bs generalizing a fuel with
  | nil =>
    cases h
    unfold kmallocFrom
    exact if_pos (if_pos rfl)
  | cons b bs ih =>
    have hcond : (freeOf m a ≠ 0 ∧ size ≤ sizeOfBlock m a) ↔ (b.free = true ∧ size ≤ b.size) := by
      rw [h.1.free_ne, h.1.size]
    rw [h.cons_link.1]
    unfold firstFit at hfit
    unfold kmallocFrom
    split at hfit
    · cases hfit
    · rename_i hb
      rw [if_neg (hb ∘ hcond.mp)]
      cases fuel with
      | zero => simp at hfuel
      | succ fuel =>
        rw [List.length_cons] at hfuel
        simp only
        rw [h.1.next, ih h.2.2 fuel (by omega) (Option.map_eq_none_iff.mp hfit)]
        exact ite_self _

end BaSic.Proofs.HeapAlloc
