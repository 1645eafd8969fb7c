import BaSic.Mm.Pmm
import BaSic.Lib.Bitmap

namespace BaSic.Proofs.PmmScan
open Mm Lib

/-- The frames whose bit in the bitmap is 0. -/
def clearFrames (p : Pmm) : Finset Nat := unset p.bitmap p.totalFrames

/-- The bitmap covers all frames, and their addresses fit in 32 bits. -/
structure Scannable (p : Pmm) : Prop where
  words : p.bitmapWords = (p.totalFrames + 31) / 32
  small : p.totalFrames ≤ 1048576

/-- Handing out frame `f`. -/
def claimFrame (p : Pmm) (f : Nat) : Nat × Pmm :=
  (u32 (f * pmmFrameSize),
    { p with bitmap := bitmapSet p.bitmap f, freeFrames := sub32 p.freeFrames 1 })

/-- Clearing the bit of frame `f` and counting it. -/
def releaseFrame (p : Pmm) (f : Nat) : Pmm :=
  { p with bitmap := bitmapClear p.bitmap f, freeFrames := u32 (p.freeFrames + 1) }

variable {p : Pmm} {i f left : Nat}

/-- The address of a frame in range does not wrap. -/
theorem Scannable.frame_addr (h : Scannable p) (hf : f < p.totalFrames) :
    u32 (f * pmmFrameSize) = f * 4096 := by
  have hs := h.small
  exact u32_of_lt (by simp only [pmmFrameSize]; omega)

theorem claim_count (hpos : 1 ≤ p.freeFrames) (hlt : p.freeFrames < 4294967296) :
    (claimFrame p f).2.freeFrames = p.freeFrames - 1 := by
  rw [← sub32_of_le hpos hlt]
  unfold claimFrame
  dsimp only

theorem Scannable.claim_addr (h : Scannable p) (hf : f < p.totalFrames) :
    (claimFrame p f).1 = f * 4096 := by
  simp only [claimFrame]
  exact h.frame_addr hf

theorem bitmap_test_zero (bitmap : Nat → BitVec 32) (f : Nat) :
    bitmapTest bitmap f = 0 ↔ bit bitmap f = false := by
  unfold bitmapTest bit
  rw [show (1 : BitVec 32) = 1#32 from rfl, BitVec.and_one_eq_setWidth_ofBool_getLsbD,
    BitVec.getLsbD_ushiftRight, Nat.add_zero]
  cases (bitmap (f / 32)).getLsbD (f % 32) <;> decide

/-- Scanning the rest of one word: the lowest clear frame in it is taken, or there
is none. -/
theorem alloc_bits_cases (hleft : left ≤ 32) :
    (∃ f, i * 32 + (32 - left) ≤ f ∧ f < p.totalFrames ∧ bit p.bitmap f = false ∧
        (∀ g, i * 32 + (32 - left) ≤ g → g < f → bit p.bitmap g = true) ∧
        allocBits p i left = some (claimFrame p f)) ∨
      (∀ g, i * 32 + (32 - left) ≤ g → g < i * 32 + 32 → g < p.totalFrames → bit p.bitmap g = true) ∧
        (p.totalFrames ≤ i * 32 + 32 ∧ allocBits p i left = some (0, p) ∨
          allocBits p i left = none) := by
  induction left with
  | zero => exact Or.inr ⟨fun g hg hg' _ => by omega, Or.inr rfl⟩
  | succ left ih =>
    have hframe : i * 32 + (32 - (left + 1)) = i * 32 + (31 - left) := by omega
    rw [allocBits, hframe]
    split
    · rename_i hend
      exact Or.inr ⟨fun g hg _ hlt => by omega, Or.inl ⟨by omega, rfl⟩⟩
    · rename_i hin
      split
      · rename_i hzero
        refine Or.inl ⟨i * 32 + (31 - left), Nat.le_refl _, by omega, (bitmap_test_zero _ _).mp hzero,
          fun g hg hlt => by omega, rfl⟩
      · rename_i hone
        have hset : bit p.bitmap (i * 32 + (31 - left)) = true := by
          rw [bitmap_test_zero] at hone
          simpa using hone
        rcases ih (by omega) with ⟨f, hlo, hlt, hbit, hbelow, hrun⟩ | ⟨hall, hrun⟩
        · refine Or.inl ⟨f, by omega, hlt, hbit, fun g hg hgf => ?_, hrun⟩
          by_cases he : g = i * 32 + (31 - left)
          · rw [he]
            exact hset
          · exact hbelow g (by omega) hgf
        · refine Or.inr ⟨fun g hg hlt hg' => ?_, hrun⟩
          by_cases he : g = i * 32 + (31 - left)
          · rw [he]
            exact hset
          · exact hall g (by omega) hlt hg'

/-- Scanning the last words: the lowest clear frame in them is taken. -/
theorem alloc_words_cases (hp : Scannable p) (hleft : left ≤ p.bitmapWords) :
    (∃ f, (p.bitmapWords - left) * 32 ≤ f ∧ f < p.totalFrames ∧ bit p.bitmap f = false ∧
        (∀ g, (p.bitmapWords - left) * 32 ≤ g → g < f → bit p.bitmap g = true) ∧
        allocWords p left = claimFrame p f) ∨
      (∀ g, (p.bitmapWords - left) * 32 ≤ g → g < p.totalFrames → bit p.bitmap g = true) ∧
        allocWords p left = (0, p) := by
  induction left with
  | zero =>
    have hw := hp.words
    exact Or.inr ⟨fun g hg hlt => by omega, rfl⟩
  | succ left ih =>
    have hnext : p.bitmapWords - left = p.bitmapWords - (left + 1) + 1 := by omega
    generalize hi : p.bitmapWords - (left + 1) = i at *
    rw [hnext] at ih
    rw [allocWords]
    simp only [hi]
    split
    · -- a word of ones is skipped
      rename_i hones
      have hset : ∀ g, i * 32 ≤ g → g < (i + 1) * 32 → bit p.bitmap g = true := by
        intro g hg hlt
        refine bit_of_ones (by decide) ?_
        rw [show g / 32 = i by omega, hones]
        decide
      rcases ih (by omega) with ⟨f, hlo, hlt, hbit, hbelow, hrun⟩ | ⟨hall, hrun⟩
      · refine Or.inl ⟨f, by omega, hlt, hbit, fun g hg hgf => ?_, hrun⟩
        rcases Nat.lt_or_ge g ((i + 1) * 32) with hg' | hg'
        · exact hset g hg hg'
        · exact hbelow g hg' hgf
      · refine Or.inr ⟨fun g hg hlt => ?_, hrun⟩
        rcases Nat.lt_or_ge g ((i + 1) * 32) with hg' | hg'
        · exact hset g hg hg'
        · exact hall g hg' hlt
    · rcases alloc_bits_cases (p := p) (i := i) (Nat.le_refl 32) with
        ⟨f, hlo, hlt, hbit, hbelow, hrun⟩ | ⟨hword, ⟨hlast, hrun⟩ | hrun⟩
      · rw [hrun]
        exact Or.inl ⟨f, by omega, hlt, hbit, fun g hg hgf => hbelow g (by omega) hgf, rfl⟩
      · rw [hrun]
        exact Or.inr ⟨fun g hg hlt => hword g (by omega) (by omega) hlt, rfl⟩
      · rw [hrun]
        rcases ih (by omega) with ⟨f, hlo, hlt, hbit, hbelow, hrun'⟩ | ⟨hall, hrun'⟩
        · refine Or.inl ⟨f, by omega, hlt, hbit, fun g hg hgf => ?_, hrun'⟩
          rcases Nat.lt_or_ge g ((i + 1) * 32) with hg' | hg'
          · exact hword g (by omega) (by omega) (by omega)
          · exact hbelow g hg' hgf
        · refine Or.inr ⟨fun g hg hlt => ?_, hrun'⟩
          rcases Nat.lt_or_ge g ((i + 1) * 32) with hg' | hg'
          · exact hword g (by omega) (by omega) hlt
          · exact hall g hg' hlt

/-- `pmm_alloc` takes the lowest clear frame, or there is none. -/
theorem pmm_alloc_cases (hp : Scannable p) :
    (∃ f, IsLeast (clearFrames p : Set Nat) f ∧ pmmAlloc p = claimFrame p f) ∨
      clearFrames p = ∅ ∧ pmmAlloc p = (0, p) := by
  unfold pmmAlloc
  rcases alloc_words_cases hp (Nat.le_refl _) with ⟨f, -, hlt, hbit, hbelow, hrun⟩ | ⟨hall, hrun⟩
  · refine Or.inl ⟨f, ⟨?_, fun g hg => ?_⟩, hrun⟩
    · exact Finset.mem_coe.mpr (mem_unset.mpr ⟨hlt, hbit⟩)
    · obtain ⟨-, hg⟩ := mem_unset.mp (Finset.mem_coe.mp hg)
      by_contra hgf
      rw [hbelow g (by omega) (by omega)] at hg
      cases hg
  · refine Or.inr ⟨Finset.eq_empty_of_forall_notMem (fun g hg => ?_), hrun⟩
    obtain ⟨hlt, hg⟩ := mem_unset.mp hg
    rw [hall g (by omega) hlt] at hg
    cases hg

theorem clear_of_claim (f : Nat) : clearFrames (claimFrame p f).2 = (clearFrames p).erase f :=
  unset_setBit (by decide)

/-- An allocation marks what it returns and unmarks nothing. -/
theorem Scannable.alloc (h : Scannable p) :
    Scannable (pmmAlloc p).2 ∧ (pmmAlloc p).2.totalFrames = p.totalFrames ∧
      (∀ f, bit p.bitmap f = true → bit (pmmAlloc p).2.bitmap f = true) ∧
      ((pmmAlloc p).1 = 0 ∨ ∃ f < p.totalFrames, (pmmAlloc p).1 = f * 4096 ∧
        bit p.bitmap f = false ∧ bit (pmmAlloc p).2.bitmap f = true) := by
  rcases pmm_alloc_cases h with ⟨f, hleast, hrun⟩ | ⟨-, hrun⟩
  · obtain ⟨hlt, hclear⟩ := mem_unset.mp (Finset.mem_coe.mp hleast.1)
    have hbit : ∀ g, bit (claimFrame p f).2.bitmap g = (decide (g = f) || bit p.bitmap g) :=
      fun g => bit_setBit (by decide)
    rw [hrun]
    refine ⟨⟨h.words, h.small⟩, rfl, fun g hg => ?_, Or.inr ⟨f, hlt, h.claim_addr hlt, hclear, ?_⟩⟩
    · rw [hbit, hg, Bool.or_true]
    · rw [hbit, decide_eq_true rfl, Bool.true_or]
  · rw [hrun]
    exact ⟨h, rfl, fun _ hf => hf, Or.inl rfl⟩

theorem clear_of_release (h : f < p.totalFrames) :
    clearFrames (releaseFrame p f) = insert f (clearFrames p) :=
  unset_clearBit (by decide) h

theorem pmm_free_out {addr : Nat} (h : p.totalFrames ≤ addr / 4096) : pmmFree p addr = p := if_pos h

theorem pmm_free_in {addr : Nat} (h : addr / 4096 < p.totalFrames) :
    pmmFree p addr = releaseFrame p (addr / 4096) := if_neg (Nat.not_le.mpr h)

theorem clear_card_le (p : Pmm) : (clearFrames p).card ≤ p.totalFrames := by
  have hcard := Finset.card_filter_le (Finset.range p.totalFrames) (fun i => bit p.bitmap i = false)
  rwa [Finset.card_range] at hcard

/-- The loop of `pmm_init` clears one frame after the other. -/
theorem free_from_eq (hfit : f + left ≤ p.totalFrames) (hcount : p.freeFrames + left < 4294967296) :
    (freeFrom p f left).totalFrames = p.totalFrames ∧
      (freeFrom p f left).bitmapWords = p.bitmapWords ∧
      (freeFrom p f left).freeFrames = p.freeFrames + left ∧
      clearFrames (freeFrom p f left) = clearFrames p ∪ Finset.Ico f (f + left) := by
  induction left generalizing p f with
  | zero => simp [freeFrom]
  | succ left ih =>
    have hnext : freeFrom p f (left + 1) = freeFrom (releaseFrame p f) (f + 1) left := rfl
    have hone : (releaseFrame p f).freeFrames = p.freeFrames + 1 := u32_of_lt (by omega)
    have htotal : (releaseFrame p f).totalFrames = p.totalFrames := rfl
    obtain ⟨ht, hw, hc, hclear⟩ := ih (p := releaseFrame p f) (f := f + 1) (by omega) (by omega)
    rw [hnext]
    refine ⟨ht, hw, by omega, ?_⟩
    rw [hclear, clear_of_release (by omega)]
    ext g
    simp only [Finset.mem_union, Finset.mem_insert, Finset.mem_Ico]
    by_cases hg : g ∈ clearFrames p
    · simp [hg]
    · simp only [hg, or_false, false_or]
      omega

/-- After `pmm_init` exactly the frames above the kernel are clear, and counted. -/
theorem pmm_init_eq (bitmap : Nat → BitVec 32) (memKb : Nat) :
    Scannable (pmmInit bitmap memKb) ∧
      (pmmInit bitmap memKb).totalFrames = u32 (memKb * 1024) / 4096 ∧
      (pmmInit bitmap memKb).freeFrames = u32 (memKb * 1024) / 4096 - 512 ∧
      clearFrames (pmmInit bitmap memKb) = Finset.Ico 512 (u32 (memKb * 1024) / 4096) := by
  have hlt : u32 (memKb * 1024) < 4294967296 := Nat.mod_lt _ (by decide)
  have hfirst : kernelEnd / pmmFrameSize = 512 := rfl
  have hsize : pmmFrameSize = 4096 := rfl
  simp only [pmmInit]
  rw [hfirst, hsize]
  have htotal : u32 (memKb * 1024) / 4096 ≤ 1048576 := by omega
  generalize u32 (memKb * 1024) / 4096 = total at htotal
  generalize hp : Pmm.mk (fun i => if i < (total + 31) / 32 then 0xFFFFFFFF else bitmap i) total 0
    ((total + 31) / 32) [] = p
  have hnone : clearFrames p = ∅ := by
    refine Finset.eq_empty_of_forall_notMem (fun f hf => ?_)
    obtain ⟨hlt, hf⟩ := mem_unset.mp hf
    subst hp
    have hones : bit (fun i => if i < (total + 31) / 32 then 0xFFFFFFFF else bitmap i) f = true :=
      bit_of_ones (by decide) (if_pos (by simp only at hlt; omega))
    rw [hones] at hf
    cases hf
  have hpt : p.totalFrames = total := by rw [← hp]
  have hpw : p.bitmapWords = (total + 31) / 32 := by rw [← hp]
  have hpf : p.freeFrames = 0 := by rw [← hp]
  have hloop : (freeFrom p 512 (total - 512)).totalFrames = total ∧
      (freeFrom p 512 (total - 512)).bitmapWords = (total + 31) / 32 ∧
      (freeFrom p 512 (total - 512)).freeFrames = total - 512 ∧
      clearFrames (freeFrom p 512 (total - 512)) = Finset.Ico 512 total := by
    rcases Nat.lt_or_ge total 512 with hsmall | hlarge
    · -- there is nothing above the kernel
      rw [show total - 512 = 0 by omega, Finset.Ico_eq_empty (by omega), ← hnone]
      exact ⟨hpt, hpw, hpf, rfl⟩
    · have hfit : 512 + (total - 512) ≤ p.totalFrames := by omega
      have hcount : p.freeFrames + (total - 512) < 4294967296 := by omega
      obtain ⟨ht, hw, hc, hclear⟩ := free_from_eq hfit hcount
      rw [hnone, Finset.empty_union, show 512 + (total - 512) = total by omega] at hclear
      exact ⟨ht.trans hpt, hw.trans hpw, by omega, hclear⟩
  generalize freeFrom p 512 (total - 512) = q at hloop ⊢
  obtain ⟨ht, hw, hc, hclear⟩ := hloop
  refine ⟨⟨?_, ?_⟩, ht, hc, hclear⟩
  · simp only
    rw [hw, ht]
  · simp only
    omega

end BaSic.Proofs.PmmScan
