import BaSic.Proofs.PmmScan
import BaSic.Lib.Steps

namespace BaSic.Proofs.PmmFrames
open Mm Lib PmmScan

inductive PmmOp where
  | alloc
  | free (addr : Nat)

def pmmStep (p : Pmm) : PmmOp → Nat × Pmm
  | .alloc => pmmAlloc p
  | .free addr => (0, pmmFree p addr)

/-- The allocator and the addresses handed out and not yet given back. -/
structure FrameState where
  pmm : Pmm
  held : List Nat

def startFrames (bitmap : Nat → BitVec 32) (memKb : Nat) : FrameState := ⟨pmmInit bitmap memKb, []⟩

def heldAfter (held : List Nat) (r : Nat) : PmmOp → List Nat
  | .alloc => if r = 0 then held else r :: held
  | .free addr => held.erase addr

def frameStep (s : FrameState) (op : PmmOp) : Nat × FrameState :=
  let (r, p) := pmmStep s.pmm op
  (r, ⟨p, heldAfter s.held r op⟩)

/-- Clients free only what they hold. -/
def Returns (s : FrameState) : PmmOp → Prop
  | .alloc => True
  | .free addr => addr ∈ s.held

instance (s : FrameState) : (op : PmmOp) → Decidable (Returns s op)
  | .alloc => inferInstanceAs (Decidable True)
  | .free addr => inferInstanceAs (Decidable (addr ∈ s.held))

def FrameCall : FrameState → PmmOp → Nat → FrameState → Prop := Guarded Returns frameStep

/-- The frames that are neither reserved for the kernel nor handed out. -/
def available (s : FrameState) : Finset Nat :=
  (Finset.range (pmmTotalFrames s.pmm)).filter
    (fun f => kernelEnd ≤ f * pmmFrameSize ∧ f * pmmFrameSize ∉ s.held)

/-- The bitmap, the counter and what clients hold agree. -/
structure Accounted (s : FrameState) : Prop where
  scannable : Scannable s.pmm
  frames : clearFrames s.pmm = available s
  count : s.pmm.freeFrames = (clearFrames s.pmm).card
  nodup : s.held.Nodup
  owned : ∀ a ∈ s.held, ∃ f < s.pmm.totalFrames, kernelEnd ≤ f * pmmFrameSize ∧ a = f * pmmFrameSize

variable {s t : FrameState} {p q : Pmm} {f r addr memKb : Nat} {bitmap : Nat → BitVec 32}

theorem mem_available : f ∈ available s ↔
    f < s.pmm.totalFrames ∧ 512 ≤ f ∧ f * 4096 ∉ s.held := by
  have hk : kernelEnd = 2097152 := rfl
  have hs : pmmFrameSize = 4096 := rfl
  unfold available pmmTotalFrames
  rw [Finset.mem_filter, Finset.mem_range, hk, hs]
  refine and_congr_right (fun _ => and_congr_left (fun _ => ?_))
  omega

theorem step_scannable (h : Scannable p) (op : PmmOp) :
    Scannable (pmmStep p op).2 ∧ (pmmStep p op).2.totalFrames = p.totalFrames := by
  cases op with
  | alloc =>
    rcases pmm_alloc_cases h with ⟨f, -, hrun⟩ | ⟨-, hrun⟩
    · simp only [pmmStep, hrun]
      exact ⟨⟨h.words, h.small⟩, rfl⟩
    · simp only [pmmStep, hrun, and_true]
      exact h
  | free addr =>
    simp only [pmmStep]
    rcases Nat.lt_or_ge (addr / 4096) p.totalFrames with hin | hout
    · rw [pmm_free_in hin]
      exact ⟨⟨h.words, h.small⟩, rfl⟩
    · rw [pmm_free_out hout]
      exact ⟨h, rfl⟩

theorem init_accounted (bitmap : Nat → BitVec 32) (memKb : Nat) :
    Accounted (startFrames bitmap memKb) := by
  obtain ⟨hscan, ht, hc, hclear⟩ := pmm_init_eq bitmap memKb
  refine ⟨hscan, ?_, ?_, List.nodup_nil, by simp [startFrames]⟩
  · ext f
    rw [mem_available]
    simp only [startFrames, hclear, ht, Finset.mem_Ico, List.not_mem_nil, not_false_eq_true, and_true]
    omega
  · simp only [startFrames, hclear, hc, Nat.card_Ico]

theorem Accounted.alloc_cases (h : Accounted s) :
    (∃ f, IsLeast (available s : Set Nat) f ∧
        frameStep s .alloc = (f * 4096, ⟨(claimFrame s.pmm f).2, f * 4096 :: s.held⟩)) ∨
      available s = ∅ ∧ frameStep s .alloc = (0, s) := by
  rcases pmm_alloc_cases h.scannable with ⟨f, hleast, hrun⟩ | ⟨hnone, hrun⟩
  · rw [h.frames] at hleast
    obtain ⟨hlt, hge, -⟩ := mem_available.mp (Finset.mem_coe.mp hleast.1)
    refine Or.inl ⟨f, hleast, ?_⟩
    have haddr := h.scannable.frame_addr hlt
    simp only [frameStep, pmmStep, hrun, heldAfter, claimFrame, haddr]
    rw [if_neg (by omega)]
  · rw [h.frames] at hnone
    refine Or.inr ⟨hnone, ?_⟩
    simp only [frameStep, pmmStep, hrun, heldAfter, ↓reduceIte]

theorem Accounted.step {op : PmmOp} (h : Accounted s) (hc : FrameCall s op r t) : Accounted t := by
  obtain ⟨hop, hrun⟩ := hc
  cases op with
  | alloc =>
    rcases h.alloc_cases with ⟨f, hleast, hstep⟩ | ⟨-, hstep⟩
    · cases hrun.symm.trans hstep
      have hmem := Finset.mem_coe.mp hleast.1
      obtain ⟨hlt, hge, hnew⟩ := mem_available.mp hmem
      have hcard := clear_card_le s.pmm
      have hsmall := h.scannable.small
      have hpos : 0 < (clearFrames s.pmm).card := Finset.card_pos.mpr ⟨f, h.frames ▸ hmem⟩
      refine ⟨⟨h.scannable.words, hsmall⟩, ?_, ?_, List.nodup_cons.mpr ⟨hnew, h.nodup⟩, ?_⟩
      · ext g
        rw [clear_of_claim, Finset.mem_erase, h.frames, mem_available, mem_available]
        simp only [claimFrame, List.mem_cons, not_or]
        constructor
        · rintro ⟨hne, hg⟩
          exact ⟨hg.1, hg.2.1, by omega, hg.2.2⟩
        · rintro ⟨hg, hg', hne, hh⟩
          exact ⟨by omega, hg, hg', hh⟩
      · have hcount := h.count
        rw [clear_of_claim, Finset.card_erase_of_mem (h.frames ▸ hmem), ← hcount,
          claim_count (by omega) (by omega)]
      · intro a ha
        rcases List.mem_cons.mp ha with rfl | ha
        · exact ⟨f, hlt, by simp only [kernelEnd, pmmFrameSize]; omega, rfl⟩
        · exact h.owned a ha
    · cases hrun.symm.trans hstep
      exact h
  | free a =>
    have ha : a ∈ s.held := hop
    obtain ⟨f, hlt, hge, rfl⟩ := h.owned a ha
    simp only [kernelEnd, pmmFrameSize] at hge ha hrun
    have hdiv : f * 4096 / 4096 = f := by omega
    have hfree : pmmFree s.pmm (f * 4096) = releaseFrame s.pmm f := by
      rw [pmm_free_in (by omega), hdiv]
    have hnew : f ∉ clearFrames s.pmm := by
      rw [h.frames, mem_available]
      exact fun hf => hf.2.2 ha
    have hcard := clear_card_le s.pmm
    have hsmall := h.scannable.small
    have hcount := h.count
    have ht : t = ⟨releaseFrame s.pmm f, s.held.erase (f * 4096)⟩ := by
      rw [← hfree]
      exact (Prod.mk.inj hrun).2.symm
    subst ht
    refine ⟨⟨h.scannable.words, hsmall⟩, ?_, ?_, h.nodup.erase _, ?_⟩
    · ext g
      rw [clear_of_release hlt, Finset.mem_insert, h.frames, mem_available, mem_available]
      simp only [releaseFrame, List.Nodup.mem_erase_iff h.nodup, not_and_or, not_not]
      constructor
      · rintro (rfl | ⟨hg, hg', hh⟩)
        · exact ⟨hlt, by omega, Or.inl rfl⟩
        · exact ⟨hg, hg', Or.inr hh⟩
      · rintro ⟨hg, hg', he | hh⟩
        · exact Or.inl (by omega)
        · exact Or.inr ⟨hg, hg', hh⟩
    · rw [clear_of_release hlt, Finset.card_insert_of_notMem hnew, ← h.count]
      exact u32_of_lt (by omega)
    · intro a ha
      exact h.owned a ((List.Nodup.mem_erase_iff h.nodup).mp ha).2

theorem reachable_accounted {trace : List (PmmOp × Nat)}
    (h : Steps FrameCall (startFrames bitmap memKb) trace s) : Accounted s :=
  h.invariant (I := Accounted) (fun _ _ _ _ hs hc => hs.step hc) (init_accounted bitmap memKb)

/-- For every memory size and every run whose clients free what they hold: an
allocation returns the lowest available frame, or 0 when there is none, and the
counter counts the available frames. -/
theorem lowest_frame_first (hmem : memKb * 1024 < 4294967296) {trace : List (PmmOp × Nat)}
    (h : Steps FrameCall (startFrames bitmap memKb) trace s) :
    pmmTotalFrames s.pmm = memKb * 1024 / 4096 ∧
      (∀ r t, FrameCall s .alloc r t →
        (r ≠ 0 → IsLeast (available s : Set Nat) (r / 4096) ∧ r % 4096 = 0 ∧ 0x200000 ≤ r ∧
          r < pmmTotalFrames s.pmm * 4096) ∧
        (r = 0 ↔ available s = ∅)) ∧
      pmmFreeFrames s.pmm = (available s).card := by
  have hs := reachable_accounted h
  refine ⟨?_, ?_, ?_⟩
  · have htotal := h.invariant
      (I := fun s => Scannable s.pmm ∧ s.pmm.totalFrames = u32 (memKb * 1024) / 4096)
      (fun s op r t hs hc => ?_) ⟨(pmm_init_eq bitmap memKb).1, (pmm_init_eq bitmap memKb).2.1⟩
    · rw [u32_of_lt hmem] at htotal
      exact htotal.2
    · obtain ⟨hscan, ht⟩ := step_scannable hs.1 op
      obtain ⟨-, hrun⟩ := hc
      cases hrun
      exact ⟨hscan, ht.trans hs.2⟩
  · rintro r t ⟨-, hrun⟩
    rcases hs.alloc_cases with ⟨f, hleast, hstep⟩ | ⟨hnone, hstep⟩
    · cases hrun.symm.trans hstep
      obtain ⟨hlt, hge, -⟩ := mem_available.mp (Finset.mem_coe.mp hleast.1)
      have hdiv : f * 4096 / 4096 = f := by omega
      refine ⟨fun _ => ⟨by rwa [hdiv], by omega, by omega, ?_⟩, iff_of_false (by omega) ?_⟩
      · exact Nat.mul_lt_mul_of_pos_right hlt (by decide)
      · exact Finset.ne_empty_of_mem (Finset.mem_coe.mp hleast.1)
    · cases hrun.symm.trans hstep
      exact ⟨fun hne => absurd rfl hne, iff_of_true rfl hnone⟩
  · rw [← hs.frames]
    exact hs.count

/-- With room for two frames: both are taken, the first comes back, and is taken again. -/
theorem lowest_frame_first_reuse :
    ∃ s, Steps FrameCall (startFrames (fun _ => 0) 2056)
      (List.zip [.alloc, .alloc, .alloc, .free 0x200000, .alloc] [0x200000, 0x201000, 0, 0, 0x200000]) s ∧
      pmmFreeFrames s.pmm = (available s).card := by
  have hrun : Steps FrameCall (startFrames (fun _ => 0) 2056)
      (List.zip [.alloc, .alloc, .alloc, .free 0x200000, .alloc] [0x200000, 0x201000, 0, 0, 0x200000]) _ :=
    run_steps (by decide) (by decide)
  obtain ⟨-, -, hcount⟩ := lowest_frame_first (by decide) hrun
  exact ⟨_, hrun, hcount⟩

/-- The counter agrees with the bitmap, and no clear bit belongs to a reserved frame. -/
def Honest (p : Pmm) : Prop :=
  pmmFreeFrames p = (clearFrames p).card ∧ ∀ f ∈ clearFrames p, kernelEnd ≤ f * pmmFrameSize

/-- The address lies past the memory, or in a frame that is in use and not reserved. -/
def Sane (p : Pmm) (addr : Nat) : Prop :=
  pmmTotalFrames p ≤ addr / pmmFrameSize ∨
    kernelEnd ≤ addr ∧ bitmapTest p.bitmap (addr / pmmFrameSize) ≠ 0

instance (p : Pmm) (addr : Nat) : Decidable (Sane p addr) := inferInstanceAs (Decidable (_ ∨ _))

/-- Whatever is freed has a sane address. -/
def SaneFree (p : Pmm) : PmmOp → Prop
  | .alloc => True
  | .free addr => Sane p addr

instance (p : Pmm) : (op : PmmOp) → Decidable (SaneFree p op)
  | .alloc => inferInstanceAs (Decidable True)
  | .free addr => inferInstanceAs (Decidable (Sane p addr))

theorem init_honest (bitmap : Nat → BitVec 32) (memKb : Nat) : Honest (pmmInit bitmap memKb) := by
  obtain ⟨-, -, hc, hclear⟩ := pmm_init_eq bitmap memKb
  refine ⟨by rw [pmmFreeFrames, hc, hclear, Nat.card_Ico], fun f hf => ?_⟩
  rw [hclear, Finset.mem_Ico] at hf
  simp only [kernelEnd, pmmFrameSize]
  omega

/-- A free keeps the books exactly when its address is sane. -/
theorem honest_free_iff (hscan : Scannable p) (h : Honest p) (addr : Nat) :
    Sane p addr ↔ Honest (pmmFree p addr) := by
  have hk : kernelEnd = 2097152 := rfl
  have hs : pmmFrameSize = 4096 := rfl
  unfold Sane pmmTotalFrames
  rw [hs]
  rcases Nat.lt_or_ge (addr / 4096) p.totalFrames with hin | hout
  · rw [pmm_free_in hin, or_iff_right (by omega)]
    generalize hf : addr / 4096 = f at hin ⊢
    have hsmall := hscan.small
    have hcard := clear_card_le p
    have hcount : p.freeFrames = (clearFrames p).card := h.1
    have hadd : pmmFreeFrames (releaseFrame p f) = (clearFrames p).card + 1 := by
      have hsum : pmmFreeFrames (releaseFrame p f) = u32 (p.freeFrames + 1) := rfl
      rw [hsum, u32_of_lt (by omega), hcount]
    have hused : bitmapTest p.bitmap f ≠ 0 ↔ f ∉ clearFrames p := by
      rw [Ne, bitmap_test_zero, clearFrames, mem_unset]
      exact not_congr (and_iff_right hin).symm
    rw [hused]
    unfold Honest
    rw [hadd, clear_of_release hin]
    constructor
    · rintro ⟨hge, hnew⟩
      refine ⟨(Finset.card_insert_of_notMem hnew).symm, ?_⟩
      rw [Finset.forall_mem_insert, hk, hs]
      exact ⟨by omega, h.2⟩
    · rintro ⟨hcard', hall⟩
      refine ⟨?_, fun hmem => ?_⟩
      · have hge := hall f (Finset.mem_insert_self _ _)
        rw [hs] at hge
        omega
      · rw [Finset.insert_eq_of_mem hmem] at hcard'
        omega
  · rw [pmm_free_out hout]
    exact iff_of_true (Or.inl hout) h

/-- What an allocation returns when the books are kept, and that it keeps them. -/
theorem Honest.alloc (h : Honest p) (hscan : Scannable p) (hrun : pmmStep p .alloc = (r, q)) :
    Honest q ∧ (r = 0 ∧ q = p ∨ kernelEnd ≤ r) := by
  have hk : kernelEnd = 2097152 := rfl
  rcases pmm_alloc_cases hscan with ⟨f, hleast, hclaim⟩ | ⟨-, hnone⟩
  · have hmem := Finset.mem_coe.mp hleast.1
    obtain ⟨hlt, -⟩ := mem_unset.mp hmem
    have hge := h.2 f hmem
    have hpos : 0 < (clearFrames p).card := Finset.card_pos.mpr ⟨f, hmem⟩
    have hcard := clear_card_le p
    have hsmall := hscan.small
    have hcount : p.freeFrames = (clearFrames p).card := h.1
    have he : (r, q) = claimFrame p f := hrun.symm.trans hclaim
    obtain ⟨hr, hq⟩ := Prod.ext_iff.mp he
    simp only at hr hq
    subst hq
    refine ⟨⟨?_, fun g hg => ?_⟩, Or.inr ?_⟩
    · rw [pmmFreeFrames, clear_of_claim, Finset.card_erase_of_mem hmem, ← hcount,
        claim_count (by omega) (by omega)]
    · rw [clear_of_claim] at hg
      exact h.2 g (Finset.mem_of_mem_erase hg)
    · rw [hr, hscan.claim_addr hlt]
      simp only [pmmFrameSize] at hge
      omega
  · cases hrun.symm.trans hnone
    exact ⟨h, Or.inl ⟨rfl, rfl⟩⟩

/-- In every run whose frees have sane addresses the counter counts the clear bits
and no reserved frame is handed out; the next free keeps it so just in case its
address is sane. -/
theorem sane_frees_keep_count {trace : List (PmmOp × Nat)}
    (h : Steps (Guarded SaneFree pmmStep) (pmmInit bitmap memKb) trace p) :
    Honest p ∧ (∀ r q, pmmStep p .alloc = (r, q) → r = 0 ∧ q = p ∨ kernelEnd ≤ r) ∧
      ∀ addr, Sane p addr ↔ Honest (pmmFree p addr) := by
  have hp : Scannable p ∧ Honest p := by
    refine h.invariant (I := fun p => Scannable p ∧ Honest p) (fun p op r q hp hc => ?_)
      ⟨(pmm_init_eq bitmap memKb).1, init_honest bitmap memKb⟩
    obtain ⟨hop, hrun⟩ := hc
    refine ⟨?_, ?_⟩
    · have hscan := (step_scannable hp.1 op).1
      rwa [hrun] at hscan
    · cases op with
      | alloc => exact (hp.2.alloc hp.1 hrun).1
      | free addr =>
        cases hrun
        exact (honest_free_iff hp.1 hp.2 addr).mp hop
  exact ⟨hp.2, fun r q hrun => (hp.2.alloc hp.1 hrun).2, honest_free_iff hp.1 hp.2⟩

/-- The one frame above the kernel is taken and freed, and an address past the
memory is ignored. -/
theorem sane_frees_keep_count_single :
    ∃ p, Steps (Guarded SaneFree pmmStep) (pmmInit (fun _ => 0) 2052)
      (List.zip [.alloc, .free 0x200ABC, .free 0x400000] [0x200000, 0, 0]) p ∧ Honest p := by
  have hrun : Steps (Guarded SaneFree pmmStep) (pmmInit (fun _ => 0) 2052)
      (List.zip [.alloc, .free 0x200ABC, .free 0x400000] [0x200000, 0, 0]) _ :=
    run_steps (by decide) (by decide)
  exact ⟨_, hrun, (sane_frees_keep_count hrun).1⟩

/-- A frame freed while free is counted twice, and a kernel frame that is freed
is handed out. -/
theorem any_free_breaks_count :
    ∃ p q, Steps (Guarded (fun _ _ => True) pmmStep) (pmmInit (fun _ => 0) 2052)
        (List.zip [.free 0x200000] [0]) p ∧
      pmmFreeFrames p ≠ (clearFrames p).card ∧
      Steps (Guarded (fun _ _ => True) pmmStep) (pmmInit (fun _ => 0) 2052)
        (List.zip [.free 0x1000, .alloc] [0, 0x1000]) q ∧
      0x1000 < kernelEnd := by
  refine ⟨_, _, run_steps (by decide) (by decide), ?_, run_steps (by decide) (by decide),
    by decide⟩
  decide +kernel

end BaSic.Proofs.PmmFrames
