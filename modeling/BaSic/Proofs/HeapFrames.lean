import BaSic.Proofs.VmmMap
import BaSic.Mm.Heap

namespace BaSic.Proofs.HeapFrames
open Mm Lib PmmScan VmmTables VmmMap

/-- The memory manager, every address `pmm_alloc` returned so far, latest first, and whether a
page fault has halted the kernel. -/
structure Granting where
  vmm : Vmm
  granted : List Nat
  halted : Bool

/-- Callers take frames, and map and unmap pages; `vmm_init` turns paging on. -/
inductive MemOp where
  | alloc
  | map (virt phys flags : UInt32)
  | unmap (virt : UInt32)
  | paging

/-- What the call of `pmm_alloc` returns that looking up the table of an address makes, and the
allocator after the lookup. -/
def tableGrant (v : Vmm) (virt : UInt32) : List Nat × Pmm :=
  match load v (dirSlot v virt) with
  | some entry => if entry &&& pagePresent ≠ 0 then ([], v.pmm) else ([(pmmAlloc v.pmm).1], (pmmAlloc v.pmm).2)
  | none => ([], v.pmm)

/-- A call that looks up a table and ends as said, `none` for a page fault. -/
def lookedUp (s : Granting) (virt : UInt32) (result : Option Vmm) : Granting where
  vmm := result.getD { s.vmm with pmm := (tableGrant s.vmm virt).2 }
  granted := (tableGrant s.vmm virt).1 ++ s.granted
  halted := result.isNone

def memStep (s : Granting) (op : MemOp) : Unit × Granting :=
  if s.halted then ((), s)
  else
    match op with
    | .alloc =>
      ((), { s with
        vmm := { s.vmm with pmm := (pmmAlloc s.vmm.pmm).2 }
        granted := (pmmAlloc s.vmm.pmm).1 :: s.granted })
    | .map virt phys flags => ((), lookedUp s virt (vmmMap s.vmm virt phys flags))
    | .unmap virt => ((), lookedUp s virt (vmmUnmap s.vmm virt))
    | .paging => ((), { s with vmm := { s.vmm with paging := true } })

/-- 32 MB of memory, an empty directory below `KERNEL_END`, and nothing mapped yet. -/
def freshBoot (bitmap : Nat → BitVec 32) (mem : Nat → Nat) (dirFrame : Fin 512) : Granting :=
  ⟨emptied ⟨pmmInit bitmap 32768, mem, dirFrame, false⟩, [], false⟩

/-- The frame at this address has no byte in common with the kernel heap. -/
def OffHeap (addr : Nat) : Prop := addr + pmmFrameSize ≤ heapStart ∨ heapStart + heapSize ≤ addr

instance (addr : Nat) : Decidable (OffHeap addr) := inferInstanceAs (Decidable (_ ∨ _))

/-- What the first `k` calls return, latest first. -/
def grants : Nat → List Nat
  | 0 => []
  | k + 1 => (if k < 7680 then (512 + k) * 4096 else 0) :: grants k

/-- Frames are handed out in order, and those not handed out are clear. -/
structure InOrder (s : Granting) : Prop where
  scannable : Scannable s.vmm.pmm
  clear : clearFrames s.vmm.pmm = Finset.Ico (512 + s.granted.length) 8192
  granted : s.granted = grants s.granted.length

variable {s : Granting} {bitmap : Nat → BitVec 32} {mem : Nat → Nat} {dirFrame : Fin 512} {k r pte : Nat}
  {v w : Vmm} {virt phys flags : UInt32}

theorem mem_grants : r ∈ grants k ↔ ∃ j < k, r = if j < 7680 then (512 + j) * 4096 else 0 := by
  induction k with
  | zero => simp [grants]
  | succ k ih =>
    rw [grants, List.mem_cons, ih]
    constructor
    · rintro (hr | ⟨j, hj, hr⟩)
      · exact ⟨k, by omega, hr⟩
      · exact ⟨j, by omega, hr⟩
    · rintro ⟨j, hj, hr⟩
      by_cases hjk : j = k
      · rw [← hjk]
        exact Or.inl hr
      · exact Or.inr ⟨j, by omega, hr⟩

/-- The next frame in order, or none. -/
theorem InOrder.next (h : InOrder s) (v : Vmm) (hv : v.pmm = (pmmAlloc s.vmm.pmm).2) (halted : Bool) :
    InOrder ⟨v, (pmmAlloc s.vmm.pmm).1 :: s.granted, halted⟩ := by
  have hscan := h.scannable.alloc.1
  generalize hk : s.granted.length = k
  have hclear := h.clear
  have hgrants := h.granted
  rw [hk] at hclear hgrants
  rcases pmm_alloc_cases h.scannable with ⟨f, hleast, hrun⟩ | ⟨hnone, hrun⟩
  · have hmem := Finset.mem_coe.mp hleast.1
    obtain ⟨hlt, -⟩ := mem_unset.mp hmem
    rw [hclear, Finset.mem_Ico] at hmem
    have hf : f = 512 + k := by
      have hle := hleast.2 (Finset.mem_coe.mpr (hclear ▸ Finset.mem_Ico.mpr ⟨Nat.le_refl _, by omega⟩))
      omega
    subst hf
    refine ⟨?_, ?_, ?_⟩
    · simp only [hv]
      exact hscan
    · simp only [hv, List.length_cons, hk, hrun]
      rw [clear_of_claim, hclear]
      ext g
      simp only [Finset.mem_erase, Finset.mem_Ico]
      omega
    · simp only [List.length_cons, hk]
      rw [grants, if_pos (by omega), ← hgrants, hrun, h.scannable.claim_addr hlt]
  · have hend : 8192 ≤ 512 + k := by
      rw [hclear, Finset.Ico_eq_empty_iff] at hnone
      omega
    refine ⟨?_, ?_, ?_⟩
    · simp only [hv]
      exact hscan
    · simp only [hv, List.length_cons, hk, hrun]
      rw [hclear, Finset.Ico_eq_empty (by omega), Finset.Ico_eq_empty (by omega)]
    · simp only [List.length_cons, hk]
      rw [grants, if_neg (by omega), ← hgrants, hrun]

theorem boot_in_order (bitmap : Nat → BitVec 32) (mem : Nat → Nat) (dirFrame : Fin 512) :
    InOrder (freshBoot bitmap mem dirFrame) := by
  obtain ⟨hscan, -, -, hclear⟩ := pmm_init_eq bitmap 32768
  exact ⟨hscan, hclear, rfl⟩

theorem store_pmm {a : UInt32} {x : Nat} (h : store v a x = some w) : w.pmm = v.pmm := by
  obtain ⟨b, -, rfl⟩ := Option.map_eq_some_iff.mp h
  rfl

theorem clear_pmm {a : UInt32} (h : clearPage v a = some w) : w.pmm = v.pmm := by
  obtain ⟨b, -, rfl⟩ := Option.map_eq_some_iff.mp h
  rfl

/-- Wherever its accesses go, `get_table` takes a frame if the entry it reads is not present. -/
theorem get_table_pmm {table : Nat} (h : getTable v virt flags = some (table, w)) : w.pmm = (tableGrant v virt).2 := by
  unfold getTable at h
  unfold tableGrant
  cases hentry : load v (dirSlot v virt) with
  | none =>
    rw [hentry] at h
    cases h
  | some entry =>
    rw [hentry, Option.bind_eq_bind, Option.bind_some] at h
    simp only
    split at h
    · rename_i hp
      obtain ⟨-, rfl⟩ := Prod.mk.inj (Option.some.inj h)
      rw [if_pos hp]
    · rename_i hp
      rw [if_neg hp]
      simp only at h
      split at h
      · obtain ⟨-, rfl⟩ := Prod.mk.inj (Option.some.inj h)
        rfl
      · obtain ⟨c, hclear, h⟩ := Option.bind_eq_some_iff.mp h
        obtain ⟨d, hstore, h⟩ := Option.bind_eq_some_iff.mp h
        obtain ⟨-, rfl⟩ := Prod.mk.inj (Option.some.inj h)
        rw [store_pmm hstore, clear_pmm hclear]

theorem map_pmm (h : vmmMap v virt phys flags = some w) : w.pmm = (tableGrant v virt).2 := by
  obtain ⟨⟨table, u⟩, htable, h⟩ := Option.bind_eq_some_iff.mp h
  have hpmm := get_table_pmm htable
  simp only at h
  split at h
  · obtain rfl := Option.some.inj h
    exact hpmm
  · rw [store_pmm h, hpmm]

theorem unmap_pmm (h : vmmUnmap v virt = some w) : w.pmm = (tableGrant v virt).2 := by
  obtain ⟨⟨table, u⟩, htable, h⟩ := Option.bind_eq_some_iff.mp h
  have hpmm := get_table_pmm htable
  simp only at h
  split at h
  · obtain rfl := Option.some.inj h
    exact hpmm
  · rw [store_pmm h, hpmm]

theorem InOrder.lookup (h : InOrder s) (v : Vmm) (hv : v.pmm = (tableGrant s.vmm virt).2) (halted : Bool) :
    InOrder ⟨v, (tableGrant s.vmm virt).1 ++ s.granted, halted⟩ := by
  have hsame : v.pmm = s.vmm.pmm → InOrder ⟨v, s.granted, halted⟩ := fun hpmm =>
    ⟨hpmm ▸ h.scannable, hpmm ▸ h.clear, h.granted⟩
  unfold tableGrant at hv ⊢
  cases hentry : load s.vmm (dirSlot s.vmm virt) with
  | none =>
    rw [hentry] at hv
    exact hsame hv
  | some entry =>
    rw [hentry] at hv
    simp only at hv ⊢
    by_cases hp : entry &&& pagePresent ≠ 0
    · rw [if_pos hp] at hv ⊢
      exact hsame hv
    · rw [if_neg hp] at hv ⊢
      exact h.next v hv halted

theorem InOrder.looked_up (h : InOrder s) {result : Option Vmm}
    (hr : ∀ w, result = some w → w.pmm = (tableGrant s.vmm virt).2) : InOrder (lookedUp s virt result) := by
  refine h.lookup _ ?_ _
  cases result with
  | none => rfl
  | some w => exact hr w rfl

theorem InOrder.step (h : InOrder s) (op : MemOp) : InOrder (memStep s op).2 := by
  unfold memStep
  by_cases hhalted : s.halted = true
  · rw [if_pos hhalted]
    exact h
  · rw [if_neg hhalted]
    cases op with
    | alloc => exact h.next _ rfl _
    | map virt phys flags => exact h.looked_up (fun _ hw => map_pmm hw)
    | unmap virt => exact h.looked_up (fun _ hw => unmap_pmm hw)
    | paging => exact ⟨h.scannable, h.clear, h.granted⟩

/-- Flags are among PRESENT, WRITE and USER, and with paging on calls are in place. -/
def Proper (s : Granting) : MemOp → Prop
  | .map virt _ flags => flags.toNat < 8 ∧ (s.vmm.paging = true → InPlace s.vmm virt)
  | .unmap virt => s.vmm.paging = true → InPlace s.vmm virt
  | _ => True

/-- Frames are handed out in order, and every table lies in one of them. -/
structure Housed (s : Granting) : Prop where
  order : InOrder s
  backed : Backed s.vmm
  low : s.vmm.dirFrame < 512
  tables : ∀ i t, (view s.vmm).dir i = some t → t * 4096 ∈ s.granted

theorem boot_housed (bitmap : Nat → BitVec 32) (mem : Nat → Nat) (dirFrame : Fin 512) :
    Housed (freshBoot bitmap mem dirFrame) := by
  obtain ⟨hscan, -, -, hclear⟩ := pmm_init_eq bitmap 32768
  have hown : (dirFrame : Nat) ∉ clearFrames (pmmInit bitmap 32768) := by
    rw [hclear, Finset.mem_Ico]
    omega
  refine ⟨boot_in_order bitmap mem dirFrame, emptied_backed ⟨hscan, hown, dirFrame.isLt, rfl⟩, dirFrame.isLt,
    fun i t hi => ?_⟩
  rw [freshBoot, emptied_dir] at hi
  cases hi

theorem Housed.in_place (h : Housed s) (hop : s.vmm.paging = true → InPlace s.vmm virt) : InPlace s.vmm virt := by
  cases hpaging : s.vmm.paging with
  | false => exact in_place_unpaged hpaging h.low (h.backed.fresh virt)
  | true => exact hop hpaging

theorem table_grant_placed (hin : InPlace v virt) : tableGrant v virt =
    if dirEntry v (pdiOf virt) &&& pagePresent ≠ 0 then ([], v.pmm)
    else ([(pmmAlloc v.pmm).1], (pmmAlloc v.pmm).2) := by
  have hword : (v.dirFrame * 4096 + 4 * pdiOf virt) / 4 = v.dirFrame * 1024 + pdiOf virt := by omega
  have hload : load v (dirSlot v virt) = some (dirEntry v (pdiOf virt)) := by
    unfold load
    rw [hin.dir, Option.map_some, hword]
    rfl
  unfold tableGrant
  rw [hload]

theorem Housed.set_entry (h : Housed s) (hf : flags.toNat < 8) (hin : InPlace s.vmm virt)
    (hpmm : (setEntry s.vmm virt flags pte).pmm = (tableGrant s.vmm virt).2) :
    Housed (lookedUp s virt (some (setEntry s.vmm virt flags pte))) := by
  have hb := h.backed
  refine ⟨h.order.lookup _ hpmm _, hb.set_entry hf pte, (set_entry_frame s.vmm virt flags pte).1.trans_lt h.low,
    fun i t hi => ?_⟩
  have hdir : (view (setEntry s.vmm virt flags pte)).dir = (view (placedTable s.vmm virt flags).2).dir :=
    view_dir_congr (fun _ hj => set_entry_dir hb.mapped (hb.fresh virt) hf pte hj)
  have hi : (view (setEntry s.vmm virt flags pte)).dir i = some t := hi
  rw [hdir] at hi
  rcases placed_table_cases s.vmm virt flags with ⟨hp, hrun⟩ | ⟨hp, hr, hrun⟩ | ⟨hp, hr, hrun⟩
  · rw [hrun] at hi
    exact List.mem_append_right _ (h.tables i t hi)
  · rw [hrun] at hi
    exact List.mem_append_right _ (h.tables i t hi)
  · rcases hb.fresh virt with hp' | hz | ⟨f, hlt, hrf, hout, -⟩
    · exact absurd hp hp'
    · exact absurd hz hr
    rw [hrun, hrf, Nat.mul_div_cancel _ (by decide), view_attach s.vmm _ (pdi_lt virt) hlt hf hout] at hi
    simp only [TwoLevel.attach, Function.update_apply] at hi
    split at hi
    · cases hi
      refine List.mem_append_left _ ?_
      rw [table_grant_placed hin, if_neg (not_not.mpr hp), hrf]
      exact List.mem_singleton_self _
    · exact List.mem_append_right _ (h.tables i t hi)

theorem Housed.step (h : Housed s) {op : MemOp} (hop : Proper s op) : Housed (memStep s op).2 := by
  have hm := h.backed.mapped
  unfold memStep
  by_cases hhalted : s.halted = true
  · rw [if_pos hhalted]
    exact h
  · rw [if_neg hhalted]
    cases op with
    | alloc => exact ⟨h.order.next _ rfl _, h.backed.alloc, h.low, fun i t hi => List.mem_cons_of_mem _ (h.tables i t hi)⟩
    | map virt phys flags =>
      obtain ⟨hf, hop⟩ := hop
      have hin := h.in_place hop
      have hrun := @map_placed s.vmm virt phys flags hm (h.backed.fresh virt) hf hin
      simp only [hrun]
      exact h.set_entry hf hin (map_pmm hrun)
    | unmap virt =>
      have hin := h.in_place hop
      have hrun := unmap_placed hm (h.backed.fresh virt) hin
      simp only [hrun]
      exact h.set_entry (by decide) hin (unmap_pmm hrun)
    | paging => exact ⟨⟨h.order.scannable, h.order.clear, h.order.granted⟩, h.backed.paged, h.low, h.tables⟩

/-- Up to 256 calls the frames lie below the heap; the next one is its first page. -/
theorem grants_off_heap : (∀ r ∈ grants k, OffHeap r) ↔ k ≤ 256 := by
  have hstart : heapStart = 3145728 := rfl
  have hsize : heapSize = 1048576 := rfl
  have hframe : pmmFrameSize = 4096 := rfl
  unfold OffHeap
  constructor
  · intro h
    by_contra hk
    have hclash := h 3145728 (mem_grants.mpr ⟨256, by omega, rfl⟩)
    omega
  · intro hk r hr
    obtain ⟨j, hj, rfl⟩ := mem_grants.mp hr
    rw [if_pos (by omega)]
    omega

/-- The state after a sequence of calls from boot. -/
def afterBoot (bitmap : Nat → BitVec 32) (mem : Nat → Nat) (dirFrame : Fin 512) (ops : List MemOp) : Granting :=
  (run memStep (freshBoot bitmap mem dirFrame) ops).2

theorem after_in_order (bitmap : Nat → BitVec 32) (mem : Nat → Nat) (dirFrame : Fin 512) (ops : List MemOp) :
    InOrder (afterBoot bitmap mem dirFrame ops) :=
  run_invariant (Q := fun _ => True) (fun _ op _ h => h.step op) (fun _ _ => trivial)
    (boot_in_order bitmap mem dirFrame)

theorem after_housed {ops : List MemOp} (hops : Along Proper memStep (freshBoot bitmap mem dirFrame) ops) :
    Housed (afterBoot bitmap mem dirFrame ops) :=
  (run_steps hops rfl).guarded_invariant (fun _ _ h hop => h.step hop) (boot_housed bitmap mem dirFrame)

/-- For every sequence of calls after `pmm_init(32768)`, with paging turned on at any point: the
frames handed out avoid the kernel heap if and only if there were at most 256 calls, and then
no page table that calls in place have made lies in it. -/
theorem frames_avoid_heap_iff (bitmap : Nat → BitVec 32) (mem : Nat → Nat) (dirFrame : Fin 512) (ops : List MemOp) :
    ((∀ r ∈ (afterBoot bitmap mem dirFrame ops).granted, OffHeap r) ↔
        (afterBoot bitmap mem dirFrame ops).granted.length ≤ 256) ∧
      (Along Proper memStep (freshBoot bitmap mem dirFrame) ops →
        (afterBoot bitmap mem dirFrame ops).granted.length ≤ 256 →
        ∀ i < 1024, dirEntry (afterBoot bitmap mem dirFrame ops).vmm i &&& pagePresent ≠ 0 →
          OffHeap (dirEntry (afterBoot bitmap mem dirFrame ops).vmm i &&& pageMask)) := by
  have horder := after_in_order bitmap mem dirFrame ops
  have hiff : (∀ r ∈ (afterBoot bitmap mem dirFrame ops).granted, OffHeap r) ↔
      (afterBoot bitmap mem dirFrame ops).granted.length ≤ 256 := by
    have hgrants := grants_off_heap (k := (afterBoot bitmap mem dirFrame ops).granted.length)
    rwa [← horder.granted] at hgrants
  refine ⟨hiff, fun hops hle i hi hp => ?_⟩
  rw [and_page_mask]
  refine hiff.mpr hle _ ((after_housed hops).tables i _ ?_)
  rw [view_dir hi, if_pos ((present_iff _).mp hp)]

theorem replicate_alloc (n : Nat) (s : Granting) (hs : s.halted = false) :
    (run memStep s (List.replicate n .alloc)).2.granted.length = s.granted.length + n ∧
      (run memStep s (List.replicate n .alloc)).2.halted = false ∧
      (run memStep s (List.replicate n .alloc)).2.vmm.paging = s.vmm.paging ∧
      dirEntry (run memStep s (List.replicate n .alloc)).2.vmm = dirEntry s.vmm ∧
      Along Proper memStep s (List.replicate n .alloc) := by
  induction n generalizing s with
  | zero => exact ⟨rfl, hs, rfl, rfl, trivial⟩
  | succ n ih =>
    have hrun : (memStep s .alloc).2 = { s with
        vmm := { s.vmm with pmm := (pmmAlloc s.vmm.pmm).2 }
        granted := (pmmAlloc s.vmm.pmm).1 :: s.granted } := by
      unfold memStep
      rw [hs]
      rfl
    obtain ⟨hlen, hhalted, hpaging, hdir, hproper⟩ := ih (memStep s .alloc).2 (by rw [hrun]; exact hs)
    refine ⟨hlen.trans ?_, hhalted, hpaging.trans ?_, hdir.trans ?_, trivial, hproper⟩
    · rw [hrun, List.length_cons]
      omega
    · rw [hrun]
    · rw [hrun]
      rfl

/-- In a state 256 calls after boot, a new page table comes to lie where the heap begins. -/
theorem Housed.clash (h : Housed s) (hrunning : s.halted = false) (hunpaged : s.vmm.paging = false)
    (hlen : s.granted.length = 256) (hempty : dirEntry s.vmm (pdiOf virt) &&& pagePresent = 0) (hf : flags.toNat < 8)
    (phys : UInt32) :
    heapStart ∈ (memStep s (.map virt phys flags)).2.granted ∧
      dirEntry (memStep s (.map virt phys flags)).2.vmm (pdiOf virt) &&& pageMask = heapStart := by
  have hb := h.backed
  have hin := in_place_unpaged hunpaged h.low (hb.fresh virt)
  have hnext : (pmmAlloc s.vmm.pmm).1 :: s.granted = grants (s.granted.length + 1) :=
    (h.order.next { s.vmm with pmm := (pmmAlloc s.vmm.pmm).2 } rfl false).granted
  rw [hlen, grants] at hnext
  have haddr : (pmmAlloc s.vmm.pmm).1 = heapStart := (List.cons.inj hnext).1
  have hne : heapStart ≠ 0 := by decide
  have hgrant : (tableGrant s.vmm virt).1 = [heapStart] := by
    rw [table_grant_placed hin, if_neg (not_not.mpr hempty), haddr]
  have hrun := @map_placed s.vmm virt phys flags hb.mapped (hb.fresh virt) hf hin
  unfold memStep
  rw [hrunning]
  simp only [Bool.false_eq_true, ↓reduceIte, hrun]
  constructor
  · unfold lookedUp
    rw [hgrant]
    exact List.mem_cons_self
  · have hok : (placedTable s.vmm virt flags).1 ≠ 0 := by
      rw [placed_table_fst, tableOf, if_neg (not_not.mpr hempty), haddr]
      exact hne
    refine (congrArg (· &&& pageMask) (set_entry_dir hb.mapped (hb.fresh virt) hf _ (pdi_lt virt))).trans ?_
    refine (placed_table_entry (hb.fresh virt) hf hok).2.1.trans ?_
    rw [placed_table_fst, tableOf, if_neg (not_not.mpr hempty), haddr]

/-- After 256 calls, mapping a page puts its table on top of the first heap block. -/
theorem page_table_over_heap :
    ∃ s t, s = afterBoot (fun _ => 0) (fun _ => 0) ⟨32, by decide⟩ (List.replicate 256 .alloc) ∧
      t = (memStep s (.map 0x40000000 0x5000 2)).2 ∧ heapStart ∈ t.granted ∧ ¬ OffHeap heapStart ∧
      dirEntry t.vmm (pdiOf 0x40000000) &&& pageMask = heapStart := by
  obtain ⟨hlen, hrunning, hunpaged, hdir, hproper⟩ :=
    replicate_alloc 256 (freshBoot (fun _ => 0) (fun _ => 0) ⟨32, by decide⟩) rfl
  have hhoused : Housed (afterBoot (fun _ => 0) (fun _ => 0) ⟨32, by decide⟩ (List.replicate 256 .alloc)) :=
    after_housed hproper
  unfold afterBoot at hhoused ⊢
  generalize (run memStep (freshBoot (fun _ => 0) (fun _ => 0) ⟨32, by decide⟩) (List.replicate 256 .alloc)).2 = s
    at hlen hrunning hunpaged hdir hhoused ⊢
  have hempty : dirEntry s.vmm (pdiOf 0x40000000) &&& pagePresent = 0 := by
    rw [hdir]
    exact (congrArg (· &&& pagePresent) (emptied_entry (pdi_lt _))).trans rfl
  obtain ⟨hgrant, htable⟩ := hhoused.clash hrunning hunpaged (hlen.trans (Nat.zero_add 256)) hempty
    (by decide : (2 : UInt32).toNat < 8) 0x5000
  exact ⟨s, _, rfl, rfl, hgrant, by decide, htable⟩

end BaSic.Proofs.HeapFrames
