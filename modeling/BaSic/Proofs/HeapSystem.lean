import BaSic.Proofs.HeapFree
import BaSic.Lib.Steps

namespace BaSic.Proofs.HeapSystem
open Mm Lib HeapBlocks HeapAlloc HeapFree

/-- The heap together with the pointers its clients hold. -/
structure HeapState where
  heap : Heap
  live : List Nat

inductive HeapOp where
  | kmalloc (size : UInt32)
  | kfree (ptr : Nat)
  | store (ptr addr : Nat) (value : UInt8)

/-- The address `i` lies in the usable bytes of the block behind `p`. -/
def Payload (m : Mem) (p i : Nat) : Prop := p ≤ i ∧ i < p + sizeOfBlock m (p - hdrSize)

instance (m : Mem) (p i : Nat) : Decidable (Payload m p i) :=
  inferInstanceAs (Decidable (_ ∧ _))

/-- Clients free what they hold and write inside their own blocks. -/
def Permitted (s : HeapState) : HeapOp → Prop
  | .kmalloc _ => True
  | .kfree p => p ∈ s.live
  | .store p i _ => p ∈ s.live ∧ Payload s.heap.mem p i

instance (s : HeapState) : (op : HeapOp) → Decidable (Permitted s op)
  | .kmalloc _ => inferInstanceAs (Decidable True)
  | .kfree p => inferInstanceAs (Decidable (p ∈ s.live))
  | .store p i _ => inferInstanceAs (Decidable (p ∈ s.live ∧ Payload s.heap.mem p i))

def heapStep (s : HeapState) : HeapOp → Except Fault (Nat × HeapState)
  | .kmalloc size => do
    let (p, h) ← kmalloc s.heap size
    return (p, ⟨h, if p = 0 then s.live else p :: s.live⟩)
  | .kfree p => do
    let h ← kfree s.heap p
    return (0, ⟨h, s.live.erase p⟩)
  | .store _ i v => .ok (0, { s with heap.mem := Function.update s.heap.mem i v })

/-- A call the clients may make, and what it does. -/
def HeapCall (s : HeapState) (op : HeapOp) (r : Nat) (t : HeapState) : Prop :=
  Permitted s op ∧ heapStep s op = .ok (r, t)

def startState (m : Mem) : HeapState := ⟨heapInit m, []⟩

/-- The heap stores the blocks `bs`, and the live pointers are allocated ones. -/
structure Stores (s : HeapState) (bs : List Block) : Prop where
  head : s.heap.heapHead = heapStart
  seg : Seg s.heap.mem heapStart bs heapEnd
  nodup : s.live.Nodup
  owned : ∀ p ∈ s.live, ∃ x b, (x, b) ∈ layout heapStart bs ∧ b.free = false ∧ p = x + hdrSize

variable {s t : HeapState} {bs : List Block}

theorem init_stores (m : Mem) : Stores (startState m) [⟨heapSize - hdrSize, true⟩] := by
  have hstart : heapStart = 3145728 := rfl
  refine ⟨rfl, ⟨⟨?_, ?_, ?_, ?_⟩, by decide, rfl⟩, List.nodup_nil, by simp [startState]⟩
  · simp (disch := omega) only [startState, heapInit, magicOf, setMagic, setSize, setNext,
      read32_set_free, read32_write32_apart, read32_write32]
    decide
  · simp (disch := omega) only [startState, heapInit, sizeOfBlock, setMagic, setSize, setNext,
      read32_set_free, read32_write32_apart, read32_write32]
    decide
  · simp only [startState, heapInit, freeOf, setNext]
    rw [write32_outside _ _ _ _ (by omega)]
    simp [setFree]
  · simp (disch := omega) only [startState, heapInit, nextOf, setNext, read32_write32]
    decide

theorem Stores.fuel (h : Stores s bs) : bs.length ≤ heapFuel := by
  have hlen := h.seg.length_le
  rw [show hdrSize = 16 from rfl] at hlen
  have hfuel : heapFuel = 65536 := rfl
  have hroom : heapEnd - heapStart = 1048576 := rfl
  omega

theorem Stores.link (h : Stores s bs) : link heapStart = s.heap.heapHead := h.head.symm

/-- A payload byte of one block is no header byte. -/
theorem Stores.payload (h : Stores s bs) {p i : Nat} (hp : p ∈ s.live) (hi : Payload s.heap.mem p i)
    {x : Nat} {b : Block} (hx : (x, b) ∈ layout heapStart bs) : i < x ∨ x + hdrSize ≤ i := by
  obtain ⟨y, d, hy, _, rfl⟩ := h.owned p hp
  obtain ⟨hlo, hhi⟩ := hi
  have hH : hdrSize = 16 := rfl
  have hs := (h.seg.hdr hy).size
  rw [show y + hdrSize - hdrSize = y by omega, hs] at hhi
  by_cases hxy : x = y
  · omega
  · have hap := h.seg.apart hx hy hxy
    omega

/-- An allocation answers and leaves blocks as `grant` says. -/
theorem Stores.malloc (h : Stores s bs) (size : UInt32) :
    ∃ t, heapStep s (.kmalloc size) = .ok ((grant size bs).1, t) ∧ Stores t (grant size bs).2 ∧
      t.live = (if (grant size bs).1 = 0 then s.live else (grant size bs).1 :: s.live) ∧
      ∀ p ∈ s.live, ∀ i, Payload s.heap.mem p i → t.heap.mem i = s.heap.mem i := by
  have hstart : 0 < heapStart := by decide
  simp only [heapStep, kmalloc, grant]
  by_cases hz : size = 0
  · simp only [if_pos hz]
    exact ⟨s, rfl, h, rfl, fun _ _ _ _ => rfl⟩
  simp only [if_neg hz]
  cases hfit : firstFit (align8 size) heapStart bs with
  | none =>
    have hrun := kmalloc_from_none h.seg _ _ h.fuel hfit
    rw [h.link] at hrun
    rw [hrun]
    exact ⟨{ s with heap.printed := .outOfMemory :: s.heap.printed }, rfl,
      ⟨h.head, h.seg, h.nodup, h.owned⟩, rfl, fun _ _ _ _ => rfl⟩
  | some found =>
    obtain ⟨p, cs⟩ := found
    obtain ⟨m', hrun, hseg, x, b, hx, hb, rfl, hframe⟩ :=
      kmalloc_from_some h.seg hstart _ (align8_mod size) _ h.fuel hfit
    obtain ⟨_, _, _, _, _, he, ⟨d, hd, hfree, _⟩, hrest⟩ := first_fit_some hfit
    cases Nat.add_right_cancel he
    rw [h.link] at hrun
    rw [hrun]
    have hne : x + hdrSize ≠ 0 := by simp [hdrSize]
    -- the block handed out was free, the blocks of live pointers are not
    have hother : ∀ y c, (y, c) ∈ layout heapStart bs → c.free = false → y ≠ x := by
      intro y c hy hc hyx
      rw [hyx] at hy
      have hsame := layout_unique hy hx
      rw [hsame, hb] at hc
      cases hc
    refine ⟨⟨{ s.heap with mem := m' }, (x + hdrSize) :: s.live⟩, ?_,
      ⟨h.head, hseg, List.nodup_cons.mpr ⟨?_, h.nodup⟩, ?_⟩, (if_neg hne).symm, ?_⟩
    · simp only [bind, Except.bind, pure, Except.pure, if_neg hne]
    · intro hmem
      obtain ⟨y, c, hy, hc, hp⟩ := h.owned _ hmem
      exact hother y c hy hc (by omega)
    · intro p hp
      rcases List.mem_cons.mp hp with rfl | hp
      · exact ⟨x, d, hd, hfree, rfl⟩
      · obtain ⟨y, c, hy, hc, hp⟩ := h.owned p hp
        exact ⟨y, c, hrest y c hy (hother y c hy hc), hc, hp⟩
    · intro p hp i hi
      obtain ⟨y, c, hy, hc, rfl⟩ := h.owned p hp
      have hap := h.seg.apart hx hy (hother y c hy hc).symm
      obtain ⟨hlo, hhi⟩ := hi
      rw [show y + hdrSize - hdrSize = y by omega, (h.seg.hdr hy).size] at hhi
      exact hframe i (by omega)

/-- A free leaves the blocks as `giveBack` says. -/
theorem Stores.free (h : Stores s bs) {p : Nat} (hp : p ∈ s.live) :
    ∃ t, heapStep s (.kfree p) = .ok (0, t) ∧ Stores t (giveBack p bs) ∧ t.live = s.live.erase p ∧
      ∀ q ∈ s.live, ∀ i, Payload s.heap.mem q i → t.heap.mem i = s.heap.mem i := by
  have hstart : 0 < heapStart := by decide
  obtain ⟨x, b, hx, hb, rfl⟩ := h.owned p hp
  have hH : hdrSize = 16 := rfl
  have hle := h.seg.bounds hx
  have hend : heapEnd = 4194304 := rfl
  have hhdr : sub32 (x + hdrSize) hdrSize = x := by
    rw [sub32_of_le (by omega) (by omega)]
    omega
  have hlen : (release (x + hdrSize) heapStart bs).length ≤ heapFuel := by
    rw [release_length]
    exact h.fuel
  obtain ⟨m', hrun, hseg, hframe⟩ := merge_from_eq (release_seg h.seg hx) hstart heapFuel hlen
  simp only [heapStep, kfree]
  rw [if_neg (by omega), hhdr, if_neg (not_not.mpr (h.seg.hdr hx).magic), mergeFreeBlocks]
  rw [h.link] at hrun
  simp only
  rw [hrun]
  refine ⟨⟨{ s.heap with mem := m' }, s.live.erase (x + hdrSize)⟩, rfl,
    ⟨h.head, hseg, h.nodup.erase _, ?_⟩, rfl, ?_⟩
  · intro q hq
    obtain ⟨hne, hq⟩ := (List.Nodup.mem_erase_iff h.nodup).mp hq
    obtain ⟨y, d, hy, hd, rfl⟩ := h.owned q hq
    exact ⟨y, d, mem_layout_coalesce (mem_layout_release hy hne) hd, hd, rfl⟩
  · intro q hq i hi
    have hskip := h.payload hq hi hx
    rw [← set_free_outside s.heap.mem x i 1 (by omega)]
    refine hframe i (fun y d hy => ?_)
    obtain ⟨c, hc⟩ := starts_release hy
    exact h.payload hq hi hc

theorem Stores.store (h : Stores s bs) {p i : Nat} {v : UInt8} (hp : p ∈ s.live)
    (hi : Payload s.heap.mem p i) :
    Stores { s with heap.mem := Function.update s.heap.mem i v } bs := by
  refine ⟨h.head, h.seg.congr_hdrs (fun x b hx j hj hj' => ?_), h.nodup, h.owned⟩
  have hne := h.payload hp hi hx
  exact Function.update_of_ne (by omega) _ _

/-- Every permitted call returns, keeps the blocks stored, and leaves alone each
payload byte that is not the target of a client's store. -/
theorem Stores.step (h : Stores s bs) (op : HeapOp) (hop : Permitted s op) :
    ∃ r t cs, heapStep s op = .ok (r, t) ∧ Stores t cs ∧
      ∀ p ∈ s.live, ∀ i, Payload s.heap.mem p i → (∀ q v, op ≠ .store q i v) →
        t.heap.mem i = s.heap.mem i := by
  cases op with
  | kmalloc size =>
    obtain ⟨t, hrun, ht, -, hframe⟩ := h.malloc size
    exact ⟨_, t, _, hrun, ht, fun p hp i hi _ => hframe p hp i hi⟩
  | kfree p =>
    obtain ⟨t, hrun, ht, -, hframe⟩ := h.free hop
    exact ⟨_, t, _, hrun, ht, fun q hq i hi _ => hframe q hq i hi⟩
  | store p j v =>
    refine ⟨0, { s with heap.mem := Function.update s.heap.mem j v }, bs, rfl, h.store hop.1 hop.2,
      fun q hq i hi hne => ?_⟩
    refine Function.update_of_ne (fun hij => ?_) _ _
    exact hne p v (by rw [hij])

theorem reachable_stores {m : Mem} {trace : List (HeapOp × Nat)}
    (h : Steps HeapCall (startState m) trace s) : ∃ bs, Stores s bs := by
  refine h.invariant (I := fun s => ∃ bs, Stores s bs) (fun s op r t hs hc => ?_) ⟨_, init_stores m⟩
  obtain ⟨bs, hs⟩ := hs
  obtain ⟨_, _, cs, hrun, ht, -⟩ := hs.step op hc.1
  cases hrun.symm.trans hc.2
  exact ⟨cs, ht⟩

/-- The headers `hs` met from the head tile the heap region, and the payloads of
the live pointers are aligned and overlap neither a header nor each other. -/
structure Tidy (s : HeapState) (hs : List Nat) : Prop where
  path : Path (nextOf s.heap.mem) s.heap.heapHead hs 0
  tiles : Tiles 0x300000 (hs.map (fun x => (x, hdrSize + sizeOfBlock s.heap.mem x))) 0x400000
  magic : ∀ x ∈ hs, magicOf s.heap.mem x = heapMagic
  nodup : s.live.Nodup
  owner : ∀ p ∈ s.live, p - hdrSize ∈ hs
  aligned : ∀ p ∈ s.live, p % 8 = 0
  offHeaders : ∀ p ∈ s.live, ∀ x ∈ hs, ∀ i, Payload s.heap.mem p i → i < x ∨ x + hdrSize ≤ i
  apart : ∀ p ∈ s.live, ∀ q ∈ s.live, p ≠ q → ∀ i, Payload s.heap.mem p i → ¬ Payload s.heap.mem q i

theorem Stores.tidy (h : Stores s bs) : Tidy s ((layout heapStart bs).map Prod.fst) := by
  have hH : hdrSize = 16 := rfl
  have hmem : ∀ x, x ∈ (layout heapStart bs).map Prod.fst → ∃ b, (x, b) ∈ layout heapStart bs := by
    intro x hx
    obtain ⟨⟨_, b⟩, hb, rfl⟩ := List.mem_map.mp hx
    exact ⟨b, hb⟩
  refine ⟨?_, ?_, ?_, h.nodup, ?_, ?_, ?_, ?_⟩
  · rw [← h.link]
    exact h.seg.path
  · have ht := h.seg.tiles
    rw [List.map_map]
    rw [List.map_congr_left (g := fun p => (p.1, hdrSize + p.2.size))]
    · exact ht
    · rintro ⟨x, b⟩ hx
      simp only [Function.comp_apply, (h.seg.hdr hx).size]
  · intro x hx
    obtain ⟨b, hb⟩ := hmem x hx
    exact (h.seg.hdr hb).magic
  · intro p hp
    obtain ⟨x, b, hx, _, rfl⟩ := h.owned p hp
    exact List.mem_map.mpr ⟨_, hx, by omega⟩
  · intro p hp
    obtain ⟨x, b, hx, _, rfl⟩ := h.owned p hp
    have hal := h.seg.aligned (by decide) hx
    omega
  · intro p hp x hx i hi
    obtain ⟨b, hb⟩ := hmem x hx
    exact h.payload hp hi hb
  · intro p hp q hq hne i hpi hqi
    obtain ⟨x, b, hx, _, rfl⟩ := h.owned p hp
    obtain ⟨y, d, hy, _, rfl⟩ := h.owned q hq
    obtain ⟨hp0, hp1⟩ := hpi
    obtain ⟨hq0, hq1⟩ := hqi
    rw [show x + hdrSize - hdrSize = x by omega, (h.seg.hdr hx).size] at hp1
    rw [show y + hdrSize - hdrSize = y by omega, (h.seg.hdr hy).size] at hq1
    have hap := h.seg.apart hx hy (by omega)
    omega

/-- Over every run of allocations, frees and client stores: the heap stays tidy,
no call hangs, and no heap operation touches a byte a client holds. -/
theorem heap_stays_tidy {m : Mem} {trace : List (HeapOp × Nat)}
    (h : Steps HeapCall (startState m) trace s) :
    (∃ hs, Tidy s hs) ∧
      ∀ op, Permitted s op → ∃ r t, HeapCall s op r t ∧
        ∀ p ∈ s.live, ∀ i, Payload s.heap.mem p i → (∀ q v, op ≠ .store q i v) →
          t.heap.mem i = s.heap.mem i := by
  obtain ⟨bs, hs⟩ := reachable_stores h
  refine ⟨⟨_, hs.tidy⟩, fun op hop => ?_⟩
  obtain ⟨r, t, _, hrun, -, hframe⟩ := hs.step op hop
  exact ⟨r, t, ⟨hop, hrun⟩, hframe⟩

/-- Two blocks are taken and the first is given back. -/
theorem heap_stays_tidy_reuse :
    ∃ s hs, Steps HeapCall (startState (fun _ => 0))
      [(.kmalloc 13, 0x300010), (.kmalloc 8, 0x300030), (.store 0x300030 0x300037 7, 0),
        (.kfree 0x300010, 0)] s ∧ Tidy s hs := by
  have hrun : ∃ s, Steps HeapCall (startState (fun _ => 0))
      [(.kmalloc 13, 0x300010), (.kmalloc 8, 0x300030), (.store 0x300030 0x300037 7, 0),
        (.kfree 0x300010, 0)] s :=
    ⟨_, .cons ⟨trivial, rfl⟩ (.cons ⟨trivial, rfl⟩ (.cons ⟨by decide, rfl⟩
      (.cons ⟨by decide, rfl⟩ (.nil _))))⟩
  obtain ⟨s, hrun⟩ := hrun
  obtain ⟨⟨hs, htidy⟩, -⟩ := heap_stays_tidy hrun
  exact ⟨s, hs, hrun, htidy⟩

end BaSic.Proofs.HeapSystem
