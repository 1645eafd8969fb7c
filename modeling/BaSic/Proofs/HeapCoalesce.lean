import BaSic.Proofs.HeapSystem
import BaSic.Lib.Tiling

namespace BaSic.Proofs.HeapCoalesce
open Mm Lib HeapBlocks HeapAlloc HeapFree HeapSystem

section Merging

variable {m : Mem} {a e p size : Nat} {b : Block} {bs cs : List Block} {s t : HeapState}

/-- No two neighbouring blocks are both free. -/
def Merged (bs : List Block) : Prop :=
  bs.IsChain (fun b d => ¬ (b.free = true ∧ d.free = true))

theorem coalesce_head (b : Block) (bs : List Block) :
    ∃ d ds, coalesce (b :: bs) = d :: ds ∧ d.free = b.free := by
  induction bs generalizing b with
  | nil => exact ⟨b, [], by rw [coalesce], rfl⟩
  | cons d bs ih =>
    rw [coalesce]
    split
    · rename_i hfree
      obtain ⟨c, cs, hc, hf⟩ := ih ⟨b.size + (hdrSize + d.size), true⟩
      exact ⟨c, cs, hc, hf.trans hfree.1.symm⟩
    · exact ⟨b, _, rfl, rfl⟩

theorem coalesce_merged (bs : List Block) : Merged (coalesce bs) := by
  induction bs using coalesce.induct with
  | case1 =>
    rw [coalesce]
    exact List.isChain_nil
  | case2 b =>
    rw [coalesce]
    exact List.isChain_singleton b
  | case3 b d bs hfree ih =>
    rw [coalesce, if_pos hfree]
    exact ih
  | case4 b d bs hfree ih =>
    rw [coalesce, if_neg hfree]
    obtain ⟨c, cs, hc, hf⟩ := coalesce_head d bs
    rw [hc] at ih ⊢
    refine List.isChain_cons_cons.mpr ⟨?_, ih⟩
    rw [hf]
    exact hfree

/-- First fit leaves no free neighbours: the block it splits a rest off was free,
so the block behind it is not. -/
theorem first_fit_merged (hfit : firstFit size a bs = some (p, cs)) (h : Merged bs) :
    Merged cs ∧ ∀ c ∈ cs.head?, c.free = true → ∃ b ∈ bs.head?, b.free = true := by
  induction bs generalizing a cs with
  | nil => simp [firstFit] at hfit
  | cons b bs ih =>
    rcases first_fit_cons hfit with ⟨hb, rfl, rfl⟩ | ⟨-, ds, hq, rfl⟩
    · have hnext : ∀ c : Block, c.free = true → Merged (c :: bs) := by
        intro c hc
        cases bs with
        | nil => exact List.isChain_singleton c
        | cons d bs =>
          obtain ⟨hbd, ht⟩ := List.isChain_cons_cons.mp h
          exact List.isChain_cons_cons.mpr ⟨fun hcd => hbd ⟨hb.1, hcd.2⟩, ht⟩
      have htail : Merged bs := h.tail
      refine ⟨?_, fun c _ _ => ⟨b, by simp, hb.1⟩⟩
      unfold place
      split
      · exact List.isChain_cons_cons.mpr ⟨by simp, hnext _ rfl⟩
      · exact List.isChain_cons.mpr ⟨by simp, htail⟩
    · obtain ⟨hds, hhead⟩ := ih hq h.tail
      refine ⟨List.isChain_cons.mpr ⟨?_, hds⟩, fun c hc hfree => ⟨b, by simp, ?_⟩⟩
      · rintro c hc ⟨hbfree, hcfree⟩
        obtain ⟨d, hd, hdfree⟩ := hhead c hc hcfree
        exact (List.isChain_cons.mp h).1 d hd ⟨hbfree, hdfree⟩
      · cases hc
        exact hfree

/-- Allocated blocks after merging were there before it. -/
theorem of_mem_coalesce {x : Nat} (hx : (x, b) ∈ layout a (coalesce bs)) (hb : b.free = false) :
    (x, b) ∈ layout a bs := by
  induction bs using coalesce.induct generalizing a with
  | case1 =>
    rw [coalesce] at hx
    exact hx
  | case2 c =>
    rw [coalesce] at hx
    exact hx
  | case3 c d bs hfree ih =>
    rw [coalesce, if_pos hfree] at hx
    have hnext : a + hdrSize + (c.size + (hdrSize + d.size)) =
        a + hdrSize + c.size + hdrSize + d.size := by omega
    rcases List.mem_cons.mp (ih hx) with he | ht
    · cases he
      cases hb
    · rw [hnext] at ht
      exact List.mem_cons_of_mem _ (List.mem_cons_of_mem _ ht)
  | case4 c d bs hfree ih =>
    rw [coalesce, if_neg hfree] at hx
    rcases List.mem_cons.mp hx with he | hx
    · rw [he]
      exact List.mem_cons_self
    · exact List.mem_cons_of_mem _ (ih hx)

theorem of_mem_release {x : Nat} (hx : (x, b) ∈ layout a (release p a bs)) (hb : b.free = false) :
    (x, b) ∈ layout a bs ∧ x + hdrSize ≠ p := by
  induction bs generalizing a with
  | nil => simp [release, layout] at hx
  | cons d bs ih =>
    rw [release] at hx
    split at hx
    · rcases List.mem_cons.mp hx with he | hx
      · cases he
        cases hb
      · obtain ⟨ht, hne⟩ := ih hx
        exact ⟨List.mem_cons_of_mem _ ht, hne⟩
    · rename_i hap
      rcases List.mem_cons.mp hx with he | hx
      · cases he
        exact ⟨List.mem_cons_self, hap⟩
      · obtain ⟨ht, hne⟩ := ih hx
        exact ⟨List.mem_cons_of_mem _ ht, hne⟩

theorem of_mem_first_fit (hfit : firstFit size a bs = some (p, cs)) {y : Nat} {c : Block}
    (hy : (y, c) ∈ layout a cs) (hc : c.free = false) : y + hdrSize = p ∨ (y, c) ∈ layout a bs := by
  induction bs generalizing a cs with
  | nil => simp [firstFit] at hfit
  | cons b bs ih =>
    rcases first_fit_cons hfit with ⟨-, rfl, rfl⟩ | ⟨-, ds, hq, rfl⟩
    · obtain ⟨d, rest, hplace, -, -, hrest⟩ := place_front size a b
      rw [layout_place, hplace] at hy
      rcases List.mem_append.mp hy with hy | hy
      · rcases List.mem_cons.mp hy with he | hy
        · cases he
          exact Or.inl rfl
        · cases hc.symm.trans (hrest _ hy)
      · exact Or.inr (List.mem_cons_of_mem _ hy)
    · rcases List.mem_cons.mp hy with he | hy
      · rw [he]
        exact Or.inr List.mem_cons_self
      · rcases ih hq hy with hp | ht
        · exact Or.inl hp
        · exact Or.inr (List.mem_cons_of_mem _ ht)

theorem first_fit_none : firstFit size a bs = none ↔ ∀ b ∈ bs, b.free = true → b.size < size := by
  induction bs generalizing a with
  | nil => simp [firstFit]
  | cons b bs ih =>
    unfold firstFit
    split
    · rename_i hb
      refine iff_of_false (by simp) (fun h => ?_)
      have hlt := h b List.mem_cons_self hb.1
      omega
    · rename_i hb
      rw [Option.map_eq_none_iff, ih, List.forall_mem_cons]
      refine (and_iff_right (fun hfree => ?_)).symm
      by_contra hle
      exact hb ⟨hfree, by omega⟩

theorem block_of_mem {x : Nat} (h : (x, b) ∈ layout a bs) : b ∈ bs := by
  induction bs generalizing a with
  | nil => simp [layout] at h
  | cons d bs ih =>
    rcases List.mem_cons.mp h with he | h
    · cases he
      exact List.mem_cons_self
    · exact List.mem_cons_of_mem _ (ih h)

theorem mem_layout (h : b ∈ bs) : ∃ x, (x, b) ∈ layout a bs := by
  induction bs generalizing a with
  | nil => simp at h
  | cons d bs ih =>
    rcases List.mem_cons.mp h with rfl | h
    · exact ⟨a, List.mem_cons_self⟩
    · obtain ⟨x, hx⟩ := ih (a := a + hdrSize + d.size) h
      exact ⟨x, List.mem_cons_of_mem _ hx⟩

/-- The blocks a heap stores, of which the allocated ones are those clients hold. -/
structure Packed (s : HeapState) (bs : List Block) : Prop where
  stores : Stores s bs
  merged : Merged bs
  held : ∀ x b, (x, b) ∈ layout heapStart bs → b.free = false → x + hdrSize ∈ s.live

theorem init_packed (m : Mem) : Packed (startState m) [⟨heapSize - hdrSize, true⟩] := by
  refine ⟨init_stores m, List.isChain_singleton _, ?_⟩
  intro x b hx hb
  cases List.mem_singleton.mp hx
  cases hb

/-- What a request is answered with: nothing, or the block first fit claims. -/
theorem grant_cases (n : UInt32) (bs : List Block) :
    ((n = 0 ∨ firstFit (align8 n) heapStart bs = none) ∧ grant n bs = (0, bs)) ∨
      (n ≠ 0 ∧ firstFit (align8 n) heapStart bs = some (grant n bs) ∧ (grant n bs).1 ≠ 0) := by
  unfold grant
  by_cases hz : n = 0
  · exact Or.inl ⟨Or.inl hz, if_pos hz⟩
  rw [if_neg hz]
  cases hfit : firstFit (align8 n) heapStart bs with
  | none => exact Or.inl ⟨Or.inr rfl, rfl⟩
  | some found =>
    obtain ⟨x, _, _, _, _, hp, -⟩ := first_fit_some hfit
    refine Or.inr ⟨hz, rfl, ?_⟩
    rw [hp]
    simp [hdrSize]

theorem Packed.malloc (h : Packed s bs) (n : UInt32) :
    ∃ t, heapStep s (.kmalloc n) = .ok ((grant n bs).1, t) ∧ Packed t (grant n bs).2 := by
  obtain ⟨t, hrun, ht, hlive, -⟩ := h.stores.malloc n
  refine ⟨t, hrun, ?_⟩
  rcases grant_cases n bs with ⟨-, hg⟩ | ⟨-, hfit, hne⟩
  · rw [hg] at ht hlive ⊢
    exact ⟨ht, h.merged, fun x b hx hb => hlive ▸ h.held x b hx hb⟩
  · rw [if_neg hne] at hlive
    refine ⟨ht, (first_fit_merged hfit h.merged).1, fun x b hx hb => ?_⟩
    rw [hlive]
    rcases of_mem_first_fit hfit hx hb with hp | hx
    · rw [hp]
      exact List.mem_cons_self
    · exact List.mem_cons_of_mem _ (h.held x b hx hb)

theorem Packed.free (h : Packed s bs) (hp : p ∈ s.live) :
    ∃ t, heapStep s (.kfree p) = .ok (0, t) ∧ Packed t (giveBack p bs) ∧ t.live = s.live.erase p := by
  obtain ⟨t, hrun, ht, hlive, -⟩ := h.stores.free hp
  refine ⟨t, hrun, ⟨ht, coalesce_merged _, fun x b hx hb => ?_⟩, hlive⟩
  obtain ⟨hx, hne⟩ := of_mem_release (of_mem_coalesce hx hb) hb
  rw [hlive]
  exact (List.Nodup.mem_erase_iff h.stores.nodup).mpr ⟨hne, h.held x b hx hb⟩

theorem Packed.step (h : Packed s bs) {op : HeapOp} (hc : HeapCall s op p t) : ∃ cs, Packed t cs := by
  obtain ⟨hop, hrun⟩ := hc
  cases op with
  | kmalloc n =>
    obtain ⟨t', hrun', ht⟩ := h.malloc n
    cases hrun.symm.trans hrun'
    exact ⟨_, ht⟩
  | kfree q =>
    obtain ⟨t', hrun', ht, -⟩ := h.free hop
    cases hrun.symm.trans hrun'
    exact ⟨_, ht⟩
  | store q i v =>
    cases hrun
    exact ⟨bs, h.stores.store hop.1 hop.2, h.merged, h.held⟩

theorem reachable_packed {trace : List (HeapOp × Nat)} (h : Steps HeapCall (startState m) trace s) :
    ∃ bs, Packed s bs :=
  h.invariant (I := fun s => ∃ bs, Packed s bs) (fun _ _ _ _ hs hc => hs.elim fun _ hs => hs.step hc)
    ⟨_, init_packed m⟩

/-- The headers `run` are a maximal contiguous stretch of free blocks. -/
def FreeExtent (m : Mem) (hs run : List Nat) : Prop := Stretch (fun x => freeOf m x ≠ 0) hs run

/-- The bytes one block covering the stretch could hand out. -/
def extentPayload (m : Mem) (run : List Nat) : Nat :=
  (run.map (fun x => hdrSize + sizeOfBlock m x)).sum - hdrSize

/-- Header addresses of the blocks laid out from the start of the heap. -/
def headers (bs : List Block) : List Nat := (layout heapStart bs).map Prod.fst

theorem merged_headers (h : Seg m a bs e) (hm : Merged bs) :
    ((layout a bs).map Prod.fst).IsChain (fun x y => ¬ (freeOf m x ≠ 0 ∧ freeOf m y ≠ 0)) := by
  induction bs generalizing a with
  | nil => exact List.isChain_nil
  | cons b bs ih =>
    obtain ⟨hh, -, ht⟩ := h
    cases bs with
    | nil => exact List.isChain_singleton _
    | cons d bs =>
      refine List.isChain_cons_cons.mpr ⟨?_, ih ht hm.tail⟩
      rw [hh.free_ne, ht.1.free_ne]
      exact (List.isChain_cons_cons.mp hm).1

/-- A request is turned down exactly when it fits into no free extent. -/
theorem Packed.grant_null (h : Packed s bs) {n : UInt32} (hn : n ≠ 0) :
    (grant n bs).1 = 0 ↔
      ∀ run, FreeExtent s.heap.mem (headers bs) run → extentPayload s.heap.mem run < align8 n := by
  have hchain := merged_headers h.stores.seg h.merged
  have hnone : (grant n bs).1 = 0 ↔ firstFit (align8 n) heapStart bs = none := by
    rcases grant_cases n bs with ⟨hz | hfit, hg⟩ | ⟨-, hfit, hne⟩
    · exact absurd hz hn
    · exact iff_of_true (by rw [hg]) hfit
    · exact iff_of_false hne (by simp [hfit])
  have hone : ∀ x, extentPayload s.heap.mem [x] = sizeOfBlock s.heap.mem x := by
    intro x
    simp [extentPayload]
  rw [hnone, first_fit_none]
  constructor
  · intro hall run hrun
    obtain ⟨x, hx, hfree, rfl⟩ := hrun.single hchain
    obtain ⟨⟨_, b⟩, hb, rfl⟩ := List.mem_map.mp hx
    have hhdr := h.stores.seg.hdr hb
    rw [hone, hhdr.size]
    exact hall b (block_of_mem hb) (hhdr.free_ne.mp hfree)
  · intro hall b hb hfree
    obtain ⟨x, hx⟩ := mem_layout hb
    have hhdr := h.stores.seg.hdr hx
    have hlt := hall [x] (stretch_of_mem hchain (List.mem_map.mpr ⟨_, hx, rfl⟩)
      (hhdr.free_ne.mpr hfree))
    rwa [hone, hhdr.size] at hlt

/-- One free block over the whole region, as `heap_init` leaves it. -/
structure SingleFree (h : Heap) : Prop where
  head : h.heapHead = heapStart
  magic : magicOf h.mem heapStart = heapMagic
  size : sizeOfBlock h.mem heapStart = heapSize - hdrSize
  free : freeOf h.mem heapStart = 1
  next : nextOf h.mem heapStart = 0

theorem Packed.single_free (h : Packed s bs) (hlive : s.live = []) : SingleFree s.heap := by
  have hend : heapEnd = heapStart + heapSize := rfl
  have hlt : 0 < heapSize := by decide
  have hfree : ∀ b ∈ bs, b.free = true := by
    intro b hb
    obtain ⟨x, hx⟩ := mem_layout hb
    by_contra hb
    have hmem := h.held x b hx (by simpa using hb)
    simp [hlive] at hmem
  have hseg := h.stores.seg
  have hmerged := h.merged
  cases bs with
  | nil =>
    have hnil : heapStart = heapEnd := hseg
    omega
  | cons b bs =>
    cases bs with
    | cons d bs =>
      exact absurd ⟨hfree b (by simp), hfree d (by simp)⟩ (List.isChain_cons_cons.mp hmerged).1
    | nil =>
      obtain ⟨hh, -, he⟩ := hseg
      have he : heapStart + hdrSize + b.size = heapEnd := he
      have hnext := hh.next
      rw [he, link, if_pos rfl] at hnext
      have hbyte := hh.free
      rw [hfree b (by simp), if_pos rfl] at hbyte
      exact ⟨h.stores.head, hh.magic, by rw [hh.size]; omega, hbyte, hnext⟩

/-- Freeing everything that is held, in whatever order. -/
theorem Packed.free_all (h : Packed s bs) {ps : List Nat} (hps : ps.Perm s.live) :
    ∃ t, Steps HeapCall s (ps.map (fun p => (.kfree p, 0))) t ∧ SingleFree t.heap := by
  induction ps generalizing s bs with
  | nil => exact ⟨s, .nil s, h.single_free (List.nil_perm.mp hps)⟩
  | cons p ps ih =>
    have hp : p ∈ s.live := hps.subset List.mem_cons_self
    obtain ⟨t, hrun, ht, hlive⟩ := h.free hp
    have hrest : ps.Perm t.live := by
      rw [hlive]
      have he := hps.erase p
      rwa [List.erase_cons_head] at he
    obtain ⟨u, hsteps, hu⟩ := ih ht hrest
    exact ⟨u, .cons ⟨hp, hrun⟩ hsteps, hu⟩

/-- Over every run: no two adjacent blocks are free, an allocation fails exactly
when no free extent is large enough, and freeing what is held, in any order,
brings back the one block the heap began with. -/
theorem free_blocks_stay_merged {trace : List (HeapOp × Nat)}
    (h : Steps HeapCall (startState m) trace s) :
    ∃ hs, Tidy s hs ∧ hs.IsChain (fun x y => ¬ (freeOf s.heap.mem x ≠ 0 ∧ freeOf s.heap.mem y ≠ 0)) ∧
      (∀ n : UInt32, 1 ≤ n.toNat → n.toNat ≤ 0x100000 → ∃ p t, HeapCall s (.kmalloc n) p t ∧
        (p = 0 ↔ ¬ ∃ run, FreeExtent s.heap.mem hs run ∧
          (n.toNat + 7) / 8 * 8 ≤ extentPayload s.heap.mem run)) ∧
      ∀ ps : List Nat, ps.Perm s.live →
        ∃ t, Steps HeapCall s (ps.map (fun p => (.kfree p, 0))) t ∧ SingleFree t.heap := by
  obtain ⟨bs, hs⟩ := reachable_packed h
  refine ⟨headers bs, hs.stores.tidy, merged_headers hs.stores.seg hs.merged, ?_,
    fun ps hps => hs.free_all hps⟩
  intro n hpos hle
  obtain ⟨t, hrun, -⟩ := hs.malloc n
  have hn : n ≠ 0 := by
    rintro rfl
    simp at hpos
  have hround : align8 n = (n.toNat + 7) / 8 * 8 := by
    rw [align8_toNat]
    omega
  refine ⟨_, t, ⟨trivial, hrun⟩, ?_⟩
  rw [hs.grant_null hn, hround]
  simp only [not_exists, not_and, Nat.not_le]

/-- Two blocks are taken and given back in the order they were taken. -/
theorem free_blocks_stay_merged_pair :
    ∃ s t, Steps HeapCall (startState (fun _ => 0))
      [(.kmalloc 13, 0x300010), (.kmalloc 8, 0x300030)] s ∧
      Steps HeapCall s [(.kfree 0x300010, 0), (.kfree 0x300030, 0)] t ∧ SingleFree t.heap := by
  have hrun : ∃ s, s.live = [0x300030, 0x300010] ∧ Steps HeapCall (startState (fun _ => 0))
      [(.kmalloc 13, 0x300010), (.kmalloc 8, 0x300030)] s :=
    ⟨_, rfl, .cons ⟨trivial, rfl⟩ (.cons ⟨trivial, rfl⟩ (.nil _))⟩
  obtain ⟨s, hlive, hrun⟩ := hrun
  obtain ⟨_, -, -, -, hfree⟩ := free_blocks_stay_merged hrun
  obtain ⟨t, hfrees, ht⟩ := hfree [0x300010, 0x300030] (hlive ▸ List.Perm.swap _ _ _)
  exact ⟨s, t, hrun, hfrees, ht⟩

end Merging

section Usable

variable {m : Mem} {s t : HeapState} {bs : List Block} {p : Nat} {n : UInt32}

/-- Some block on the list is free. -/
def SomeFree (h : Heap) : Prop :=
  ∃ x, Reach (nextOf h.mem) (· ≠ 0) h.heapHead x ∧ freeOf h.mem x ≠ 0

/-- A pointer handed out for `n` bytes leads a block of at least `n` usable bytes. -/
def Covers (s : HeapState) (n : UInt32) : Prop :=
  ∀ p t, HeapCall s (.kmalloc n) p t → p ≠ 0 → n.toNat ≤ sizeOfBlock t.heap.mem (p - hdrSize)

/-- The block behind a live pointer, with its size in its header. -/
theorem live_block (h : Stores s bs) (hp : p ∈ s.live) :
    ∃ b, (p - hdrSize, b) ∈ layout heapStart bs ∧ sizeOfBlock s.heap.mem (p - hdrSize) = b.size := by
  obtain ⟨x, b, hx, -, rfl⟩ := h.owned p hp
  rw [Nat.add_sub_cancel]
  exact ⟨b, hx, (h.seg.hdr hx).size⟩

/-- The free blocks on the list are those of the blocks stored. -/
theorem some_free_iff (h : Stores s bs) : SomeFree s.heap ↔ ∃ b ∈ bs, b.free = true := by
  have hstart : heapStart = 3145728 := rfl
  have hpath := h.seg.path
  rw [h.link] at hpath
  have hlive : ∀ x ∈ (layout heapStart bs).map Prod.fst, x ≠ 0 := by
    intro x hx
    obtain ⟨⟨_, b⟩, hb, rfl⟩ := List.mem_map.mp hx
    have hbounds := h.seg.bounds hb
    omega
  have hmet : ∀ x, Reach (nextOf s.heap.mem) (· ≠ 0) s.heap.heapHead x ↔
      x ∈ (layout heapStart bs).map Prod.fst := fun x => hpath.reach_iff hlive (fun hzero => hzero rfl)
  constructor
  · rintro ⟨x, hx, hfree⟩
    obtain ⟨⟨_, b⟩, hb, rfl⟩ := List.mem_map.mp ((hmet x).mp hx)
    exact ⟨b, block_of_mem hb, (h.seg.hdr hb).free_ne.mp hfree⟩
  · rintro ⟨b, hb, hfree⟩
    obtain ⟨x, hx⟩ := mem_layout (a := heapStart) hb
    exact ⟨x, (hmet x).mpr (List.mem_map.mpr ⟨_, hx, rfl⟩), (h.seg.hdr hx).free_ne.mpr hfree⟩

/-- Rounding up does not wrap, and the block claimed has the rounded size. -/
theorem small_covered (h : Stores s bs) (hn : n.toNat ≤ 0xFFFFFFF8) : Covers s n := by
  intro p t hc hp
  obtain ⟨u, hrun, hu, hlive, -⟩ := h.malloc n
  cases hc.2.symm.trans hrun
  have hround : n.toNat ≤ align8 n := by
    rw [align8_toNat]
    omega
  rcases grant_cases n bs with ⟨-, hg⟩ | ⟨-, hfit, hne⟩
  · rw [hg] at hp
    exact absurd rfl hp
  · have hfound : firstFit (align8 n) heapStart bs = some ((grant n bs).1, (grant n bs).2) := hfit
    obtain ⟨x, _, _, _, _, he, ⟨d, hd, _, hsize⟩, -⟩ := first_fit_some hfound
    rw [he, Nat.add_sub_cancel, (hu.seg.hdr hd).size]
    exact Nat.le_trans hround hsize

/-- Rounding up wraps to 0, which any free block satisfies; no block is as large as the request. -/
theorem large_covered_iff (h : Stores s bs) (hn : 0xFFFFFFF8 < n.toNat) : Covers s n ↔ ¬ SomeFree s.heap := by
  have hlt := n.toNat_lt
  have hround : align8 n = 0 := by
    rw [align8_toNat]
    omega
  have hzero : n ≠ 0 := by
    rintro rfl
    cases hn
  obtain ⟨t, hrun, ht, hlive, -⟩ := h.malloc n
  rw [some_free_iff h]
  constructor
  · rintro hcovers ⟨b, hb, hfree⟩
    rcases grant_cases n bs with ⟨hz | hfit, -⟩ | ⟨-, -, hne⟩
    · exact hzero hz
    · rw [hround, first_fit_none] at hfit
      exact Nat.not_lt_zero _ (hfit b hb hfree)
    · have hle := hcovers _ t ⟨trivial, hrun⟩ hne
      rw [if_neg hne] at hlive
      obtain ⟨d, hd, hsize⟩ := live_block ht (hlive ▸ List.mem_cons_self)
      have hbounds := ht.seg.bounds hd
      have hend : heapEnd = 4194304 := rfl
      omega
  · intro hnone p u hc hp
    cases hc.2.symm.trans hrun
    rcases grant_cases n bs with ⟨-, hg⟩ | ⟨-, hfit, -⟩
    · rw [hg] at hp
      exact absurd rfl hp
    · obtain ⟨x, b, hx, hfree, -⟩ := first_fit_some hfit
      exact absurd ⟨b, block_of_mem hx, hfree⟩ hnone

/-- After every run, a request is covered exactly when rounding it up does not wrap, or no
block is free to answer it with. -/
theorem usable_bytes_iff {trace : List (HeapOp × Nat)} (h : Steps HeapCall (startState m) trace s) (n : UInt32) :
    Covers s n ↔ n.toNat ≤ 0xFFFFFFF8 ∨ ¬ SomeFree s.heap := by
  obtain ⟨bs, hs⟩ := reachable_stores h
  by_cases hn : n.toNat ≤ 0xFFFFFFF8
  · exact iff_of_true (small_covered hs hn) (Or.inl hn)
  · rw [or_iff_right hn]
    exact large_covered_iff hs (by omega)

/-- After two requests, the second of which wraps. -/
theorem usable_bytes_iff_wrapped :
    ∃ s, Steps HeapCall (startState (fun _ => 0)) [(.kmalloc 13, 0x300010), (.kmalloc 0xFFFFFFFF, 0x300030)] s ∧
      (Covers s 24 ↔ (24 : UInt32).toNat ≤ 0xFFFFFFF8 ∨ ¬ SomeFree s.heap) := by
  have hrun : ∃ s, Steps HeapCall (startState (fun _ => 0))
      [(.kmalloc 13, 0x300010), (.kmalloc 0xFFFFFFFF, 0x300030)] s :=
    ⟨_, .cons ⟨trivial, rfl⟩ (.cons ⟨trivial, rfl⟩ (.nil _))⟩
  obtain ⟨s, hrun⟩ := hrun
  exact ⟨s, hrun, usable_bytes_iff hrun 24⟩

/-- The largest request is answered with a block of no usable byte. -/
theorem largest_request_empty :
    ¬ ∀ (m : Mem) (s : HeapState) (trace : List (HeapOp × Nat)) (n : UInt32),
      Steps HeapCall (startState m) trace s → n ≠ 0 → Covers s n := by
  intro hall
  have hcovers := hall (fun _ => 0) _ [] 0xFFFFFFFF (.nil _) (by decide) 0x300010 _ ⟨trivial, rfl⟩ (by decide)
  revert hcovers
  decide

end Usable

end BaSic.Proofs.HeapCoalesce
