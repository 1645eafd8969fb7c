import BaSic.Proofs.HeapAlloc

namespace BaSic.Proofs.HeapFree
open Mm Lib HeapBlocks HeapAlloc

variable {m m' : Mem} {a c e : Nat} {b d : Block} {bs cs : List Block}

/-- Joining two free neighbours rewrites only the first one's header. -/
theorem join_hdr (hb : Hdr m a b) (hfree : b.free = true)
    (hle : a + hdrSize + b.size + hdrSize + d.size ≤ heapEnd) :
    Hdr (setNext (setSize m a (b.size + (hdrSize + d.size))) a
        (link (a + hdrSize + b.size + hdrSize + d.size))) a
      ⟨b.size + (hdrSize + d.size), true⟩ := by
  have hH : hdrSize = 16 := rfl
  have hend : heapEnd = 4194304 := rfl
  refine ⟨?_, ?_, ?_, ?_⟩
  · simp (disch := omega) only [magicOf, setSize, setNext, read32_write32_apart]
    exact hb.magic
  · simp (disch := omega) only [sizeOfBlock, setSize, setNext, read32_write32_apart, read32_write32]
    omega
  · simp only [freeOf, setSize, setNext]
    rw [write32_outside _ _ _ _ (by omega), write32_outside _ _ _ _ (by omega)]
    have hf := hb.free
    rw [hfree] at hf
    exact hf
  · simp only [nextOf, setNext, read32_write32]
    rw [Nat.mod_eq_of_lt (link_lt hle)]
    congr 1
    omega

theorem join_outside (m : Mem) (a s n : Nat) {i : Nat} (hi : i < a ∨ a + hdrSize ≤ i) :
    setNext (setSize m a s) a n i = m i := by
  simp only [hdrSize] at hi
  simp only [setNext, setSize]
  rw [write32_outside _ _ _ _ (by omega), write32_outside _ _ _ _ (by omega)]

/-- One round of the merging loop at a block that has a successor. -/
theorem merge_step (h : Seg m a (b :: d :: bs) heapEnd) (ha : 0 < a) (fuel : Nat) :
    mergeFrom (fuel + 1) m (link a) =
      if b.free = true ∧ d.free = true then
        mergeFrom fuel (setNext (setSize m a (b.size + (hdrSize + d.size))) a
          (link (a + hdrSize + b.size + hdrSize + d.size))) (link a)
      else mergeFrom fuel m (link (a + hdrSize + b.size)) := by
  have hH : hdrSize = 16 := rfl
  have hlink := h.cons_link.1
  have hlink' := h.2.2.cons_link.1
  have hle := h.2.2.cons_lt
  have hnext : nextOf m a = a + hdrSize + b.size := by rw [h.1.next, hlink']
  have hcond : (freeOf m a ≠ 0 ∧ freeOf m (nextOf m a) ≠ 0) ↔ (b.free = true ∧ d.free = true) := by
    rw [hnext, h.1.free_ne, h.2.2.1.free_ne]
  conv =>
    left
    unfold mergeFrom
  rw [hlink, hlink', if_neg (by omega)]
  simp only
  by_cases hfree : b.free = true ∧ d.free = true
  · rw [if_pos hfree, if_pos (hcond.mpr hfree), hnext, h.1.size, h.2.2.1.size]
    have hskip : ∀ v x, x + 16 ≤ a ∨ a + 8 ≤ x →
        read32 (setSize m a v) x = read32 m x :=
      fun v x hx => read32_write32_apart _ _ _ _ (by omega)
    have hn := hnext
    have hn' := h.2.2.1.next
    simp only [nextOf] at hn hn' ⊢
    rw [hskip _ (a + 12) (by omega), hn, hskip _ _ (by omega), hn']
  · rw [if_neg hfree, if_neg (hfree ∘ hcond.mp), hnext]

/-- The merging loop computes `coalesce`, within the fuel the heap has room for,
and writes nothing but headers. -/
theorem merge_from_eq (h : Seg m a bs heapEnd) (ha : 0 < a) (fuel : Nat)
    (hfuel : bs.length ≤ fuel) :
    ∃ m', mergeFrom fuel m (link a) = .ok m' ∧ Seg m' a (coalesce bs) heapEnd ∧
      ∀ i, (∀ x b, (x, b) ∈ layout a bs → i < x ∨ x + hdrSize ≤ i) → m' i = m i := by
  induction bs using coalesce.induct generalizing a m fuel with
  | case1 =>
    cases h
    unfold mergeFrom
    exact ⟨m, if_pos (Or.inl (if_pos rfl)), by rw [coalesce, Seg], fun _ _ => rfl⟩
  | case2 b =>
    unfold mergeFrom coalesce
    refine ⟨m, if_pos (Or.inr ?_), h, fun _ _ => rfl⟩
    rw [h.cons_link.1, h.1.next, h.2.2]
    exact if_pos rfl
  | case3 b d bs hfree ih =>
    obtain ⟨hb, hbal, hd, hdal, ht⟩ := id h
    have hH : hdrSize = 16 := rfl
    have hle := ht.le
    have hnext : a + hdrSize + (b.size + (hdrSize + d.size)) =
        a + hdrSize + b.size + hdrSize + d.size := by omega
    obtain ⟨m₁, hm₁⟩ : ∃ m₁, m₁ = setNext (setSize m a (b.size + (hdrSize + d.size))) a
        (link (a + hdrSize + b.size + hdrSize + d.size)) := ⟨_, rfl⟩
    have hout : ∀ i, i < a ∨ a + hdrSize ≤ i → m₁ i = m i := by
      intro i hi
      rw [hm₁]
      exact join_outside _ _ _ _ hi
    have hseg : Seg m₁ a (⟨b.size + (hdrSize + d.size), true⟩ :: bs) heapEnd := by
      refine ⟨?_, by simp only; omega, ?_⟩
      · rw [hm₁]
        exact join_hdr hb hfree.1 hle
      · simp only
        rw [hnext]
        exact ht.congr (fun i hi _ => hout i (by omega))
    cases fuel with
    | zero => simp at hfuel
    | succ fuel =>
      obtain ⟨m', hrun, hres, hframe⟩ := ih hseg ha fuel (by simpa using hfuel)
      have hstep := merge_step h ha fuel
      rw [if_pos hfree, ← hm₁] at hstep
      refine ⟨m', hstep.trans hrun, ?_, ?_⟩
      · rw [coalesce, if_pos hfree]
        exact hres
      · intro i hi
        have hia := hi a b List.mem_cons_self
        rw [← hout i hia]
        refine hframe i (fun x c hx => ?_)
        rcases List.mem_cons.mp hx with he | hx
        · cases he
          exact hia
        · rw [hnext] at hx
          exact hi x c (List.mem_cons_of_mem _ (List.mem_cons_of_mem _ hx))
  | case4 b d bs hfree ih =>
    cases fuel with
    | zero => simp at hfuel
    | succ fuel =>
      obtain ⟨m', hrun, hres, hframe⟩ := ih h.2.2 (by omega) fuel (by simpa using hfuel)
      have hstep := merge_step h ha fuel
      rw [if_neg hfree] at hstep
      refine ⟨m', hstep.trans hrun, ?_, ?_⟩
      · rw [coalesce, if_neg hfree]
        refine ⟨h.1.congr (fun i hi hi' => hframe i (fun x c hx => ?_)), h.2.1, hres⟩
        have hx := layout_start hx
        omega
      · exact fun i hi => hframe i (fun x c hx => hi x c (List.mem_cons_of_mem _ hx))

/-- Live blocks keep their place when free neighbours are merged. -/
theorem mem_layout_coalesce {x : Nat} (hx : (x, b) ∈ layout a bs) (hb : b.free = false) :
    (x, b) ∈ layout a (coalesce bs) := by
  induction bs using coalesce.induct generalizing a with
  | case1 => simp [layout] at hx
  | case2 c => rwa [coalesce]
  | case3 c d bs hfree ih =>
    rw [coalesce, if_pos hfree]
    apply ih
    have hnext : a + hdrSize + (c.size + (hdrSize + d.size)) =
        a + hdrSize + c.size + hdrSize + d.size := by omega
    rw [layout, hnext]
    rcases List.mem_cons.mp hx with he | hx
    · cases he
      simp [hfree.1] at hb
    · rcases List.mem_cons.mp hx with he | hx
      · cases he
        simp [hfree.2] at hb
      · exact List.mem_cons_of_mem _ hx
  | case4 c d bs hfree ih =>
    rw [coalesce, if_neg hfree]
    rcases List.mem_cons.mp hx with he | hx
    · rw [he]
      exact List.mem_cons_self
    · exact List.mem_cons_of_mem _ (ih hx)

theorem mem_layout_release {x p : Nat} (hx : (x, b) ∈ layout a bs) (hp : x + hdrSize ≠ p) :
    (x, b) ∈ layout a (release p a bs) := by
  induction bs generalizing a with
  | nil => simp [layout] at hx
  | cons d bs ih =>
    rcases List.mem_cons.mp hx with he | hx
    · cases he
      rw [release, if_neg hp]
      exact List.mem_cons_self
    · have ht := ih hx
      rw [release]
      split
      · exact List.mem_cons_of_mem _ ht
      · exact List.mem_cons_of_mem _ ht

theorem release_before {p : Nat} (h : p < a + hdrSize) : release p a bs = bs := by
  induction bs generalizing a with
  | nil => rfl
  | cons d bs ih => rw [release, if_neg (by omega), ih (by omega)]

theorem release_length (p a : Nat) (bs : List Block) : (release p a bs).length = bs.length := by
  induction bs generalizing a with
  | nil => rfl
  | cons d bs ih => rw [release, List.length_cons, ih, List.length_cons]

/-- Releasing a block moves no header. -/
theorem starts_release {p x : Nat} (hx : (x, b) ∈ layout a (release p a bs)) :
    ∃ d, (x, d) ∈ layout a bs := by
  induction bs generalizing a with
  | nil => simp [release, layout] at hx
  | cons d bs ih =>
    rw [release] at hx
    rcases List.mem_cons.mp hx with he | hx
    · exact ⟨d, by simp [layout, (Prod.mk.inj he).1]⟩
    · obtain ⟨c, hc⟩ := ih (a := a + hdrSize + d.size) (by split at hx <;> exact hx)
      exact ⟨c, List.mem_cons_of_mem _ hc⟩

/-- Setting the free byte of one of the blocks. -/
theorem release_seg (h : Seg m a bs heapEnd) {x : Nat} (hx : (x, b) ∈ layout a bs) :
    Seg (setFree m x 1) a (release (x + hdrSize) a bs) heapEnd := by
  induction bs generalizing a with
  | nil => simp [layout] at hx
  | cons d bs ih =>
    have hH : hdrSize = 16 := rfl
    rcases List.mem_cons.mp hx with he | hx
    · cases he
      rw [release, if_pos rfl, release_before (by omega)]
      obtain ⟨hh, hal, ht⟩ := h
      refine ⟨⟨?_, ?_, ?_, ?_⟩, hal, ht.congr (fun i hi _ => ?_)⟩
      · exact (read32_set_free _ _ _ _ (by omega)).trans hh.magic
      · exact (read32_set_free _ _ _ _ (by omega)).trans hh.size
      · simp [freeOf, setFree]
      · exact (read32_set_free _ _ _ _ (by omega)).trans hh.next
      · exact set_free_outside _ _ _ _ (by omega)
    · have hlt := layout_start hx
      obtain ⟨hh, hal, ht⟩ := h
      rw [release, if_neg (by omega)]
      refine ⟨hh.congr (fun i _ hi => ?_), hal, ih ht hx⟩
      exact set_free_outside _ _ _ _ (by omega)

end BaSic.Proofs.HeapFree
