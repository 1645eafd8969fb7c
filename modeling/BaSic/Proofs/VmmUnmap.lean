import BaSic.Proofs.VmmRights

namespace BaSic.Proofs.VmmUnmap
open Mm Lib PmmScan VmmTables VmmMap VmmRights

/-- The frame allocator, the directory and the tables are as they were, and with them what a
later mapping in the region grants. -/
structure Unchanged (v : Vmm) (virt : UInt32) (w : Vmm) : Prop where
  frames : w.pmm = v.pmm
  entries : dirEntry w = dirEntry v
  words : w.mem = v.mem
  later : ∀ other phys flags : UInt32, pdiOf other = pdiOf virt →
    (vmmMap w other phys flags).bind (rights · other) = (vmmMap v other phys flags).bind (rights · other)

/-- Unmapping the page changes nothing. -/
def Silent (v : Vmm) (virt : UInt32) : Prop := ∃ w, vmmUnmap v virt = some w ∧ Unchanged v virt w

/-- Flags are among PRESENT, WRITE and USER, the calls are in place, and the rest of the kernel
leaves the directory and the tables alone: it neither frees their frames nor writes to them. -/
def Careful (v : Vmm) : VmmOp → Prop
  | .map virt _ flags => flags.toNat < 8 ∧ InPlace v virt
  | .unmap virt => InPlace v virt
  | .rest pmm mem => Scannable pmm ∧ v.dirFrame ∉ clearFrames pmm ∧
      (∀ i < 1024, mem (v.dirFrame * 1024 + i) = dirEntry v i) ∧ ∀ i t, (view v).dir i = some t →
        (t < pmm.totalFrames ∧ bit pmm.bitmap t = true) ∧ ∀ k < 1024, mem (t * 1024 + k) = v.mem (t * 1024 + k)

/-- An entry of a table is empty or present. -/
def Plain (pte : Nat) : Prop := pte = 0 ∨ pte % 2 = 1

/-- The tables are backed by frames of their own, with only empty and present entries. -/
structure Tidy (v : Vmm) : Prop where
  backed : Backed v
  plain : ∀ i t, (view v).dir i = some t → ∀ k < 1024, Plain (v.mem (t * 1024 + k))

variable {v v₀ v₁ w : Vmm} {virt phys flags : UInt32} {i pte n : Nat}

theorem plain_of_present {a f : Nat} (ha : a % 4096 = 0) (hf : f < 8) : Plain (a ||| f ||| pagePresent) := by
  obtain ⟨he, -, hodd⟩ := entry_eq ha hf
  refine Or.inr ?_
  rw [he]
  omega

theorem Tidy.placed_table (h : Tidy v) (hf : flags.toNat < 8) : Tidy (placedTable v virt flags).2 := by
  have hb : Backed (placedTable v virt flags).2 := h.backed.placed_table hf
  rcases placed_table_cases v virt flags with ⟨-, hrun⟩ | ⟨-, -, hrun⟩ | ⟨hp, hne, hrun⟩
  · rw [hrun]
    exact h
  · rw [hrun] at hb ⊢
    exact ⟨hb, h.plain⟩
  · rcases h.backed.fresh virt with hp' | hz | ⟨f, hlt, hrf, hdir, -⟩
    · exact absurd hp hp'
    · exact absurd hz hne
    rw [hrun, hrf, Nat.mul_div_cancel _ (by decide)] at hb ⊢
    refine ⟨hb, fun i t hi k hk => ?_⟩
    have hout : t ≠ v.dirFrame := fun hc => hb.mapped.apart i (hc ▸ hi)
    rw [attached_word hout (pdi_lt virt) hk]
    rw [view_attach v _ (pdi_lt virt) hlt hf hdir] at hi
    simp only [TwoLevel.attach, Function.update_apply] at hi
    by_cases ht : t = f
    · exact Or.inl (if_pos ht)
    · rw [if_neg ht]
      -- a table that is not the new one is an old one
      split at hi
      · exact absurd (Option.some.inj hi).symm ht
      · exact h.plain i t hi k hk

theorem Tidy.set_entry (h : Tidy v) (hf : flags.toNat < 8) (hp : Plain pte) :
    Tidy (setEntry v virt flags pte) := by
  have hb : Backed (setEntry v virt flags pte) := h.backed.set_entry hf pte
  have ht : Tidy (placedTable v virt flags).2 := h.placed_table hf
  have hdir : (view (setEntry v virt flags pte)).dir = (view (placedTable v virt flags).2).dir :=
    view_dir_congr (fun _ hi => set_entry_dir h.backed.mapped (h.backed.fresh virt) hf pte hi)
  refine ⟨hb, fun i t hi k hk => ?_⟩
  rw [hdir] at hi
  by_cases hz : (placedTable v virt flags).1 = 0
  · rw [set_entry_null hz]
    exact ht.plain i t hi k hk
  · rw [set_entry_table hz]
    simp only [Function.update_apply]
    split
    · exact hp
    · exact ht.plain i t hi k hk

theorem Tidy.step (h : Tidy v) {op : VmmOp} (hop : Careful v op) (hrun : vmmStep v op = some w) : Tidy w := by
  have hm := h.backed.mapped
  cases op with
  | map virt phys flags =>
    obtain ⟨hf, hin⟩ := hop
    obtain rfl := Option.some.inj ((map_placed hm (h.backed.fresh virt) hf hin).symm.trans hrun)
    have hpage : (phys.toNat &&& pageMask) % 4096 = 0 := by
      rw [and_page_mask]
      omega
    exact h.set_entry hf (plain_of_present hpage hf)
  | unmap virt =>
    obtain rfl := Option.some.inj ((unmap_placed hm (h.backed.fresh virt) hop).symm.trans hrun)
    exact h.set_entry (by decide) (Or.inl rfl)
  | rest pmm mem =>
    have horderly : Orderly v (.rest pmm mem) := hop.2.2.1
    have hmapped := hm.step horderly hrun
    obtain ⟨hscan, hown, hentries, hkeep⟩ := hop
    obtain rfl := Option.some.inj hrun
    have hdir : (view { v with pmm := pmm, mem := mem }).dir = (view v).dir := view_dir_congr hentries
    refine ⟨⟨hmapped, hscan, fun i t hi => ?_, hown⟩, fun i t hi k hk => ?_⟩
    · rw [hdir] at hi
      exact (hkeep i t hi).1
    · rw [hdir] at hi
      have hsame : mem (t * 1024 + k) = v.mem (t * 1024 + k) := (hkeep i t hi).2 k hk
      have hplain := h.plain i t hi k hk
      rw [← hsame] at hplain
      exact hplain

/-- The regions that have a table. -/
def tables (v : Vmm) : Finset Nat := (Finset.range 1024).filter (fun i => (view v).dir i ≠ none)

/-- Every frame the allocator gave away, of those it had, holds a table. -/
structure Counted (v : Vmm) (frames : Finset Nat) : Prop where
  backed : Backed v
  zero : 0 ∉ clearFrames v.pmm
  sub : clearFrames v.pmm ⊆ frames
  total : (clearFrames v.pmm).card + (tables v).card = frames.card

variable {frames : Finset Nat}

theorem Counted.placed_table (h : Counted v frames) (hf : flags.toNat < 8) :
    Counted (placedTable v virt flags).2 frames := by
  have hb : Backed (placedTable v virt flags).2 := h.backed.placed_table hf
  by_cases hp : dirEntry v (pdiOf virt) &&& pagePresent = 0
  · rcases placed_table_absent flags h.backed.scannable h.zero hp with ⟨f, hmem, -, hlt, -, hclear, hrun⟩ | ⟨-, hrun⟩
    · have hdir : f ≠ v.dirFrame := fun hd => h.backed.own (hd ▸ hmem)
      have hnew : pdiOf virt ∉ tables v := by
        simp [tables, absent_iff.mpr hp]
      have hadd : tables (placedTable v virt flags).2 = insert (pdiOf virt) (tables v) := by
        rw [hrun]
        ext i
        simp only [tables, view_attach v _ (pdi_lt virt) hlt hf hdir, TwoLevel.attach, Finset.mem_filter,
          Finset.mem_insert, Finset.mem_range, Function.update_apply]
        have hpdi := pdi_lt virt
        by_cases hi : i = pdiOf virt
        · simp [hi, hpdi]
        · simp [hi]
      have hpmm : clearFrames (placedTable v virt flags).2.pmm = (clearFrames v.pmm).erase f := by
        rw [hrun]
        exact hclear
      refine ⟨hb, ?_, ?_, ?_⟩
      · rw [hpmm]
        exact fun hz => h.zero (Finset.mem_of_mem_erase hz)
      · rw [hpmm]
        exact (Finset.erase_subset _ _).trans h.sub
      · have htotal := h.total
        have hpos : 0 < (clearFrames v.pmm).card := Finset.card_pos.mpr ⟨f, hmem⟩
        rw [hpmm, hadd, Finset.card_insert_of_notMem hnew, Finset.card_erase_of_mem hmem]
        omega
    · rw [hrun]
      exact h
  · have hrun : placedTable v virt flags = (dirEntry v (pdiOf virt) &&& pageMask, v) := if_pos hp
    rw [hrun]
    exact h

theorem Counted.identity (h : Counted v frames) (a : UInt32) : Counted (identitySet v a) frames := by
  have hplain : (UInt32.ofNat pageWrite).toNat < 8 := by decide
  have ht : Counted (placedTable v a (.ofNat pageWrite)).2 frames := h.placed_table hplain
  have hpmm : (identitySet v a).pmm = (placedTable v a (.ofNat pageWrite)).2.pmm := set_entry_pmm _ _ _ _
  have hdir : (view (identitySet v a)).dir = (view (placedTable v a (.ofNat pageWrite)).2).dir :=
    view_dir_congr (fun _ hi => set_entry_dir h.backed.mapped (h.backed.fresh a) hplain _ hi)
  refine ⟨h.backed.identity a, ?_, ?_, ?_⟩
  · rw [hpmm]
    exact ht.zero
  · rw [hpmm]
    exact ht.sub
  · have htotal := ht.total
    unfold tables at htotal ⊢
    rwa [hpmm, hdir]

end BaSic.Proofs.VmmUnmap
