import BaSic.Kernel.Disk
import BaSic.Lib.Steps

namespace BaSic.Proofs.DiskCache
open Kernel

@[simp] theorem set_slot_present (d : Disk) (i : Fin diskCacheSlots) (s : CacheSlot) :
    (d.setSlot i s).diskPresent = d.diskPresent := rfl

@[simp] theorem set_slot_ata (d : Disk) (i : Fin diskCacheSlots) (s : CacheSlot) :
    (d.setSlot i s).ata = d.ata := rfl

@[simp] theorem set_slot_same (d : Disk) (i : Fin diskCacheSlots) (s : CacheSlot) :
    (d.setSlot i s).cache i = s := by
  simp [Disk.setSlot]

theorem set_slot_other (d : Disk) (i j : Fin diskCacheSlots) (s : CacheSlot) (h : j ≠ i) :
    (d.setSlot i s).cache j = d.cache j := by
  simp [Disk.setSlot, h]

@[simp] theorem ata_write_succeeds (a : Ata) (lba : Nat) (x : Sector) :
    (ataWrite a lba x).2.succeeds = a.succeeds := by
  unfold ataWrite
  split <;> rfl

@[simp] theorem ata_write_transfers (a : Ata) (lba : Nat) (x : Sector) :
    (ataWrite a lba x).2.transfers = a.transfers + 1 := by
  unfold ataWrite
  split <;> rfl

theorem ata_write_sectors (a : Ata) (lba : Nat) (x : Sector) (h : a.succeeds a.transfers = true) :
    (ataWrite a lba x).2.sectors = Function.update a.sectors lba x := by
  simp [ataWrite, h]

theorem cache_find_some {d : Disk} {lba : Nat} {i : Fin diskCacheSlots}
    (h : cacheFind d lba = some i) : (d.cache i).valid = true ∧ (d.cache i).lba = lba := by
  simpa using List.find?_some h

theorem cache_find_none {d : Disk} {lba : Nat} (h : cacheFind d lba = none)
    (i : Fin diskCacheSlots) (hv : (d.cache i).valid = true) : (d.cache i).lba ≠ lba := by
  have hi := List.find?_eq_none.mp h i (List.mem_finRange i)
  simpa [hv] using hi

/-- What claiming a slot does: the slot is relabelled, no other slot moves, and
a dirty victim has been handed to `ata_write` first. -/
theorem cache_evict_cases (d : Disk) (lba : Nat) (hp : d.diskPresent = true) :
    ∃ i, (cacheEvict d lba).1 = i ∧
      (cacheEvict d lba).2.diskPresent = true ∧
      (cacheEvict d lba).2.cache i = { d.cache i with lba := lba, valid := true, dirty := false } ∧
      (∀ j, j ≠ i → (cacheEvict d lba).2.cache j = d.cache j) ∧
      ((((d.cache i).valid = false ∨ (d.cache i).dirty = false) ∧
          (cacheEvict d lba).2.ata = d.ata) ∨
        (i.val = 0 ∧ (∀ j, (d.cache j).valid = true) ∧ (d.cache i).dirty = true ∧
          (cacheEvict d lba).2.ata = (ataWrite d.ata (d.cache i).lba (d.cache i).data).2)) := by
  unfold cacheEvict
  cases hf : (List.finRange diskCacheSlots).find? (fun i => !(d.cache i).valid) with
  | some i =>
    have hi : (d.cache i).valid = false := by simpa using List.find?_some hf
    exact ⟨i, rfl, hp, by simp, fun j hj => set_slot_other _ _ _ _ hj, Or.inl ⟨Or.inl hi, rfl⟩⟩
  | none =>
    have hall : ∀ j, (d.cache j).valid = true := by
      intro j
      simpa using List.find?_eq_none.mp hf j (List.mem_finRange j)
    refine ⟨0, rfl, hp, by simp, fun j hj => set_slot_other _ _ _ _ hj, ?_⟩
    cases hd : (d.cache 0).dirty with
    | false => exact Or.inl ⟨Or.inr rfl, by simp [hd]⟩
    | true => exact Or.inr ⟨rfl, hall, rfl, by simp [hd, hp]⟩

/-- A read that misses, with the claimed slot settled in one go. -/
theorem read_sector_miss {d : Disk} {lba : Nat} (hf : cacheFind d lba = none)
    (hp : d.diskPresent = true) :
    diskReadSector d lba =
      let (i, e) := cacheEvict d lba
      let ok := e.ata.succeeds e.ata.transfers
      (if ok then some (e.ata.sectors lba) else none,
        { e with ata := (ataRead e.ata lba).2 }.setSlot i
          (if ok then { e.cache i with data := e.ata.sectors lba }
           else { e.cache i with valid := false })) := by
  simp only [diskReadSector, hf, hp, Bool.not_true, Bool.false_eq_true, ↓reduceIte]
  cases hr : (cacheEvict d lba).2.ata.succeeds (cacheEvict d lba).2.ata.transfers <;>
    simp [ataRead, hr]

/-- A write, with its slot settled in one go: dirty exactly when `ata_write` failed. -/
theorem write_sector_eq {d : Disk} (lba : Nat) (buf : Sector)
    (hp : (slotFor d lba).2.diskPresent = true) :
    diskWriteSector d lba buf =
      let (i, e) := slotFor d lba
      let ok := e.ata.succeeds e.ata.transfers
      (ok, { e with ata := (ataWrite e.ata lba buf).2 }.setSlot i
        { e.cache i with data := buf, dirty := !ok }) := by
  generalize he : slotFor d lba = e at hp ⊢
  obtain ⟨i, cache, present, ata⟩ := e
  obtain rfl : present = true := hp
  simp only [diskWriteSector, he, set_slot_present, Bool.not_true, Bool.false_eq_true, ↓reduceIte,
    set_slot_same, set_slot_ata, ataWrite]
  cases hr : ata.succeeds ata.transfers <;> simp [Disk.setSlot]

/-- The cache in front of the drive stands for the array `f`: a valid slot holds
its sector of `f`, and so does the drive wherever no dirty slot overrides it. -/
structure Holds (d : Disk) (f : Nat → Sector) : Prop where
  present : d.diskPresent = true
  unique : ∀ i j, (d.cache i).valid = true → (d.cache j).valid = true →
    (d.cache i).lba = (d.cache j).lba → i = j
  slots : ∀ i, (d.cache i).valid = true → (d.cache i).data = f (d.cache i).lba
  drive : ∀ lba, (∀ i, (d.cache i).valid = true → (d.cache i).dirty = true →
    (d.cache i).lba ≠ lba) → d.ata.sectors lba = f lba

/-- Slot 0 has to be written back before `lba` can be cached. -/
def WritesBack (d : Disk) (lba : Nat) : Prop :=
  cacheFind d lba = none ∧ (∀ i, (d.cache i).valid = true) ∧
    (d.cache 0).dirty = true

theorem init_holds (sectors : Nat → Sector) (succeeds : Nat → Bool) (n : Nat) :
    Holds (diskInit ⟨sectors, succeeds, n⟩ true) sectors :=
  ⟨rfl, by simp [diskInit, zeroSlot], by simp [diskInit, zeroSlot], fun _ _ => rfl⟩

/-- `Holds` with slot `i` left open, the slot that is about to hold `lba`. -/
structure HoldsBut (d : Disk) (f : Nat → Sector) (i : Fin diskCacheSlots) (lba : Nat) : Prop where
  present : d.diskPresent = true
  unique : ∀ j k, j ≠ i → k ≠ i → (d.cache j).valid = true → (d.cache k).valid = true →
    (d.cache j).lba = (d.cache k).lba → j = k
  apart : ∀ j, j ≠ i → (d.cache j).valid = true → (d.cache j).lba ≠ lba
  slots : ∀ j, j ≠ i → (d.cache j).valid = true → (d.cache j).data = f (d.cache j).lba
  drive : ∀ k, k ≠ lba → (∀ j, j ≠ i → (d.cache j).valid = true → (d.cache j).dirty = true →
    (d.cache j).lba ≠ k) → d.ata.sectors k = f k

theorem Holds.but {d : Disk} {f : Nat → Sector} (h : Holds d f) {i : Fin diskCacheSlots}
    {lba : Nat} (hi : cacheFind d lba = some i) : HoldsBut d f i lba := by
  obtain ⟨hv, hl⟩ := cache_find_some hi
  refine ⟨h.present, fun j k _ _ => h.unique j k, ?_, fun j _ => h.slots j, ?_⟩
  · intro j hj hvj he
    exact hj (h.unique j i hvj hv (he.trans hl.symm))
  · intro k hk hn
    apply h.drive
    intro j hvj hdj
    by_cases hj : j = i
    · rw [hj, hl]
      exact hk.symm
    · exact hn j hj hvj hdj

/-- Closing the open slot again, with the drive changed at most at `lba`. -/
theorem HoldsBut.close {d : Disk} {f g : Nat → Sector} {i : Fin diskCacheSlots} {lba : Nat}
    (h : HoldsBut d f i lba) (ata : Ata) (s : CacheSlot)
    (hs : s.valid = true → s.lba = lba ∧ s.data = g lba)
    (hl : ¬ (s.valid = true ∧ s.dirty = true) → ata.sectors lba = g lba)
    (ho : ∀ k, k ≠ lba → ata.sectors k = d.ata.sectors k) (hg : ∀ k, k ≠ lba → g k = f k) :
    Holds ({ d with ata := ata }.setSlot i s) g := by
  have hother : ∀ j, j ≠ i → ({ d with ata := ata }.setSlot i s).cache j = d.cache j :=
    fun j hj => set_slot_other _ _ _ _ hj
  refine ⟨h.present, ?_, ?_, ?_⟩
  · intro j k hj hk he
    by_cases hji : j = i <;> by_cases hki : k = i
    · rw [hji, hki]
    · subst hji
      simp only [set_slot_same, hother k hki] at hj hk he
      exact absurd ((hs hj).1 ▸ he).symm (h.apart k hki hk)
    · subst hki
      simp only [set_slot_same, hother j hji] at hj hk he
      exact absurd ((hs hk).1 ▸ he) (h.apart j hji hj)
    · simp only [hother j hji, hother k hki] at hj hk he
      exact h.unique j k hji hki hj hk he
  · intro j hj
    by_cases hji : j = i
    · subst hji
      simp only [set_slot_same] at hj ⊢
      rw [(hs hj).1, (hs hj).2]
    · simp only [hother j hji] at hj ⊢
      rw [h.slots j hji hj, hg _ (h.apart j hji hj)]
  · intro k hk
    by_cases hkl : k = lba
    · subst hkl
      apply hl
      rintro ⟨hv, hd⟩
      exact hk i (by simpa using hv) (by simpa using hd) (by simpa using (hs hv).1)
    · rw [set_slot_ata, ho k hkl, hg k hkl]
      apply h.drive k hkl
      intro j hj hv hd
      have hkj := hk j
      rw [hother j hj] at hkj
      exact hkj hv hd

/-- Claiming a slot whose write-back succeeds leaves only that slot open, with
the drive still right about the sector the slot is claimed for. -/
theorem Holds.evict {d : Disk} {f : Nat → Sector} (h : Holds d f) {lba : Nat}
    (hf : cacheFind d lba = none) (hw : WritesBack d lba → d.ata.succeeds d.ata.transfers = true) :
    HoldsBut (cacheEvict d lba).2 f (cacheEvict d lba).1 lba ∧
      (cacheEvict d lba).2.ata.sectors lba = f lba ∧
      (cacheEvict d lba).2.ata.succeeds = d.ata.succeeds ∧
      ((cacheEvict d lba).2.cache (cacheEvict d lba).1).lba = lba ∧
      ((cacheEvict d lba).2.cache (cacheEvict d lba).1).valid = true := by
  obtain ⟨i, hi, hp, hc, ho, hata⟩ := cache_evict_cases d lba h.present
  rw [hi]
  have hdrive : ∀ k, (∀ j, j ≠ i → (d.cache j).valid = true → (d.cache j).dirty = true →
      (d.cache j).lba ≠ k) → (cacheEvict d lba).2.ata.sectors k = f k := by
    intro k hk
    rcases hata with ⟨hclean, he⟩ | ⟨h0, hall, hdirty, he⟩
    · rw [he]
      apply h.drive
      intro j hv hd
      refine hk j ?_ hv hd
      rintro rfl
      rcases hclean with hc' | hc' <;> simp_all
    · have hi0 : i = 0 := Fin.ext h0
      rw [he, ata_write_sectors _ _ _ (hw ⟨hf, hall, hi0 ▸ hdirty⟩)]
      by_cases hkl : k = (d.cache i).lba
      · rw [hkl, Function.update_self]
        exact h.slots _ (hall _)
      · rw [Function.update_of_ne hkl]
        apply h.drive
        intro j hv hd
        by_cases hj : j = i
        · rw [hj]
          exact fun he => hkl he.symm
        · exact hk j hj hv hd
  refine ⟨⟨hp, ?_, ?_, ?_, ?_⟩, ?_, ?_, by simp [hc], by simp [hc]⟩
  · intro j k hj hk hvj hvk he
    rw [ho j hj, ho k hk] at *
    exact h.unique j k hvj hvk he
  · intro j hj hv
    rw [ho j hj] at *
    exact cache_find_none hf j hv
  · intro j hj hv
    rw [ho j hj] at *
    exact h.slots j hv
  · intro k _ hk
    apply hdrive
    intro j hj
    have hkj := hk j hj
    rwa [ho j hj] at hkj
  · exact hdrive lba (fun j _ hv _ => cache_find_none hf j hv)
  · rcases hata with ⟨_, he⟩ | ⟨_, _, _, he⟩ <;> simp [he]

/-- Reading returns the sector the cache stands for, or fails and loses nothing. -/
theorem Holds.read {d : Disk} {f : Nat → Sector} (h : Holds d f) (lba : Nat)
    (hw : WritesBack d lba → d.ata.succeeds d.ata.transfers = true) :
    Holds (diskReadSector d lba).2 f ∧
      ∀ s, (diskReadSector d lba).1 = some s → s = f lba := by
  cases hf : cacheFind d lba with
  | some i =>
    obtain ⟨hv, hl⟩ := cache_find_some hf
    simp only [diskReadSector, hf]
    refine ⟨h, ?_⟩
    intro s hs
    rw [← Option.some.inj hs, h.slots i hv, hl]
  | none =>
    obtain ⟨hb, hfresh, _, hl, _⟩ := h.evict hf hw
    rw [read_sector_miss hf h.present]
    cases hr : (cacheEvict d lba).2.ata.succeeds (cacheEvict d lba).2.ata.transfers with
    | false =>
      simp only [hr, Bool.false_eq_true, ↓reduceIte]
      exact ⟨hb.close _ _ (by simp) (fun _ => hfresh) (fun _ _ => rfl) (fun _ _ => rfl), by simp⟩
    | true =>
      simp only [hr, ↓reduceIte]
      refine ⟨hb.close _ _ (fun _ => ⟨hl, hfresh⟩) (fun _ => hfresh) (fun _ _ => rfl)
        (fun _ _ => rfl), ?_⟩
      intro s hs
      rw [← Option.some.inj hs, hfresh]

theorem Holds.slot_for {d : Disk} {f : Nat → Sector} (h : Holds d f) (lba : Nat)
    (hw : WritesBack d lba → d.ata.succeeds d.ata.transfers = true) :
    HoldsBut (slotFor d lba).2 f (slotFor d lba).1 lba ∧
      (slotFor d lba).2.ata.succeeds = d.ata.succeeds ∧
      ((slotFor d lba).2.cache (slotFor d lba).1).lba = lba ∧
      ((slotFor d lba).2.cache (slotFor d lba).1).valid = true := by
  unfold slotFor
  cases hf : cacheFind d lba with
  | some i => exact ⟨h.but hf, rfl, (cache_find_some hf).2, (cache_find_some hf).1⟩
  | none => exact ⟨(h.evict hf hw).1, (h.evict hf hw).2.2⟩

/-- A write is kept, in the slot or on the drive, whatever `ata_write` answers. -/
theorem Holds.write {d : Disk} {f : Nat → Sector} (h : Holds d f) (lba : Nat) (buf : Sector)
    (hw : WritesBack d lba → d.ata.succeeds d.ata.transfers = true) :
    Holds (diskWriteSector d lba buf).2 (Function.update f lba buf) := by
  obtain ⟨hb, _, hl, hv⟩ := h.slot_for lba hw
  rw [write_sector_eq lba buf hb.present]
  refine hb.close _ _ ?_ ?_ ?_ (fun k hk => Function.update_of_ne hk _ _)
  · exact fun _ => ⟨hl, by simp⟩
  · intro hn
    have hr : (slotFor d lba).2.ata.succeeds (slotFor d lba).2.ata.transfers = true := by
      simpa [hv] using hn
    rw [ata_write_sectors _ _ _ hr, Function.update_self, Function.update_self]
  · intro k hk
    unfold ataWrite
    split
    · exact Function.update_of_ne hk _ _
    · rfl

/-- One round of the flush: a dirty slot whose write-back succeeds becomes clean. -/
theorem Holds.flush_slot {d : Disk} {f : Nat → Sector} (h : Holds d f) (i : Fin diskCacheSlots)
    (hw : (d.cache i).valid = true → (d.cache i).dirty = true →
      d.ata.succeeds d.ata.transfers = true) : Holds (flushSlot d i) f := by
  unfold flushSlot
  split
  · rename_i hd
    simp only [Bool.and_eq_true] at hd
    have hs := ata_write_sectors d.ata (d.cache i).lba (d.cache i).data (hw hd.1 hd.2)
    have hb : HoldsBut d f i (d.cache i).lba := by
      refine ⟨h.present, fun j k _ _ => h.unique j k, ?_, fun j _ => h.slots j, ?_⟩
      · exact fun j hj hv he => hj (h.unique j i hv hd.1 he)
      · intro k hk hn
        apply h.drive
        intro j hv hdj
        by_cases hj : j = i
        · rw [hj]
          exact hk.symm
        · exact hn j hj hv hdj
    refine hb.close _ _ ?_ ?_ ?_ (fun _ _ => rfl)
    · exact fun _ => ⟨rfl, h.slots i hd.1⟩
    · intro _
      rw [hs, Function.update_self]
      exact h.slots i hd.1
    · intro k hk
      rw [hs, Function.update_of_ne hk]
  · exact h

/-- The slots the flush has to write back, in the order it visits them. -/
def dirtySlots (d : Disk) (is : List (Fin diskCacheSlots)) : List (Fin diskCacheSlots) :=
  is.filter (fun i => (d.cache i).valid && (d.cache i).dirty)

theorem flush_slot_other (d : Disk) (i j : Fin diskCacheSlots) (h : j ≠ i) :
    (flushSlot d i).cache j = d.cache j := by
  unfold flushSlot
  split
  · rw [set_slot_other _ _ _ _ h]
  · rfl

theorem dirty_slots_flush (d : Disk) (i : Fin diskCacheSlots) (is : List (Fin diskCacheSlots))
    (h : i ∉ is) : dirtySlots (flushSlot d i) is = dirtySlots d is := by
  apply List.filter_congr
  intro j hj
  rw [flush_slot_other d i j (fun he => h (he ▸ hj))]

/-- A flush whose write-backs all succeed loses nothing. -/
theorem Holds.flush_slots {d : Disk} {f : Nat → Sector} (h : Holds d f)
    (is : List (Fin diskCacheSlots)) (hn : is.Nodup)
    (hw : ∀ k < (dirtySlots d is).length, d.ata.succeeds (d.ata.transfers + k) = true) :
    Holds (is.foldl flushSlot d) f := by
  induction is generalizing d with
  | nil => exact h
  | cons i is ih =>
    obtain ⟨hi, hn⟩ := List.nodup_cons.mp hn
    cases hd : (d.cache i).valid && (d.cache i).dirty with
    | true =>
      simp only [dirtySlots, List.filter_cons, hd, ↓reduceIte, List.length_cons] at hw
      refine ih (h.flush_slot i (fun _ _ => hw 0 (by omega))) hn ?_
      intro k hk
      rw [dirty_slots_flush d i is hi] at hk
      have hk' := hw (k + 1) (by simpa [dirtySlots] using hk)
      simp only [flushSlot, hd, ↓reduceIte, set_slot_ata, ata_write_succeeds, ata_write_transfers]
      rwa [Nat.add_assoc, Nat.add_comm 1 k]
    | false =>
      have he : flushSlot d i = d := by simp [flushSlot, hd]
      simp only [List.foldl_cons, he]
      refine ih h hn ?_
      simpa [dirtySlots, List.filter_cons, hd] using hw

inductive DiskOp where
  | read (lba : Nat)
  | write (lba : Nat) (buf : Sector)
  | flush

inductive DiskResult where
  | sector (data : Option Sector)
  | stored (ok : Bool)
  | flushed

/-- One call into the disk layer. -/
def diskStep (d : Disk) : DiskOp → DiskResult × Disk
  | .read lba => (.sector (diskReadSector d lba).1, (diskReadSector d lba).2)
  | .write lba buf => (.stored (diskWriteSector d lba buf).1, (diskWriteSector d lba buf).2)
  | .flush => (.flushed, diskCacheFlush d)

/-- The plain array the disk layer stands for: every call succeeds. -/
def arrayStep (f : Nat → Sector) : DiskOp → DiskResult × (Nat → Sector)
  | .read lba => (.sector (some (f lba)), f)
  | .write lba buf => (.stored true, Function.update f lba buf)
  | .flush => (.flushed, f)

/-- The write-backs this call makes on the way all succeed. -/
def WriteBacksSucceed (d : Disk) : DiskOp → Prop
  | .read lba | .write lba _ => WritesBack d lba → d.ata.succeeds d.ata.transfers = true
  | .flush => ∀ k < (dirtySlots d (List.finRange diskCacheSlots)).length,
      d.ata.succeeds (d.ata.transfers + k) = true

theorem Holds.step {d : Disk} {f : Nat → Sector} (h : Holds d f) (op : DiskOp)
    (hw : WriteBacksSucceed d op) : Holds (diskStep d op).2 (arrayStep f op).2 := by
  cases op with
  | read lba => exact (h.read lba hw).1
  | write lba buf => exact h.write lba buf hw
  | flush =>
    simp only [diskStep, diskCacheFlush, h.present, Bool.not_true, Bool.false_eq_true, ↓reduceIte]
    exact h.flush_slots _ (List.nodup_finRange _) hw

end BaSic.Proofs.DiskCache
