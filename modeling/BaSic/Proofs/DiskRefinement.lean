import BaSic.Proofs.DiskCache

namespace BaSic.Proofs.DiskRefinement
open Kernel Lib DiskCache

/-- No write is waiting in the cache and no transfer ever fails, so that the
drive itself is the array the cache stands for. -/
structure Coherent (d : Disk) : Prop extends Holds d d.ata.sectors where
  clean : ∀ i, (d.cache i).valid = true → (d.cache i).dirty = false
  succeeds : ∀ n, d.ata.succeeds n = true

theorem init_coherent (sectors : Nat → Sector) (succeeds : Nat → Bool) (n : Nat)
    (hs : ∀ n, succeeds n = true) : Coherent (diskInit ⟨sectors, succeeds, n⟩ true) :=
  ⟨init_holds sectors succeeds n, by simp [diskInit, zeroSlot], hs⟩

/-- With no dirty slot left, what the cache stands for is on the drive. -/
theorem coherent_of_clean {d : Disk} {f : Nat → Sector} (h : Holds d f)
    (hc : ∀ i, (d.cache i).valid = true → (d.cache i).dirty = false)
    (hs : ∀ n, d.ata.succeeds n = true) : Coherent d ∧ d.ata.sectors = f := by
  have he : d.ata.sectors = f := by
    funext lba
    apply h.drive
    intro i hv hd
    rw [hc i hv] at hd
    contradiction
  exact ⟨⟨he ▸ h, hc, hs⟩, he⟩

theorem Coherent.write_backs {d : Disk} (h : Coherent d) (op : DiskOp) : WriteBacksSucceed d op := by
  cases op with
  | read lba => exact fun _ => h.succeeds _
  | write lba buf => exact fun _ => h.succeeds _
  | flush => exact fun _ _ => h.succeeds _

/-- Claiming a slot in a clean cache needs no write-back. -/
theorem Coherent.evict {d : Disk} (h : Coherent d) (lba : Nat) :
    (∀ i, ((cacheEvict d lba).2.cache i).valid = true →
      ((cacheEvict d lba).2.cache i).dirty = false) ∧ (cacheEvict d lba).2.ata = d.ata ∧
      (cacheEvict d lba).2.diskPresent = true := by
  obtain ⟨i, _, hp, hc, ho, hata⟩ := cache_evict_cases d lba h.present
  refine ⟨?_, ?_, hp⟩
  · intro j hv
    by_cases hj : j = i
    · rw [hj, hc]
    · rw [ho j hj] at hv ⊢
      exact h.clean j hv
  · rcases hata with ⟨_, he⟩ | ⟨_, hall, hd, _⟩
    · exact he
    · rw [h.clean i (hall i)] at hd
      contradiction

theorem clean_set_slot {d : Disk} (h : ∀ i, (d.cache i).valid = true → (d.cache i).dirty = false)
    (ata : Ata) (i : Fin diskCacheSlots) (s : CacheSlot) (hs : s.valid = true → s.dirty = false) :
    ∀ j, (({ d with ata := ata }.setSlot i s).cache j).valid = true →
      (({ d with ata := ata }.setSlot i s).cache j).dirty = false := by
  intro j
  by_cases hj : j = i
  · subst hj
    simpa using hs
  · rw [set_slot_other _ _ _ _ hj]
    exact h j

/-- Over a drive that never fails a read returns the stored sector. -/
theorem Coherent.read {d : Disk} (h : Coherent d) (lba : Nat) :
    (diskReadSector d lba).1 = some (d.ata.sectors lba) ∧
      Coherent (diskReadSector d lba).2 ∧ (diskReadSector d lba).2.ata.sectors = d.ata.sectors := by
  cases hf : cacheFind d lba with
  | some i =>
    obtain ⟨hv, hl⟩ := cache_find_some hf
    simp only [diskReadSector, hf]
    exact ⟨by rw [h.slots i hv, hl], h, trivial⟩
  | none =>
    obtain ⟨hh, _⟩ := h.toHolds.read lba (h.write_backs (.read lba))
    obtain ⟨hc, ha, _⟩ := h.evict lba
    rw [read_sector_miss hf h.present] at hh ⊢
    simp only [ha, h.succeeds, ↓reduceIte] at hh ⊢
    exact ⟨trivial, coherent_of_clean hh (clean_set_slot hc _ _ _ (hc _)) h.succeeds⟩

/-- Over a drive that never fails a write is on the drive when it returns. -/
theorem Coherent.write {d : Disk} (h : Coherent d) (lba : Nat) (buf : Sector) :
    (diskWriteSector d lba buf).1 = true ∧ Coherent (diskWriteSector d lba buf).2 ∧
      (diskWriteSector d lba buf).2.ata.sectors = Function.update d.ata.sectors lba buf := by
  have hh := h.toHolds.write lba buf (h.write_backs (.write lba buf))
  have hslot : (∀ i, ((slotFor d lba).2.cache i).valid = true →
      ((slotFor d lba).2.cache i).dirty = false) ∧ (slotFor d lba).2.ata = d.ata ∧
      (slotFor d lba).2.diskPresent = true := by
    unfold slotFor
    cases cacheFind d lba with
    | some i => exact ⟨h.clean, rfl, h.present⟩
    | none => exact h.evict lba
  obtain ⟨hc, ha, hp⟩ := hslot
  rw [write_sector_eq lba buf hp] at hh ⊢
  simp only [ha, h.succeeds, Bool.not_true] at hh ⊢
  refine ⟨trivial, coherent_of_clean hh (clean_set_slot hc _ _ _ (fun _ => rfl)) ?_⟩
  intro n
  rw [set_slot_ata, ata_write_succeeds]
  exact h.succeeds n

/-- A flush finds nothing to do. -/
theorem Coherent.flush {d : Disk} (h : Coherent d) : diskCacheFlush d = d := by
  have hid : ∀ is : List (Fin diskCacheSlots), is.foldl flushSlot d = d := by
    intro is
    induction is with
    | nil => rfl
    | cons i is ih =>
      have hi : flushSlot d i = d := by
        unfold flushSlot
        cases hv : (d.cache i).valid with
        | false => simp
        | true => simp [h.clean i hv]
      rw [List.foldl_cons, hi, ih]
  unfold diskCacheFlush
  rw [hid, ite_self]

/-- One call on the cached path is one call on the array. -/
theorem Coherent.step {d : Disk} (h : Coherent d) (op : DiskOp) :
    (diskStep d op).1 = (arrayStep d.ata.sectors op).1 ∧
      Coherent (diskStep d op).2 ∧
      (diskStep d op).2.ata.sectors = (arrayStep d.ata.sectors op).2 := by
  cases op with
  | read lba =>
    obtain ⟨hr, hd, he⟩ := h.read lba
    exact ⟨by simp [diskStep, arrayStep, hr], hd, he⟩
  | write lba buf =>
    obtain ⟨hr, hd, he⟩ := h.write lba buf
    exact ⟨by simp [diskStep, arrayStep, hr], hd, he⟩
  | flush => simp [diskStep, arrayStep, h.flush, h]

/-- From `disk_init` on, with a drive that never fails, the cached path is the
uncached array: same answers, every write on the drive when its call returns
(each prefix of a run is itself a run), and no sector in two valid slots. -/
theorem cached_path_is_array (sectors : Nat → Sector) (succeeds : Nat → Bool)
    (hs : ∀ n, succeeds n = true) (ops : List DiskOp) :
    (run diskStep (diskInit ⟨sectors, succeeds, 0⟩ true) ops).1 = (run arrayStep sectors ops).1 ∧
      (run diskStep (diskInit ⟨sectors, succeeds, 0⟩ true) ops).2.ata.sectors =
        (run arrayStep sectors ops).2 ∧
      ∀ i j, ((run diskStep (diskInit ⟨sectors, succeeds, 0⟩ true) ops).2.cache i).valid = true →
        ((run diskStep (diskInit ⟨sectors, succeeds, 0⟩ true) ops).2.cache j).valid = true →
        ((run diskStep (diskInit ⟨sectors, succeeds, 0⟩ true) ops).2.cache i).lba =
          ((run diskStep (diskInit ⟨sectors, succeeds, 0⟩ true) ops).2.cache j).lba → i = j := by
  have hstep : ∀ d f op, (Coherent d ∧ d.ata.sectors = f) →
      (diskStep d op).1 = (arrayStep f op).1 ∧
        (Coherent (diskStep d op).2 ∧ (diskStep d op).2.ata.sectors = (arrayStep f op).2) := by
    rintro d f op ⟨hd, rfl⟩
    exact hd.step op
  obtain ⟨hr, hd, he⟩ := run_simulates hstep ops ⟨init_coherent sectors succeeds 0 hs, rfl⟩
  exact ⟨hr, he, hd.unique⟩

/-- The same at a drive of zeros and a run that overfills the cache. -/
theorem cached_path_is_array_overfull :
    (run diskStep (diskInit ⟨fun _ _ => 0, fun _ => true, 0⟩ true)
      (.write 3 (fun _ => 7) :: (List.range 20).map .read ++ [.flush, .read 3])).1 =
    (run arrayStep (fun _ _ => 0)
      (.write 3 (fun _ => 7) :: (List.range 20).map .read ++ [.flush, .read 3])).1 :=
  (cached_path_is_array (fun _ _ => 0) (fun _ => true) (fun _ => rfl) _).1

end BaSic.Proofs.DiskRefinement
