import BaSic.Proofs.FileData

namespace BaSic.Proofs.Volume
open Kernel Lib FatTable FatChains Directory FileData

/-- Entries 0 to `total_clusters + 1` lie in `fat_data` and in the FAT on disk,
and a cluster has sectors. -/
structure FatFits (g : Geometry) : Prop where
  spc : 1 ≤ g.sectorsPerCluster.toNat
  copies : 1 ≤ g.numFats.toNat
  inMemory : ∀ c, c ≤ g.totalClusters + 1 → c + c / 2 + 1 < fatBytes
  onDisk : ∀ c, c ≤ g.totalClusters + 1 → c + c / 2 + 1 < 512 * g.sectorsPerFat.toNat

variable {g : Geometry} {s : Fat12} {image : Nat → Sector} {l m : List Nat} {lba : Nat}

theorem FatFits.total_le (h : FatFits g) : g.totalClusters + 1 ≤ lastCluster := by
  have hm := h.inMemory (g.totalClusters + 1) (Nat.le_refl _)
  have hb : fatBytes = 1024 := rfl
  have hl : lastCluster = 681 := rfl
  omega

theorem FatFits.limit_eq (h : FatFits g) : clusterLimit g = g.totalClusters + 2 := by
  have ht := h.total_le
  have hl : lastCluster = 681 := rfl
  unfold clusterLimit
  omega

theorem FatFits.limit_le (h : FatFits g) : clusterLimit g ≤ lastCluster + 1 := by
  have ht := h.total_le
  have hlim := h.limit_eq
  omega

/-- What keeps the driver's own accesses apart: an on-disk FAT in front of the
root directory, and no allocation past the end of `fat_data`. -/
structure Regions (g : Geometry) : Prop where
  spc : 1 ≤ g.sectorsPerCluster.toNat
  copies : 1 ≤ g.numFats.toNat
  fatSectors : 1 ≤ g.sectorsPerFat.toNat
  limit : clusterLimit g ≤ lastCluster + 1

theorem FatFits.regions (h : FatFits g) : Regions g := by
  have hd := h.onDisk 0 (Nat.zero_le _)
  exact ⟨h.spc, h.copies, by omega, h.limit_le⟩

/-- The first copy of the FAT ends where the root directory starts, or before. -/
theorem Regions.first_copy (h : Regions g) : g.fatStartLba + g.sectorsPerFat.toNat ≤ g.rootStartLba := by
  have hm := Nat.mul_le_mul_right g.sectorsPerFat.toNat h.copies
  unfold Geometry.rootStartLba
  omega

theorem second_copy (hn : 1 < g.numFats.toNat) :
    g.fatStartLba + g.sectorsPerFat.toNat + g.sectorsPerFat.toNat ≤ g.rootStartLba := by
  have hm := Nat.mul_le_mul_right g.sectorsPerFat.toNat (show 2 ≤ g.numFats.toNat by omega)
  unfold Geometry.rootStartLba
  omega

theorem FatFits.mem_free (h : FatFits g) {next : Nat → Nat} {x : Nat} :
    x ∈ freeClusters next g ↔ (2 ≤ x ∧ x ≤ g.totalClusters + 1) ∧ next x = 0 := by
  have hlim := h.limit_eq
  unfold freeClusters
  rw [mem_free_list]
  constructor
  · exact fun ⟨hx, hn⟩ => ⟨by omega, hn⟩
  · exact fun ⟨hx, hn⟩ => ⟨by omega, hn⟩

theorem root_le_data (g : Geometry) : g.rootStartLba ≤ g.dataStartLba := Nat.le_add_right _ _

theorem mem_chain_lbas : lba ∈ chainLbas g l ↔
    ∃ c ∈ l, g.clusterLba c ≤ lba ∧ lba < g.clusterLba c + g.sectorsPerCluster.toNat := by
  simp only [chainLbas, List.mem_flatMap, List.mem_range'_1]

theorem chain_lbas_ge (h : lba ∈ chainLbas g l) : g.dataStartLba ≤ lba := by
  obtain ⟨c, _, hc, _⟩ := mem_chain_lbas.mp h
  exact Nat.le_trans (Nat.le_add_right _ _) hc

/-- The cluster a data sector belongs to. -/
theorem cluster_of_lba {c : Nat} (h : g.clusterLba c ≤ lba)
    (h' : lba < g.clusterLba c + g.sectorsPerCluster.toNat) :
    (lba - g.dataStartLba) / g.sectorsPerCluster.toNat = c - 2 := by
  unfold Geometry.clusterLba at h h'
  have hpos : 0 < g.sectorsPerCluster.toNat := by omega
  have hsplit : lba - g.dataStartLba = g.sectorsPerCluster.toNat * (c - 2) +
      (lba - g.dataStartLba - (c - 2) * g.sectorsPerCluster.toNat) := by
    rw [Nat.mul_comm]
    omega
  rw [hsplit, Nat.mul_add_div hpos, Nat.div_eq_of_lt (by omega), Nat.add_zero]

/-- Chains without a common cluster have no common sector. -/
theorem chain_lbas_apart (hl : ∀ c ∈ l, 2 ≤ c) (hm : ∀ c ∈ m, 2 ≤ c) (h : l.Disjoint m) :
    (chainLbas g l).Disjoint (chainLbas g m) := by
  intro lba hlba hlba'
  obtain ⟨c, hc, hc0, hc1⟩ := mem_chain_lbas.mp hlba
  obtain ⟨x, hx, hx0, hx1⟩ := mem_chain_lbas.mp hlba'
  have he := (cluster_of_lba hc0 hc1).symm.trans (cluster_of_lba hx0 hx1)
  have h2 := hl c hc
  have h2' := hm x hx
  have hcx : c = x := by omega
  exact h hc (hcx ▸ hx)

theorem chain_lbas_nodup (hl : ∀ c ∈ l, 2 ≤ c) (hnd : l.Nodup) : (chainLbas g l).Nodup := by
  induction l with
  | nil => exact List.nodup_nil
  | cons c l ih =>
    obtain ⟨hc, hnd⟩ := List.nodup_cons.mp hnd
    have hl' : ∀ x ∈ l, 2 ≤ x := fun x hx => hl x (List.mem_cons_of_mem _ hx)
    have happ : chainLbas g (c :: l) = chainLbas g [c] ++ chainLbas g l := by
      simp [chainLbas]
    rw [happ, List.nodup_append']
    refine ⟨?_, ih hl' hnd, ?_⟩
    · simp only [chainLbas, List.flatMap_cons, List.flatMap_nil, List.append_nil]
      exact List.nodup_range'
    · refine chain_lbas_apart (fun x hx => ?_) hl' ?_
      · rw [List.mem_singleton.mp hx]
        exact hl c List.mem_cons_self
      · exact List.singleton_disjoint.mpr hc

theorem chain_length_le (hle : ∀ c ∈ l, c ≤ lastCluster) (hnd : l.Nodup) : l.length ≤ 682 := by
  have hl : lastCluster = 681 := rfl
  have hsub : l ⊆ List.range 682 := by
    intro c hc
    have h := hle c hc
    exact List.mem_range.mpr (by omega)
  have hlen := (List.subperm_of_subset hnd hsub).length_le
  rwa [List.length_range] at hlen

/-- At most 682 clusters of at most 255 sectors. -/
theorem chain_lbas_room (hle : ∀ c ∈ l, c ≤ lastCluster) (hnd : l.Nodup) :
    (chainLbas g l).length ≤ 173910 := by
  have hspc : g.sectorsPerCluster.toNat ≤ 255 := by
    have h := g.sectorsPerCluster.toNat_lt
    omega
  rw [chain_lbas_length]
  calc l.length * g.sectorsPerCluster.toNat ≤ 682 * 255 :=
        Nat.mul_le_mul (chain_length_le hle hnd) hspc
    _ = 173910 := rfl

/-- What `fat_flush` puts on the disk. -/
def storeFat (g : Geometry) (f : FatCache) (image : Nat → Sector) : Nat → Sector :=
  let image := Function.update image g.fatStartLba (f.half false)
  let image := if 1 < g.sectorsPerFat then Function.update image (g.fatStartLba + 1) (f.half true) else image
  if 1 < g.numFats then
    let copy := g.fatStartLba + g.sectorsPerFat.toNat
    let image := Function.update image copy (f.half false)
    if 1 < g.sectorsPerFat then Function.update image (copy + 1) (f.half true) else image
  else image

theorem fat_flush_eq (h : Shows s.disk image) (hd : s.fat.dirty = true) :
    ∃ d, fatFlush s = { s with disk := d, fat.dirty := false } ∧ Shows d (storeFat s.geo s.fat image) := by
  unfold fatFlush storeFat
  rw [hd, if_neg (by decide)]
  refine ⟨_, rfl, ?_⟩
  have h₁ := h.write s.geo.fatStartLba (s.fat.half false)
  by_cases hspf : 1 < s.geo.sectorsPerFat
  · simp only [hspf, ↓reduceIte]
    have h₂ := h₁.write (s.geo.fatStartLba + 1) (s.fat.half true)
    split
    · exact (h₂.write _ _).write _ _
    · exact h₂
  · simp only [hspf, ↓reduceIte]
    split
    · exact h₁.write _ _
    · exact h₁

theorem fat_flush_clean (hd : s.fat.dirty = false) : fatFlush s = s := by
  unfold fatFlush
  rw [hd]
  rfl

/-- A flush of the FAT stays in front of the root directory. -/
theorem Regions.store_fat_other (h : Regions g) (f : FatCache) (hlba : g.rootStartLba ≤ lba) :
    storeFat g f image lba = image lba := by
  have h1 := h.fatSectors
  have h2 := h.first_copy
  unfold storeFat
  by_cases hspf : 1 < g.sectorsPerFat <;> by_cases hn : 1 < g.numFats
  · have hspf' : 1 < g.sectorsPerFat.toNat := hspf
    have h3 := second_copy hn
    simp only [hspf, hn, ↓reduceIte]
    rw [Function.update_of_ne (by omega), Function.update_of_ne (by omega),
      Function.update_of_ne (by omega), Function.update_of_ne (by omega)]
  · have hspf' : 1 < g.sectorsPerFat.toNat := hspf
    simp only [hspf, hn, ↓reduceIte]
    rw [Function.update_of_ne (by omega), Function.update_of_ne (by omega)]
  · have h3 := second_copy hn
    simp only [hspf, hn, ↓reduceIte]
    rw [Function.update_of_ne (by omega), Function.update_of_ne (by omega)]
  · simp only [hspf, hn, ↓reduceIte]
    rw [Function.update_of_ne (by omega)]

end BaSic.Proofs.Volume
