import BaSic.Proofs.Shadowing

namespace BaSic.Proofs.FatCapacity
open Kernel Lib FatTable FatChains Directory FileData Volume FileOps FatInvariant FatWrite ReadBack
open Formatted ChainInvariant ReadBack Shadowing

/-- What `fat12_write` does first: the file of that name goes, if there is one. -/
def dropOld (s : Fat12) (name : CString) : Except Fault Fat12 :=
  match findEntry s name with
  | (none, s) => .ok s
  | (some old, s) => removeFile s old

/-- The sectors a file of `size` bytes fills, the last of them partly. -/
def sectorsFilled (size : Nat) : Nat := (size + 511) / 512

/-- The free clusters can hold `size` bytes, and the root directory has a free slot. -/
structure EnoughRoom (s : Fat12) (size : Nat) : Prop where
  clusters : size ≤ (freeClusters (fatEntry s.fat.data) s.geo).length * (s.geo.sectorsPerCluster.toNat * 512)
  slot : freeSlot s.geo s.disk.ata.sectors ≠ none

/-- The write returns `size`, and the chain of the entry it stores can hold `size` bytes;
`s₁` is the volume without the old file. -/
def WritesWhole (s s₁ : Fat12) (n : CString) (buf : Bytes) (size : UInt32) : Prop :=
  ∃ t k l, fat12Write s (some n) (some buf) size = .ok (size.toNat, t) ∧
    freeSlot s₁.geo s₁.disk.ata.sectors = some k ∧
    FileAt (fatEntry t.fat.data) (slotAt t.geo t.disk.ata.sectors k) l ∧
    size.toNat ≤ l.length * (t.geo.sectorsPerCluster.toNat * 512)

/-- The division by the cluster size leaves no rest, or not even one cluster. -/
def Divides (g : Geometry) (size : Nat) : Prop :=
  sectorsFilled size ≤ g.sectorsPerCluster.toNat ∨ g.sectorsPerCluster.toNat ∣ sectorsFilled size

instance (g : Geometry) (size : Nat) : Decidable (Divides g size) := inferInstanceAs (Decidable (_ ∨ _))

variable {s s₁ : Fat12} {g : Geometry} {n : CString} {buf : Bytes} {chain : Nat → List Nat} {leaked : Nat → Prop}

theorem fat12_write_dropped (hready : s.ready = true) (n : CString) (buf : Bytes) (size : UInt32) :
    fat12Write s (some n) (some buf) size =
      dropOld s n.skipSlash >>= fun s₁ => storeFile s₁ n.skipSlash buf size.toNat := by
  unfold fat12Write dropOld
  rw [hready]
  dsimp only
  cases findEntry s n.skipSlash with
  | mk found t =>
    cases found with
    | none => rfl
    | some old => rfl

theorem dropped_freed (h : WellFormed s s.disk.ata.sectors chain leaked) (hdrop : dropOld s n = .ok s₁) :
    Freed s s.disk.ata.sectors chain (lookup s.geo s.disk.ata.sectors n) s₁ := by
  obtain ⟨t, d, hf, hfind, hnone, hsome⟩ := free_old_file h n
  unfold dropOld at hdrop
  rw [hfind] at hdrop
  cases hl : lookup s.geo s.disk.ata.sectors n with
  | none =>
    rw [hl] at hdrop hf
    rw [hnone hl] at hf
    cases hdrop
    exact hf
  | some k =>
    rw [hl] at hdrop hf
    cases hdrop.symm.trans (hsome k hl)
    exact hf

/-- The clusters of a volume in order hold far less than 4 GiB. -/
theorem free_bytes_le (hg : FatFits g) (next : Nat → Nat) :
    (freeClusters next g).length * (g.sectorsPerCluster.toNat * 512) ≤ 89041920 := by
  have hspc := g.sectorsPerCluster.toNat_lt
  have hlen : (freeClusters next g).length ≤ 682 := by
    refine chain_length_le (fun c hc => ?_) (free_list_nodup next 2 _)
    have hle := (hg.mem_free.mp hc).1.2
    have htotal := hg.total_le
    omega
  calc (freeClusters next g).length * (g.sectorsPerCluster.toNat * 512) ≤ 682 * (255 * 512) :=
        Nat.mul_le_mul hlen (Nat.mul_le_mul_right 512 (by omega))
    _ = 89041920 := rfl

/-- The cluster count is rounded down, and is enough exactly when that changes nothing. -/
theorem needed_enough_iff (hspc : 1 ≤ g.sectorsPerCluster.toNat) {size : Nat} (hsize : size < 4294966784) :
    size ≤ clustersNeeded g size * (g.sectorsPerCluster.toNat * 512) ↔ Divides g size := by
  have hsectors : u32 (size + 511) / 512 = sectorsFilled size := by
    rw [u32_of_lt (by omega)]
    rfl
  have hbytes : ∀ m, size ≤ m * 512 ↔ sectorsFilled size ≤ m := by
    intro m
    unfold sectorsFilled
    omega
  unfold clustersNeeded Divides
  dsimp only
  rw [hsectors, ← Nat.mul_assoc, hbytes]
  by_cases hfew : sectorsFilled size / g.sectorsPerCluster.toNat = 0
  · have hlt : sectorsFilled size < g.sectorsPerCluster.toNat := (Nat.div_eq_zero_iff_lt hspc).mp hfew
    rw [if_pos hfew, Nat.one_mul]
    exact iff_of_true (Nat.le_of_lt hlt) (Or.inl (Nat.le_of_lt hlt))
  · rw [if_neg hfew]
    have hle : g.sectorsPerCluster.toNat ≤ sectorsFilled size := by
      by_contra hlt
      exact hfew (Nat.div_eq_of_lt (by omega))
    constructor
    · intro henough
      have hexact := Nat.le_antisymm henough (Nat.div_mul_le_self _ _)
      exact Or.inr ⟨_, hexact.trans (Nat.mul_comm _ _)⟩
    · rintro (hone | hdvd)
      · obtain heq := Nat.le_antisymm hle hone
        rw [← heq, Nat.div_self hspc, Nat.one_mul]
      · exact (Nat.div_mul_cancel hdvd).ge

/-- No more clusters are asked for than hold the file. -/
theorem needed_le {size m : Nat} (hpos : 1 ≤ size) (hsize : size < 4294966784)
    (hm : size ≤ m * (g.sectorsPerCluster.toNat * 512)) : clustersNeeded g size ≤ m := by
  have hsectors : u32 (size + 511) / 512 ≤ m * g.sectorsPerCluster.toNat := by
    rw [u32_of_lt (by omega)]
    rw [← Nat.mul_assoc] at hm
    omega
  have hne : 0 < m := by
    refine Nat.pos_of_ne_zero (fun hzero => ?_)
    rw [hzero, Nat.zero_mul] at hm
    omega
  unfold clustersNeeded
  dsimp only
  split
  · exact hne
  · exact Nat.div_le_of_le_mul (by rwa [Nat.mul_comm] at hsectors)

/-- With room enough, a write stores and returns what its clusters hold. -/
theorem write_with_room (buf : Bytes) {size : UInt32} (h : Usable s) (hpos : 1 ≤ size.toNat)
    (hdrop : dropOld s n.skipSlash = .ok s₁) (hroom : EnoughRoom s₁ size.toNat) :
    1 ≤ s₁.geo.sectorsPerCluster.toNat ∧ size.toNat < 4294966784 ∧
      ∃ t k l, fat12Write s (some n) (some buf) size = .ok (payload s₁.geo size.toNat, t) ∧
        freeSlot s₁.geo s₁.disk.ata.sectors = some k ∧ t.geo = s₁.geo ∧
        FileAt (fatEntry t.fat.data) (slotAt t.geo t.disk.ata.sectors k) l ∧
        l.length = clustersNeeded s₁.geo size.toNat := by
  obtain ⟨chain, leaked, hs⟩ := h
  have hf := dropped_freed hs hdrop
  have h₁ := hf.well_formed hs (fun k hk => lookup_live hk)
  have hbytes := free_bytes_le h₁.fits (fatEntry s₁.fat.data)
  have hclusters := hroom.clusters
  have hsize : size.toNat < 4294966784 := by omega
  have hneeded := needed_le hpos hsize hclusters
  have himage := h₁.mounted.shows.sectors
  refine ⟨h₁.fits.spc, hsize, ?_⟩
  rw [fat12_write_dropped hs.mounted.ready, hdrop, ok_bind]
  rcases store_file_eq h₁.mounted h₁.fits.regions n.skipSlash buf size.toNat_lt with
    ⟨hlt, -⟩ | ⟨_, hnone, -⟩ | ⟨_, k, f, d, hk, hrun, hb, _, hshows⟩
  · omega
  · rw [← himage] at hnone
    exact absurd hnone hroom.slot
  · refine ⟨{ s₁ with fat := { f with dirty := false }, disk := d }, k, takenClusters s₁ size.toNat, ?_, ?_, rfl, ?_,
      taken_length hneeded⟩
    · rw [hrun, as_int_of_le (stored_size_le hb.upper hb.nodup), stored_size_eq hneeded]
    · rw [himage]
      exact hk
    · dsimp only
      rw [hshows.sectors]
      refine (congrArg (FileAt _ · _) (slot_at_written h₁.fits (free_slot_spec hk).1)).mpr ?_
      rw [if_pos rfl]
      exact taken_file_at n.skipSlash hneeded hb

/-- A write that finds room stores the whole file exactly when the cluster size divides the
sectors the file fills, or one cluster is enough. -/
theorem writes_whole_iff {size : UInt32} (h : Usable s) (hpos : 1 ≤ size.toNat)
    (hdrop : dropOld s n.skipSlash = .ok s₁) (hroom : EnoughRoom s₁ size.toNat) :
    WritesWhole s s₁ n buf size ↔ Divides s₁.geo size.toNat := by
  obtain ⟨hspc, hsize, t, k, l, hrun, hk, hgeo, hfile, hlen⟩ := write_with_room buf h hpos hdrop hroom
  rw [← needed_enough_iff hspc hsize]
  have hpayload : payload s₁.geo size.toNat =
      min size.toNat (clustersNeeded s₁.geo size.toNat * (s₁.geo.sectorsPerCluster.toNat * 512)) := by
    unfold payload
    rw [Nat.mul_comm 512, Nat.mul_assoc]
  constructor
  · rintro ⟨u, _, _, hrun', -⟩
    have hret := (Prod.mk.inj (Except.ok.inj (hrun.symm.trans hrun'))).1
    omega
  · intro henough
    refine ⟨t, k, l, ?_, hk, hfile, ?_⟩
    · rw [hrun, hpayload, Nat.min_eq_left henough]
    · rw [hgeo, hlen]
      exact henough

/-- Clusters of two sectors. -/
def pairGeometry : Geometry := ⟨512, 2, 1, 1, 16, 11, 1⟩

theorem pair_fits : FatFits pairGeometry := ⟨by decide, by decide, by decide, by decide⟩

theorem pair_usable : Usable (formatted pairGeometry) := (formatted_well_formed pair_fits).usable

/-- Four clusters are free on the empty volume, and all slots. -/
theorem pair_room (size : Nat) (hsize : size ≤ 4096) :
    ∃ s₁, dropOld (formatted pairGeometry) fileA = .ok s₁ ∧ s₁.geo = pairGeometry ∧ EnoughRoom s₁ size := by
  have hrun : (dropOld (formatted pairGeometry) fileA).map (fun s =>
      ((freeClusters (fatEntry s.fat.data) s.geo).length, (freeSlot s.geo s.disk.ata.sectors).isSome)) =
      .ok (4, true) := by
    decide +kernel
  obtain ⟨s₁, hdrop, hfacts⟩ := ok_of_map hrun
  obtain ⟨hfree, hslot⟩ := Prod.mk.inj hfacts
  have hshown : (formatted pairGeometry).disk.ata.sectors = formatImage pairGeometry :=
    (unmounted_shows (formatImage pairGeometry)).sectors
  have hs := formatted_well_formed pair_fits
  rw [← hshown] at hs
  have hgeo : s₁.geo = pairGeometry := (dropped_freed hs hdrop).geo
  have hspc : pairGeometry.sectorsPerCluster.toNat = 2 := by decide
  refine ⟨s₁, hdrop, hgeo, ⟨?_, fun hnone => ?_⟩⟩
  · rw [hfree, hgeo, hspc]
    omega
  · rw [hnone] at hslot
    cases hslot

/-- A file of 600 bytes fits in one cluster of two sectors. -/
theorem writes_whole_iff_pair : ∃ s₁, WritesWhole (formatted pairGeometry) s₁ fileA (fun _ => 7) 600 := by
  obtain ⟨s₁, hdrop, hgeo, hroom⟩ := pair_room (600 : UInt32).toNat (by decide)
  refine ⟨s₁, (writes_whole_iff pair_usable (by decide) hdrop hroom).mpr ?_⟩
  rw [hgeo]
  decide

/-- A file of three sectors gets one cluster of two, and its last byte is not stored. -/
theorem last_sector_lost : ¬ ∀ (s s₁ : Fat12) (n : CString) (buf : Bytes) (size : UInt32), Usable s →
    1 ≤ size.toNat → dropOld s n.skipSlash = .ok s₁ → EnoughRoom s₁ size.toNat → WritesWhole s s₁ n buf size := by
  intro hall
  obtain ⟨s₁, hdrop, -, hroom⟩ := pair_room (1025 : UInt32).toNat (by decide)
  obtain ⟨t, _, _, hrun, -⟩ :=
    hall (formatted pairGeometry) s₁ fileA (fun _ => 7) 1025 pair_usable (by decide) hdrop hroom
  have hshort : (fat12Write (formatted pairGeometry) (some fileA) (some fun _ => 7) 1025).map Prod.fst = .ok 1024 := by
    decide +kernel
  rw [hrun] at hshort
  have hret : ((1025 : UInt32).toNat : Int) = 1024 := Except.ok.inj hshort
  exact absurd hret (by decide)

end BaSic.Proofs.FatCapacity
