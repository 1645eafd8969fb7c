import BaSic.Proofs.FatCopies
import BaSic.Proofs.RootListing

namespace BaSic.Proofs.Reboot
open Kernel Lib FatTable FatChains Directory FileData Volume FileOps FatInvariant FatWrite ReadBack
open Formatted ChainInvariant OtherFiles FatCopies RootListing

/-- The machine goes off and on again: the driver has its first statics and the disk layer an empty
cache, over the sectors that the drive has kept. -/
def reboot (s : Fat12) (stack : Sector) : Except Fault (Int × Fat12) :=
  fat12Init { unmounted s.disk.ata.sectors with stack := stack }

/-- Two volumes that differ at most in the FAT sectors, with the same entries of the FAT in memory. -/
structure Alike (s : Fat12) (image : Nat → Sector) (t : Fat12) (image' : Nat → Sector) : Prop where
  geo : t.geo = s.geo
  table : ∀ c, c ≤ s.geo.totalClusters + 1 → fatEntry t.fat.data c = fatEntry s.fat.data c
  image : ∀ lba, s.geo.rootStartLba ≤ lba → image' lba = image lba

variable {s s' s₁ t t' t₁ u : Fat12} {image image' image'' : Nat → Sector} {chain : Nat → List Nat}
  {leaked : Nat → Prop} {g : Geometry} {q : CString} {old : Option Nat} {buf : Bytes} {size k : Nat}

theorem Alike.refl (s : Fat12) (image : Nat → Sector) : Alike s image s image :=
  ⟨rfl, fun _ _ => rfl, fun _ _ => rfl⟩

theorem Alike.symm (h : Alike s image t image') : Alike t image' s image := by
  obtain ⟨hgeo, htable, himage⟩ := h
  rw [← hgeo] at htable himage
  exact ⟨hgeo.symm, fun c hc => (htable c hc).symm, fun lba hlba => (himage lba hlba).symm⟩

theorem Alike.trans (h : Alike s image t image') (h' : Alike t image' u image'') : Alike s image u image'' := by
  obtain ⟨hgeo, htable, himage⟩ := h'
  rw [h.geo] at htable himage
  exact ⟨hgeo.trans h.geo, fun c hc => (htable c hc).trans (h.table c hc),
    fun lba hlba => (himage lba hlba).trans (h.image lba hlba)⟩

theorem Alike.slot (h : Alike s image t image') (hk : k < s.geo.rootEntryCount.toNat) :
    slotAt s.geo image' k = slotAt s.geo image k := slot_at_congr hk (fun lba hlba _ => h.image lba hlba)

theorem Alike.lookup (h : Alike s image t image') (q : CString) : lookup s.geo image' q = lookup s.geo image q :=
  lookup_congr (fun _ hk => h.slot hk)

theorem Alike.free_clusters (h : Alike s image t image') (hg : FatFits s.geo) :
    freeClusters (fatEntry t.fat.data) s.geo = freeClusters (fatEntry s.fat.data) s.geo :=
  free_clusters_congr hg h.table

/-- The same files have the same chains on both. -/
theorem Alike.well_formed (h : Alike s image t image') (hs : WellFormed s image chain leaked) (ht : Mounted t image') :
    WellFormed t image' chain leaked := by
  refine ⟨ht, by rw [h.geo]; exact hs.fits, ?_⟩
  rw [h.geo]
  have hchains : Chains s.geo (fatEntry s.fat.data) (slotAt s.geo image') chain leaked :=
    ChainSystem.congr hs.chains (fun j => live_congr (fun hj => h.slot hj)) (fun j hj => by rw [h.slot hj.1])
  obtain ⟨hlinked, hnodes, hnodup, hapart, hkept, howned⟩ := hchains
  have hsame : ∀ c, DataCluster s.geo c → fatEntry t.fat.data c = fatEntry s.fat.data c := fun c hc => h.table c hc.2
  refine ⟨fun j hj => ?_, hnodes, hnodup, hapart, hkept, fun c hc => ?_⟩
  · obtain ⟨e, hp, he⟩ := hlinked j hj
    exact ⟨e, hp.congr (fun c hc => hsame c (hnodes j hj c hc)), he⟩
  · rw [hsame c hc]
    exact howned c hc

/-- What can be learnt about the files by calls that do not change the volume. -/
structure SameFiles (s t : Fat12) : Prop where
  reads : ∀ path out cap, readResult t path out cap = readResult s path out cap
  found : ∀ path, (fat12Exists t path).1 = (fat12Exists s path).1
  listed : ∀ path max, (s.geo.rootEntryCount.toNat : Int) ≤ max → (fat12List t path max).1 = (fat12List s path max).1
  room : freeClusters (fatEntry t.fat.data) t.geo = freeClusters (fatEntry s.fat.data) s.geo

theorem shown_congr {slots slots' : Nat → Entry} {count k : Nat} (h : ∀ i, k ≤ i → i < k + count → slots' i = slots i) :
    shown slots' count k = shown slots count k := by
  induction count generalizing k with
  | zero => rfl
  | succ count ih =>
    rw [shown, shown, h k (Nat.le_refl k) (by omega), ih (fun i hi hlt => h i (by omega) (by omega))]

theorem Alike.same_files (h : Alike s image t image') (hs : WellFormed s image chain leaked) (ht : Mounted t image') :
    SameFiles s t := by
  have hwf := h.well_formed hs ht
  have hlookup : ∀ path : CString, Directory.lookup t.geo image' path.skipSlash =
      Directory.lookup s.geo image path.skipSlash := by
    intro path
    rw [h.geo]
    exact h.lookup _
  refine ⟨fun path out cap => ?_, fun path => ?_, fun path max hmax => ?_, ?_⟩
  · cases hl : Directory.lookup s.geo image path.skipSlash with
    | none =>
      obtain ⟨d, hrun, -⟩ := fat12_read_none hs.mounted hl chainFuel out cap
      obtain ⟨d', hrun', -⟩ := fat12_read_none ht ((hlookup path).trans hl) chainFuel out cap
      unfold readResult
      rw [hrun, hrun']
      rfl
    | some k =>
      have hlive := lookup_live hl
      have hsame : SameFile s image t image' k (chain k) := by
        refine ⟨h.slot hlive.1, fun c hc => h.table c (hs.chains.nodes k hlive c hc).2, fun lba hlba => h.image lba ?_⟩
        exact Nat.le_trans (root_le_data s.geo) (chain_lbas_ge hlba)
      exact hsame.read hs.mounted ht h.geo (hs.chains.file_at hs.fits hlive) hl ((h.lookup _).trans hl) out cap
  · rw [fat12_exists_eq ht, fat12_exists_eq hs.mounted, hlookup path]
  · rw [fat12_list_eq hs.mounted.ready hs.mounted.shows path hmax,
      fat12_list_eq ht.ready ht.shows path (by rw [h.geo]; exact hmax), h.geo]
    exact shown_congr (fun i _ hi => h.slot (by omega))
  · rw [h.geo]
    exact h.free_clusters hs.fits

/-- Freeing the same file on both. -/
theorem Alike.freed (h : Alike s image t image') (hs : Freed s image chain old s₁) (ht : Freed t image' chain old t₁) :
    Alike s₁ (freedImage s.geo image old) t₁ (freedImage t.geo image' old) := by
  refine ⟨by rw [ht.geo, hs.geo, h.geo], fun c hc => ?_, fun lba hlba => ?_⟩
  · rw [hs.geo] at hc
    rw [ht.table, hs.table]
    unfold freedTable clear
    split
    · rfl
    · exact h.table c hc
  · rw [hs.geo] at hlba
    rw [h.geo]
    cases old with
    | none => exact h.image lba hlba
    | some k =>
      have hsector := h.image (s.geo.rootStartLba + k / 16) (Nat.le_add_right _ _)
      change dropSlot s.geo image' k lba = dropSlot s.geo image k lba
      unfold dropSlot
      rw [Function.update_apply, Function.update_apply, hsector, h.image lba hlba]

theorem store_data_congr {lbas : List Nat} {written lba : Nat} (h : image' lba = image lba) :
    storeData buf size lbas written image' lba = storeData buf size lbas written image lba := by
  induction lbas generalizing image image' written with
  | nil => exact h
  | cons x lbas ih =>
    rw [storeData, storeData]
    split
    · refine ih ?_
      rw [Function.update_apply, Function.update_apply, h]
    · exact h

theorem Alike.taken (h : Alike s image t image') (hg : FatFits s.geo) (size : Nat) :
    takenClusters t size = takenClusters s size := by
  unfold takenClusters
  rw [h.geo, h.free_clusters hg]

theorem Alike.taken_lbas (h : Alike s image t image') (hg : FatFits s.geo) (size : Nat) :
    takenLbas t size = takenLbas s size := by
  unfold takenLbas
  rw [h.geo, h.taken hg]

theorem Alike.free_slot (h : Alike s image t image') : freeSlot t.geo image' = freeSlot s.geo image := by
  rw [h.geo]
  exact first_hit_congr (fun i _ hi => congrArg _ (h.slot (by omega)))

theorem Alike.room (h : Alike s image t image') (hg : FatFits s.geo) (size : Nat) :
    (freeClusters (fatEntry t.fat.data) t.geo).length < clustersNeeded t.geo size ↔
      (freeClusters (fatEntry s.fat.data) s.geo).length < clustersNeeded s.geo size := by
  rw [h.geo, h.free_clusters hg]

theorem Alike.data_image (h : Alike s image t image') (hg : FatFits s.geo) {lba : Nat}
    (hlba : s.geo.rootStartLba ≤ lba) : dataImage t image' buf size lba = dataImage s image buf size lba := by
  unfold dataImage
  rw [h.taken_lbas hg]
  exact store_data_congr (h.image lba hlba)

/-- A file stored on both, with the same outcome. -/
theorem Alike.store {r : Int} (h : Alike s image t image') (hs : WellFormed s image chain leaked) (ht : Mounted t image')
    (name : CString) (hsize : size < 4294967296) (hrun : storeFile s name buf size = .ok (r, s')) :
    ∃ t' image₁ image₁', storeFile t name buf size = .ok (r, t') ∧ Mounted s' image₁ ∧ Mounted t' image₁' ∧
      Alike s' image₁ t' image₁' := by
  have hwf := h.well_formed hs ht
  have hsame := h.room hs.fits size
  rcases store_file_eq hs.mounted hs.fits.regions name buf hsize with
    ⟨hlt, f, hdone, hf⟩ | ⟨hroom, hfull, f, d, hdone, hf, hd⟩ | ⟨hroom, k, f, d, hk, hdone, hbuilt, htable, hd⟩
  · rw [hdone] at hrun
    obtain ⟨rfl, rfl⟩ := Prod.mk.inj (Except.ok.inj hrun)
    rcases store_file_eq hwf.mounted hwf.fits.regions name buf hsize with
      ⟨-, f', hdone', hf'⟩ | ⟨hroom', -⟩ | ⟨hroom', -⟩
    · refine ⟨_, image, image', hdone', ⟨hs.mounted.ready, hs.mounted.shows⟩, ⟨ht.ready, ht.shows⟩, h.geo, ?_, h.image⟩
      intro c hc
      dsimp only
      rw [hf, hf']
      exact h.table c hc
    · exact absurd (hsame.mpr hlt) (Nat.not_lt.mpr hroom')
    · exact absurd (hsame.mpr hlt) (Nat.not_lt.mpr hroom')
  · rw [hdone] at hrun
    obtain ⟨rfl, rfl⟩ := Prod.mk.inj (Except.ok.inj hrun)
    rcases store_file_eq hwf.mounted hwf.fits.regions name buf hsize with
      ⟨hlt', -⟩ | ⟨-, -, f', d', hdone', hf', hd'⟩ | ⟨-, k', _, _, hk', -⟩
    · exact absurd (hsame.mp hlt') (Nat.not_lt.mpr hroom)
    · refine ⟨_, _, _, hdone', ⟨hs.mounted.ready, hd⟩, ⟨ht.ready, hd'⟩, h.geo, ?_, fun lba hlba => h.data_image hs.fits hlba⟩
      intro c hc
      dsimp only
      rw [hf, hf']
      exact h.table c hc
    · rw [h.free_slot, hfull] at hk'
      cases hk'
  · rw [hdone] at hrun
    obtain ⟨rfl, rfl⟩ := Prod.mk.inj (Except.ok.inj hrun)
    rcases store_file_eq hwf.mounted hwf.fits.regions name buf hsize with
      ⟨hlt', -⟩ | ⟨-, hfull', -⟩ | ⟨-, k', f', d', hk', hdone', hbuilt', htable', hd'⟩
    · exact absurd (hsame.mp hlt') (Nat.not_lt.mpr hroom)
    · rw [h.free_slot, hk] at hfull'
      cases hfull'
    · obtain rfl : k' = k := Option.some.inj (hk'.symm.trans (h.free_slot.trans hk))
      rw [h.taken hs.fits] at hbuilt' htable'
      have hstored : storedSize t size = storedSize s size := by
        unfold storedSize
        rw [h.taken_lbas hs.fits]
      rw [hstored] at hdone'
      refine ⟨_, _, _, hdone', ⟨hs.mounted.ready, hd⟩, ⟨ht.ready, hd'⟩, h.geo, ?_, ?_⟩
      · intro c hc
        dsimp only
        by_cases hmem : c ∈ takenClusters s size
        · have hne := List.ne_nil_of_mem hmem
          exact (hbuilt.path hne).links_unique (hbuilt'.path hne) c hmem
        · rw [htable c hmem, htable' c hmem]
          exact h.table c hc
      · intro lba hlba
        have hsector : dataImage t image' buf size (s.geo.rootStartLba + k' / 16) =
            dataImage s image buf size (s.geo.rootStartLba + k' / 16) := h.data_image hs.fits (Nat.le_add_right _ _)
        rw [hs.fits.regions.store_fat_other f hlba, hwf.fits.regions.store_fat_other f' (by rw [h.geo]; exact hlba),
          h.taken hs.fits]
        unfold storeSlot
        rw [h.geo, Function.update_apply, Function.update_apply, hsector, h.data_image hs.fits hlba]

/-- What a write does before it stores the new version is the same on both. -/
theorem Alike.write {r : Int} {n : CString} {size : UInt32} (h : Alike s image t image')
    (hs : WellFormed s image chain leaked) (ht : Mounted t image')
    (hrun : fat12Write s (some n) (some buf) size = .ok (r, s')) :
    ∃ t' image₁ image₁', fat12Write t (some n) (some buf) size = .ok (r, t') ∧ Mounted s' image₁ ∧ Mounted t' image₁' ∧
      Alike s' image₁ t' image₁' := by
  have hwf := h.well_formed hs ht
  obtain ⟨s₁, hf, hstore⟩ := fat12_write_eq hs n buf size
  obtain ⟨t₁, hf', hstore'⟩ := fat12_write_eq hwf n buf size
  rw [h.geo, h.lookup] at hf'
  rw [hstore] at hrun
  have hlike := h.freed hf hf'
  have hlive : ∀ k, Directory.lookup s.geo image n.skipSlash = some k → Live s.geo (slotAt s.geo image) k :=
    fun k hk => lookup_live hk
  obtain ⟨t', image₁, image₁', hdone, hm, hm', hnext⟩ :=
    hlike.store (hf.well_formed hs hlive) hf'.mounted n.skipSlash size.toNat_lt hrun
  exact ⟨t', image₁, image₁', hstore'.trans hdone, hm, hm', hnext⟩

theorem Alike.delete {r : Int} {n : CString} (h : Alike s image t image') (hs : WellFormed s image chain leaked)
    (ht : Mounted t image') (hrun : fat12Delete s (some n) = .ok (r, s')) :
    ∃ t' image₁ image₁', fat12Delete t (some n) = .ok (r, t') ∧ Mounted s' image₁ ∧ Mounted t' image₁' ∧
      Alike s' image₁ t' image₁' := by
  have hwf := h.well_formed hs ht
  obtain ⟨s₁, d, hf, hnone, hsome⟩ := fat12_delete_eq hs n
  obtain ⟨t₁, d', hf', hnone', hsome'⟩ := fat12_delete_eq hwf n
  have hlookup : Directory.lookup t.geo image' n.skipSlash = Directory.lookup s.geo image n.skipSlash := by
    rw [h.geo]
    exact h.lookup _
  rw [hlookup] at hf' hnone' hsome'
  have hlike := h.freed hf hf'
  by_cases hl : Directory.lookup s.geo image n.skipSlash = none
  · rw [hnone hl] at hrun
    obtain ⟨rfl, rfl⟩ := Prod.mk.inj (Except.ok.inj hrun)
    exact ⟨_, _, _, hnone' hl, hf.mounted, hf'.mounted, hlike⟩
  · obtain ⟨hdone, hd⟩ := hsome hl
    obtain ⟨hdone', hd'⟩ := hsome' hl
    rw [hdone] at hrun
    obtain ⟨rfl, rfl⟩ := Prod.mk.inj (Except.ok.inj hrun)
    have hfits : FatFits s₁.geo := by
      rw [hf.geo]
      exact hs.fits
    refine ⟨_, _, _, hdone', ⟨hf.mounted.ready, hd⟩, ⟨hf'.mounted.ready, hd'⟩, hlike.geo, hlike.table, fun lba hlba => ?_⟩
    rw [flushed_other hfits hlba, flushed_other (by rw [hlike.geo]; exact hfits) (by rw [hlike.geo]; exact hlba)]
    exact hlike.image lba hlba

/-- A write runs out of room on both or on neither. -/
theorem Alike.out_of_room (h : Alike s s.disk.ata.sectors t t.disk.ata.sectors)
    (hs : WellFormed s s.disk.ata.sectors chain leaked) (ht : Mounted t t.disk.ata.sectors) (op : FatUpdate) :
    OutOfRoom t op ↔ OutOfRoom s op := by
  match op with
  | .delete _ => exact Iff.rfl
  | .write none _ _ => exact Iff.rfl
  | .write (some _) none _ => exact Iff.rfl
  | .write (some n) (some buf) size =>
    have hwf := h.well_formed hs ht
    obtain ⟨s₁, hf, -⟩ := fat12_write_eq hs n buf size
    obtain ⟨t₁, hf', -⟩ := fat12_write_eq hwf n buf size
    have hlookup : Directory.lookup t.geo t.disk.ata.sectors n.skipSlash =
        Directory.lookup s.geo s.disk.ata.sectors n.skipSlash := by
      rw [h.geo]
      exact h.lookup _
    rw [out_of_room_iff hs hf, out_of_room_iff hwf hf', hlookup]
    rw [hlookup] at hf'
    have hlike := h.freed hf hf'
    have hfits : FatFits s₁.geo := by
      rw [hf.geo]
      exact hs.fits
    have hfree := hlike.free_clusters hfits
    rw [hf.geo] at hfree
    rw [h.geo, hfree]

/-- Both take a call in the same way. -/
theorem alike_step {op : FatUpdate} {r : Int} (hs : Mirrored s) (ht : Mirrored t)
    (h : Alike s s.disk.ata.sectors t t.disk.ata.sectors) (hcall : RoomyCall s op r s') :
    ∃ t', RoomyCall t op r t' ∧ Alike s' s'.disk.ata.sectors t' t'.disk.ata.sectors := by
  obtain ⟨chain, leaked, hwf⟩ := hs.usable
  obtain ⟨_, _, hwf'⟩ := ht.usable
  have hroom : ¬ OutOfRoom t op := fun ho => hcall.1 ((h.out_of_room hwf hwf'.mounted op).mp ho)
  have hidle : ∀ r', (∀ u : Fat12, u.ready = true → updateStep u op = .ok (r', u)) →
      ∃ t', RoomyCall t op r t' ∧ Alike s' s'.disk.ata.sectors t' t'.disk.ata.sectors := by
    intro r' hsame
    have hrun := hcall.2
    rw [hsame s hwf.mounted.ready] at hrun
    obtain ⟨rfl, rfl⟩ := Prod.mk.inj (Except.ok.inj hrun)
    exact ⟨t, ⟨hroom, hsame t hwf'.mounted.ready⟩, h⟩
  have hdone : (∃ t' image₁ image₁', updateStep t op = .ok (r, t') ∧ Mounted s' image₁ ∧ Mounted t' image₁' ∧
      Alike s' image₁ t' image₁') → ∃ t', RoomyCall t op r t' ∧ Alike s' s'.disk.ata.sectors t' t'.disk.ata.sectors := by
    rintro ⟨t', image₁, image₁', hrun, hm, hm', hnext⟩
    refine ⟨t', ⟨hroom, hrun⟩, ?_⟩
    rw [hm.shows.sectors, hm'.shows.sectors]
    exact hnext
  match op with
  | .delete none => exact hidle 0 (fun u hu => by simp [updateStep, fat12Delete, hu])
  | .delete (some n) => exact hdone (h.delete hwf hwf'.mounted hcall.2)
  | .write none _ _ => exact hidle 0 (fun u hu => by simp [updateStep, fat12Write, hu])
  | .write (some _) none _ => exact hidle 0 (fun u hu => by simp [updateStep, fat12Write, hu])
  | .write (some n) (some buf) size => exact hdone (h.write hwf hwf'.mounted hcall.2)

/-- Mounting reads the disk and changes nothing on it. -/
theorem fat12_init_shows {r : Int} (hu : Shows u.disk image) (hinit : fat12Init u = .ok (r, t)) : Shows t.disk image := by
  obtain ⟨hr, hcoh, hs⟩ := hu.coherent.read 0
  rw [hu.sectors] at hr hs
  unfold fat12Init at hinit
  generalize diskReadSector u.disk 0 = res at hr hcoh hs hinit
  obtain ⟨_, d⟩ := res
  cases hr
  dsimp only at hinit hcoh hs
  have hd : Shows d image := ⟨hcoh, hs⟩
  split at hinit
  · obtain ⟨-, rfl⟩ := Prod.mk.inj (Except.ok.inj hinit)
    exact hd
  · split at hinit
    · cases hinit
    · obtain ⟨d₁, hread, hd₁⟩ := hd.read (bpb (image 0)).fatStartLba (u.fat.half false)
      rw [hread] at hinit
      obtain ⟨-, rfl⟩ := Prod.mk.inj (Except.ok.inj hinit)
      dsimp only
      split
      · obtain ⟨d₂, hread', hd₂⟩ := hd₁.read ((bpb (image 0)).fatStartLba + 1)
          ((u.fat.setHalf false (image (bpb (image 0)).fatStartLba)).half true)
        rw [hread']
        exact hd₂
      · exact hd₁

/-- A reboot mounts the volume with the same files. -/
theorem reboot_alike (h : Mirrored s) (stack : Sector) :
    ∃ t, reboot s stack = .ok (1, t) ∧ Mirrored t ∧ Alike s s.disk.ata.sectors t t.disk.ata.sectors := by
  obtain ⟨⟨chain, leaked, hwf⟩, hboot, hcopies⟩ := h
  have hspc : s.geo.sectorsPerCluster ≠ 0 := by
    intro h0
    have hpos := hwf.fits.spc
    rw [h0] at hpos
    exact absurd hpos (by decide)
  have hu : Shows ({ unmounted s.disk.ata.sectors with stack := stack } : Fat12).disk s.disk.ata.sectors :=
    unmounted_shows s.disk.ata.sectors
  obtain ⟨t, hinit, hgeo, hready, hlow, hhigh⟩ := fat12_init_eq hboot.signature hboot.fields hspc hu
  have hmounted : Mounted t s.disk.ata.sectors := ⟨hready, fat12_init_shows hu hinit⟩
  have hsectors := hmounted.shows.sectors
  have hloaded := loaded_copies hwf.fits hboot hcopies hlow hhigh
  have hlike : Alike s s.disk.ata.sectors t s.disk.ata.sectors :=
    ⟨hgeo, fun c hc => entry_of_copies hwf.fits hcopies hloaded hc, fun _ _ => rfl⟩
  refine ⟨t, hinit, ⟨(hlike.well_formed hwf hmounted).usable, ?_, ?_⟩, ?_⟩
  · rw [hgeo, hsectors]
    exact hboot
  · rw [hgeo, hsectors]
    exact hloaded
  · rw [hsectors]
    exact hlike

/-- What happens to a volume: calls of the driver, and reboots with anything in the sector buffers. -/
inductive VolumeEvent where
  | call (op : FatUpdate)
  | reboot (stack : Sector)

def VolumeStep (s : Fat12) (e : VolumeEvent) (r : Int) (t : Fat12) : Prop :=
  match e with
  | .call op => RoomyCall s op r t
  | .reboot stack => reboot s stack = .ok (r, t)

/-- The calls of a history and what they returned. -/
def callsOf : List (VolumeEvent × Int) → List (FatUpdate × Int)
  | [] => []
  | (.call op, r) :: history => (op, r) :: callsOf history
  | (.reboot _, _) :: history => callsOf history

/-- However often the machine is switched off and on between calls of the driver, every call returns what
it would have returned without that, and the files in the end are the same. -/
theorem reboots_are_invisible {history : List (VolumeEvent × Int)} (h : Mirrored s)
    (hrun : Steps VolumeStep s history t) :
    ∃ u, Steps RoomyCall s (callsOf history) u ∧ SameFiles u t ∧ ∀ stack, ∃ v, reboot t stack = .ok (1, v) := by
  have hsim : ∀ a, Mirrored a → Alike s s.disk.ata.sectors a a.disk.ata.sectors →
      ∃ u, Steps RoomyCall a (callsOf history) u ∧ Mirrored u ∧ Mirrored t ∧
        Alike u u.disk.ata.sectors t t.disk.ata.sectors := by
    induction hrun with
    | nil s => exact fun a ha hlike => ⟨a, .nil a, ha, h, hlike.symm⟩
    | @cons s m t e r history head tail ih =>
      intro a ha hlike
      match e with
      | .call op =>
        obtain ⟨b, hcall, hnext⟩ := alike_step h ha hlike head
        obtain ⟨u, hsteps, hu⟩ := ih (roomy_mirrored h head) b (roomy_mirrored ha hcall) hnext
        exact ⟨u, .cons hcall hsteps, hu⟩
      | .reboot stack =>
        obtain ⟨m', hrun, hm, hsame⟩ := reboot_alike h stack
        obtain ⟨-, rfl⟩ := Prod.mk.inj (Except.ok.inj (hrun.symm.trans head))
        exact ih hm a ha (hsame.symm.trans hlike)
  obtain ⟨u, hsteps, hu, ht, hlike⟩ := hsim s h (Alike.refl s _)
  obtain ⟨_, _, hwf⟩ := hu.usable
  obtain ⟨_, _, hwf'⟩ := ht.usable
  refine ⟨u, hsteps, hlike.same_files hwf hwf'.mounted, fun stack => ?_⟩
  obtain ⟨v, hv, -⟩ := reboot_alike ht stack
  exact ⟨v, hv⟩

/-- A file is written, the machine rebooted, and the file deleted. -/
theorem reboots_are_invisible_small : ∃ t u, Steps RoomyCall (formatted smallGeometry)
    [(.write (some fileA) (some fun _ => 7) 600, 600), (.delete (some fileA), 1)] u ∧ SameFiles u t := by
  have hroom : ¬ OutOfRoom (formatted smallGeometry) (.write (some fileA) (some fun _ => 7) 600) := by
    rintro ⟨k, _, hk, _⟩
    exact formatted_unused small_fits k (lookup_live hk).2.1
  have hrun : (fat12Write (formatted smallGeometry) (some fileA) (some fun _ => 7) 600).map (fun x =>
      (x.1, (reboot x.2 (fun _ => 0)).map (fun y => (y.1, (fat12Delete y.2 (some fileA)).map Prod.fst)))) =
      .ok (600, .ok (1, .ok 1)) := by
    decide +kernel
  obtain ⟨⟨_, s⟩, hfirst, hfacts⟩ := ok_of_map hrun
  obtain ⟨rfl, hsecond⟩ := Prod.mk.inj hfacts
  obtain ⟨⟨_, m⟩, hsecond, hfacts⟩ := ok_of_map hsecond
  obtain ⟨rfl, hthird⟩ := Prod.mk.inj hfacts
  obtain ⟨⟨_, t⟩, hthird, rfl⟩ := ok_of_map hthird
  have hhistory : Steps VolumeStep (formatted smallGeometry)
      [(.call (.write (some fileA) (some fun _ => 7) 600), 600), (.reboot (fun _ => 0), 1),
        (.call (.delete (some fileA)), 1)] t :=
    .cons ⟨hroom, hfirst⟩ (.cons hsecond (.cons ⟨id, hthird⟩ (.nil t)))
  obtain ⟨u, hsteps, hsame, -⟩ := reboots_are_invisible small_mirrored hhistory
  exact ⟨t, u, hsteps, hsame⟩

end BaSic.Proofs.Reboot
