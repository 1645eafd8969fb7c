import BaSic.Proofs.OtherFiles

namespace BaSic.Proofs.FatCopies
open Kernel Lib FatTable FatChains Directory FileData Volume FileOps FatInvariant FatWrite
open Formatted ChainInvariant OtherFiles

/-- Every copy of the FAT in the sectors `image` equals `fat_data`. -/
def CopiesEqual (g : Geometry) (f : FatCache) (image : Nat → Sector) : Prop :=
  ∀ i, i < g.numFats.toNat → ∀ j, j < g.sectorsPerFat.toNat →
    image (g.fatStartLba + i * g.sectorsPerFat.toNat + j) = f.half (decide (0 < j))

/-- At most two copies of at most two sectors, behind the boot sector the volume
was mounted from. -/
structure Bootable (g : Geometry) (image : Nat → Sector) : Prop where
  copies : g.numFats.toNat ≤ 2
  sectors : g.sectorsPerFat.toNat ≤ 2
  reserved : 1 ≤ g.reservedSectors.toNat
  signature : image 0 510 = 0x55 ∧ image 0 511 = 0xAA
  fields : bpb (image 0) = g

variable {s s₁ t u : Fat12} {image image' : Nat → Sector} {chain : Nat → List Nat} {leaked : Nat → Prop}
  {g : Geometry} {f f' : FatCache} {old : Option Nat} {n : CString} {buf : Bytes}

theorem CopiesEqual.congr (h : CopiesEqual g f image) (hf : f'.data = f.data)
    (hi : ∀ lba, lba < g.rootStartLba → image' lba = image lba) : CopiesEqual g f' image' := by
  intro i hin j hj
  have hcopy : i * g.sectorsPerFat.toNat + j < g.numFats.toNat * g.sectorsPerFat.toNat := by
    calc i * g.sectorsPerFat.toNat + j < (i + 1) * g.sectorsPerFat.toNat := by
          rw [Nat.succ_mul]
          omega
      _ ≤ g.numFats.toNat * g.sectorsPerFat.toNat := Nat.mul_le_mul_right _ hin
  rw [hi _ (by unfold Geometry.rootStartLba; omega), h i hin j hj]
  unfold FatCache.half
  rw [hf]

theorem Bootable.congr (h : Bootable g image) (hi : image' 0 = image 0) : Bootable g image' := by
  obtain ⟨hc, hs, hr, hsig, hfields⟩ := h
  exact ⟨hc, hs, hr, by rwa [hi], by rwa [hi]⟩

/-- A flush makes every copy equal. -/
theorem store_fat_copies (h : Bootable g image) (f : FatCache) (image : Nat → Sector) :
    CopiesEqual g f (storeFat g f image) := by
  intro i hi j hj
  have hn := h.copies
  have hs := h.sectors
  have hnum : 1 < g.numFats ↔ 1 < g.numFats.toNat := Iff.rfl
  have hspf : 1 < g.sectorsPerFat ↔ 1 < g.sectorsPerFat.toNat := Iff.rfl
  have hfirst : j = 0 ∨ j = 1 := by omega
  have hcopy : i = 0 ∨ i = 1 := by omega
  unfold storeFat
  by_cases h2 : 1 < g.numFats.toNat <;> by_cases h1 : 1 < g.sectorsPerFat.toNat <;>
    simp only [hnum, hspf, h1, h2, ↓reduceIte, Function.update_apply] <;>
    rcases hcopy with rfl | rfl <;> rcases hfirst with rfl | rfl <;>
    split_ifs <;> first | rfl | omega

/-- Two tables with the same copies on disk have the same entries. -/
theorem entry_of_copies (hg : FatFits g) (h : CopiesEqual g f image) (h' : CopiesEqual g f' image) {c : Nat}
    (hc : c ≤ g.totalClusters + 1) : fatEntry f'.data c = fatEntry f.data c := by
  have hmem := hg.inMemory c hc
  have hdisk := hg.onDisk c hc
  have hb : fatBytes = 1024 := rfl
  have hhalf : ∀ b, b / 512 < g.sectorsPerFat.toNat →
      f'.half (decide (0 < b / 512)) = f.half (decide (0 < b / 512)) := by
    intro b hlt
    rw [← h 0 hg.copies _ hlt, ← h' 0 hg.copies _ hlt]
  have hbyte : ∀ f : FatCache, ∀ b, b < fatBytes →
      byteAt f.data b = (f.half (decide (0 < b / 512)) (Fin.ofNat 512 b)).toNat := by
    intro f b hlt
    rw [byte_at_eq hlt]
    unfold FatCache.half
    congr 2
    apply Fin.ext
    simp only [decide_eq_true_eq, Fin.val_ofNat]
    split <;> omega
  have hsame : ∀ b, b < fatBytes → b < 512 * g.sectorsPerFat.toNat → byteAt f'.data b = byteAt f.data b := by
    intro b h0 h1
    rw [hbyte f' b h0, hbyte f b h0, hhalf b (by omega)]
  unfold fatEntry
  simp only
  rw [hsame _ (by omega) (by omega), hsame _ (by omega) (by omega)]

theorem free_clusters_congr (hg : FatFits g) {next next' : Nat → Nat}
    (h : ∀ c, c ≤ g.totalClusters + 1 → next' c = next c) : freeClusters next' g = freeClusters next g := by
  have hlim := hg.limit_eq
  refine List.filter_congr (fun c hc => ?_)
  rw [List.mem_range'_1] at hc
  rw [h c (by omega)]

theorem half_set_half (f : FatCache) (x y : Bool) (sector : Sector) :
    (f.setHalf x sector).half y = if y = x then sector else f.half y := by
  funext i
  unfold FatCache.half FatCache.setHalf
  have hi := i.isLt
  cases x <;> cases y <;> simp only [Bool.false_eq_true, ↓reduceIte, reduceCtorEq] <;> split <;>
    first | rfl | omega | (congr 1; apply Fin.ext; simp only [Fin.val_ofNat]; omega)

/-- The table read at a mount has the entries of every equal copy. -/
theorem loaded_copies (hg : FatFits g) (hb : Bootable g image) (hc : CopiesEqual g f image)
    (hlow : f'.half false = image g.fatStartLba)
    (hhigh : 1 < g.sectorsPerFat.toNat → f'.half true = image (g.fatStartLba + 1)) :
    CopiesEqual g f' image := by
  intro i hi j hj
  have hs := hb.sectors
  rw [hc i hi j hj, ← hc 0 hg.copies j hj, Nat.zero_mul, Nat.add_zero]
  obtain rfl | rfl : j = 0 ∨ j = 1 := by omega
  · exact hlow.symm
  · exact (hhigh hj).symm

/-- Mounting a volume with a boot signature reads the first two sectors of the FAT. -/
theorem fat12_init_eq (hsig : image 0 510 = 0x55 ∧ image 0 511 = 0xAA) (hfields : bpb (image 0) = g)
    (hspc : g.sectorsPerCluster ≠ 0) (hu : Shows u.disk image) :
    ∃ v, fat12Init u = .ok (1, v) ∧ v.geo = g ∧ v.ready = true ∧ v.fat.half false = image g.fatStartLba ∧
      (1 < g.sectorsPerFat → v.fat.half true = image (g.fatStartLba + 1)) := by
  obtain ⟨hr, hcoh, hs⟩ := hu.coherent.read 0
  rw [hu.sectors] at hr hs
  unfold fat12Init
  generalize diskReadSector u.disk 0 = res at hr hcoh hs ⊢
  obtain ⟨r, d⟩ := res
  cases hr
  have hfalse : ¬ (image 0 510 ≠ 0x55 ∨ image 0 511 ≠ 0xAA) :=
    fun h => h.elim (fun h => h hsig.1) (fun h => h hsig.2)
  simp only [hfalse, ↓reduceIte, hfields, hspc]
  obtain ⟨d₁, hread, hd₁⟩ := Shows.read ⟨hcoh, hs⟩ g.fatStartLba (u.fat.half false)
  simp only [hread]
  by_cases hspf : 1 < g.sectorsPerFat
  · obtain ⟨d₂, hread', hd₂⟩ := hd₁.read (g.fatStartLba + 1)
      ((u.fat.setHalf false (image g.fatStartLba)).half true)
    simp only [hspf, ↓reduceIte, hread']
    refine ⟨_, rfl, rfl, rfl, ?_, fun _ => ?_⟩
    · exact (half_set_half _ _ _ _).trans (half_set_half _ _ _ _)
    · exact half_set_half _ _ _ _
  · simp only [hspf, ↓reduceIte]
    exact ⟨_, rfl, rfl, rfl, half_set_half _ _ _ _, fun h => h.elim⟩

/-- Mounting the volume again gives the same free clusters. -/
theorem remount_eq (hg : FatFits g) (hb : Bootable g image) (hc : CopiesEqual g f image)
    (hu : Shows u.disk image) :
    ∃ v, fat12Init u = .ok (1, v) ∧ v.geo = g ∧
      freeClusters (fatEntry v.fat.data) v.geo = freeClusters (fatEntry f.data) g := by
  have hspc : g.sectorsPerCluster ≠ 0 := by
    intro h0
    have hpos := hg.spc
    rw [h0] at hpos
    exact absurd hpos (by decide)
  obtain ⟨v, hinit, hgeo, -, hlow, hhigh⟩ := fat12_init_eq hb.signature hb.fields hspc hu
  refine ⟨v, hinit, hgeo, ?_⟩
  rw [hgeo]
  exact free_clusters_congr hg (fun c hle => entry_of_copies hg hc (loaded_copies hg hb hc hlow hhigh) hle)

/-- A write that frees clusters of its old file and still does not find room. -/
def OutOfRoom (s : Fat12) : FatUpdate → Prop
  | .write (some n) (some _) size => ∃ k f, lookup s.geo s.disk.ata.sectors n.skipSlash = some k ∧
      InChain (firstCluster (slotAt s.geo s.disk.ata.sectors k)) ∧
      freeChain s.fat (firstCluster (slotAt s.geo s.disk.ata.sectors k)) = .ok f ∧
      (freeClusters (fatEntry f.data) s.geo).length < clustersNeeded s.geo size.toNat
  | _ => False

theorem out_of_room_iff {size : UInt32} (h : WellFormed s s.disk.ata.sectors chain leaked)
    (hf : Freed s s.disk.ata.sectors chain (lookup s.geo s.disk.ata.sectors n.skipSlash) s₁) :
    OutOfRoom s (.write (some n) (some buf) size) ↔
      (lookup s.geo s.disk.ata.sectors n.skipSlash).elim [] chain ≠ [] ∧
        (freeClusters (fatEntry s₁.fat.data) s.geo).length < clustersNeeded s.geo size.toNat := by
  rw [hf.table]
  simp only [OutOfRoom, freedTable]
  cases hl : lookup s.geo s.disk.ata.sectors n.skipSlash with
  | none => simp
  | some k =>
    have hfile := h.chains.file_at h.fits (lookup_live hl)
    obtain ⟨last, hp, hlast⟩ := hfile.path
    obtain ⟨f, hrun, -, -, htable⟩ := free_chain_path hp hfile.inChain hfile.upper hlast
    have hin := head_in_chain hp hfile.inChain hlast
    constructor
    · rintro ⟨j, f', hj, hhead, hrun', hlt⟩
      cases hj
      cases hrun.symm.trans hrun'
      rw [htable] at hlt
      exact ⟨hin.mp hhead, hlt⟩
    · rintro ⟨hne, hlt⟩
      refine ⟨k, f, rfl, hin.mpr hne, hrun, ?_⟩
      rw [htable]
      exact hlt

theorem freed_front {lba : Nat} (h : lba < g.rootStartLba) : freedImage g image old lba = image lba := by
  cases old with
  | none => rfl
  | some k => exact Function.update_of_ne (by omega) _ _

theorem data_front {lba size : Nat} (h : lba < s.geo.rootStartLba) :
    dataImage s image buf size lba = image lba := by
  refine store_data_other (fun hm => ?_)
  have hge := chain_lbas_ge hm
  have hroot := root_le_data s.geo
  omega

theorem boot_in_front (hg : FatFits g) (hb : Bootable g image) : 0 < g.fatStartLba ∧ 0 < g.rootStartLba := by
  have hr := hb.reserved
  have hfirst := hg.regions.first_copy
  have hfat : g.fatStartLba = g.reservedSectors.toNat := rfl
  omega

theorem store_fat_front {lba : Nat} (h : lba < g.fatStartLba) (f : FatCache) :
    storeFat g f image lba = image lba := by
  unfold storeFat
  by_cases hspf : 1 < g.sectorsPerFat <;> by_cases hn : 1 < g.numFats
  · simp only [hspf, hn, ↓reduceIte]
    rw [Function.update_of_ne (by omega), Function.update_of_ne (by omega),
      Function.update_of_ne (by omega), Function.update_of_ne (by omega)]
  · simp only [hspf, hn, ↓reduceIte]
    rw [Function.update_of_ne (by omega), Function.update_of_ne (by omega)]
  · simp only [hspf, hn, ↓reduceIte]
    rw [Function.update_of_ne (by omega), Function.update_of_ne (by omega)]
  · simp only [hspf, hn, ↓reduceIte]
    rw [Function.update_of_ne (by omega)]

/-- A freed slot is there to be allocated. -/
theorem free_slot_freed {k : Nat} (hk : k < g.rootEntryCount.toNat) :
    freeSlot g (freedImage g image (some k)) ≠ none := by
  have hhit : allocVerdict (slotAt g (freedImage g image (some k)) k) = .hit := by
    rw [alloc_verdict_hit, freed_slot, if_pos rfl]
    exact used_dropped _
  have hstop : ∀ e, allocVerdict e ≠ .stop := by
    intro e
    unfold allocVerdict
    split <;> simp
  obtain ⟨j, _, hj⟩ := first_hit_of_hit (Nat.zero_le k)
    (show k < 0 + g.rootEntryCount.toNat by omega) hhit (fun i _ _ => hstop _)
  unfold freeSlot
  rw [hj]
  exact Option.some_ne_none j

/-- Freed clusters are still taken in a copy from before. -/
theorem freed_not_copied (h : WellFormed s image chain leaked) (hf : Freed s image chain old s₁)
    (hold : ∀ k, old = some k → Live s.geo (slotAt s.geo image) k) (hne : old.elim [] chain ≠ [])
    (hc : CopiesEqual s.geo s.fat image') : ¬ CopiesEqual s.geo s₁.fat image' := by
  intro hc'
  cases old with
  | none => exact hne rfl
  | some k =>
    obtain ⟨c, hmem⟩ := List.exists_mem_of_ne_nil _ hne
    have hlive := hold k rfl
    have hentry := entry_of_copies h.fits hc hc' (h.chains.nodes k hlive c hmem).2
    rw [hf.table] at hentry
    have hzero : freedTable (fatEntry s.fat.data) chain (some k) c = 0 := clear_mem hmem
    rw [hzero] at hentry
    exact h.chains.owned_by hlive hmem hentry.symm

/-- The copies after a write. -/
theorem write_copies {r : Int} {size : UInt32} (h : WellFormed s s.disk.ata.sectors chain leaked)
    (hb : Bootable s.geo s.disk.ata.sectors) (hc : CopiesEqual s.geo s.fat s.disk.ata.sectors)
    (hrun : fat12Write s (some n) (some buf) size = .ok (r, t)) :
    ∃ image' chain' leaked', WellFormed t image' chain' leaked' ∧ t.geo = s.geo ∧
      image' 0 = s.disk.ata.sectors 0 ∧
      (CopiesEqual s.geo t.fat image' ↔ ¬ OutOfRoom s (.write (some n) (some buf) size)) := by
  obtain ⟨s₁, hf, hstore⟩ := fat12_write_eq h n buf size
  have h₁ := hf.well_formed h (fun k hk => lookup_live hk)
  obtain ⟨hfat, hroot⟩ := boot_in_front h.fits hb
  have hfront : ∀ lba, lba < s.geo.rootStartLba →
      freedImage s.geo s.disk.ata.sectors (lookup s.geo s.disk.ata.sectors n.skipSlash) lba =
        s.disk.ata.sectors lba := fun lba hlba => freed_front hlba
  rw [hstore] at hrun
  rw [out_of_room_iff h hf]
  rcases store_file_eq h₁.mounted h₁.fits.regions n.skipSlash buf size.toNat_lt with
    ⟨hlt, f, hdone, hdata⟩ | ⟨hroom, hfull, f, d, hdone, hdata, hd⟩ | ⟨hroom, k, f, d, hk, hdone, hbuilt, htable, hd⟩
  · rw [hdone] at hrun
    obtain ⟨-, rfl⟩ := Prod.mk.inj (Except.ok.inj hrun)
    refine ⟨_, chain, leaked, h₁.same rfl ⟨h₁.mounted.ready, h₁.mounted.shows⟩ hdata (fun _ _ => rfl),
      hf.geo, hfront 0 hroot, ?_⟩
    by_cases hold : (lookup s.geo s.disk.ata.sectors n.skipSlash).elim [] chain = []
    · refine iff_of_true (hc.congr ?_ hfront) (fun hout => hout.1 hold)
      rw [hdata, hf.same hold]
    · rw [hf.geo] at hlt
      refine iff_of_false (fun hc' => ?_) (fun hroomy => hroomy ⟨hold, hlt⟩)
      exact freed_not_copied h hf (fun k hk => lookup_live hk) hold (hc.congr rfl hfront)
        (hc'.congr hdata.symm (fun _ _ => rfl))
  · rw [hdone] at hrun
    obtain ⟨-, rfl⟩ := Prod.mk.inj (Except.ok.inj hrun)
    have hfront' : ∀ lba, lba < s₁.geo.rootStartLba → dataImage s₁ (freedImage s.geo s.disk.ata.sectors
        (lookup s.geo s.disk.ata.sectors n.skipSlash)) buf size.toNat lba = s.disk.ata.sectors lba := by
      intro lba hlba
      rw [data_front hlba, hfront lba (by rwa [hf.geo] at hlba)]
    rw [hf.geo] at hfront' hfull hroom
    refine ⟨_, chain, leaked, h₁.same rfl ⟨h₁.mounted.ready, hd⟩ hdata (fun _ hj => slot_at_data buf _ hj),
      hf.geo, hfront' 0 hroot, iff_of_true (hc.congr ?_ hfront') (fun hout => absurd hout.2 (by omega))⟩
    cases hl : lookup s.geo s.disk.ata.sectors n.skipSlash with
    | none => rw [hdata, hf.same (by rw [hl]; rfl)]
    | some k =>
      rw [hl] at hfull
      exact absurd hfull (free_slot_freed (lookup_live hl).1)
  · rw [hdone] at hrun
    obtain ⟨-, rfl⟩ := Prod.mk.inj (Except.ok.inj hrun)
    have hcopies : CopiesEqual s₁.geo { f with dirty := false } (writtenImage s₁ (freedImage s.geo
        s.disk.ata.sectors (lookup s.geo s.disk.ata.sectors n.skipSlash)) f n.skipSlash buf size.toNat k) :=
      (store_fat_copies (by rw [hf.geo]; exact hb) f _).congr rfl (fun _ _ => rfl)
    have hboot : writtenImage s₁ (freedImage s.geo s.disk.ata.sectors
        (lookup s.geo s.disk.ata.sectors n.skipSlash)) f n.skipSlash buf size.toNat k 0 =
        s.disk.ata.sectors 0 := by
      rw [← hf.geo] at hfat hroot
      unfold writtenImage storeSlot
      rw [store_fat_front hfat, Function.update_of_ne (by omega), data_front hroot, freed_front (by rwa [hf.geo] at hroot)]
    have hwf : ∃ chain' leaked', WellFormed { s₁ with fat := { f with dirty := false }, disk := d }
        (writtenImage s₁ (freedImage s.geo s.disk.ata.sectors (lookup s.geo s.disk.ata.sectors n.skipSlash))
          f n.skipSlash buf size.toNat k) chain' leaked' := by
      by_cases hu : Used (newEntry n.skipSlash ((takenClusters s₁ size.toNat).headD 0) size.toNat)
      · exact ⟨_, _, write_well_formed h₁ hk hroom hbuilt htable hd hu⟩
      · exact ⟨_, _, write_leaks h₁ hk hbuilt htable hd hu⟩
    obtain ⟨chain', leaked', hwf⟩ := hwf
    rw [hf.geo] at hcopies hroom
    exact ⟨_, chain', leaked', hwf, hf.geo, hboot,
      iff_of_true hcopies (fun hout => absurd hout.2 (by omega))⟩

/-- A delete leaves the copies equal. -/
theorem delete_copies {r : Int} (h : WellFormed s image chain leaked) (hb : Bootable s.geo image)
    (hc : CopiesEqual s.geo s.fat image) (hrun : fat12Delete s (some n) = .ok (r, t)) :
    ∃ image', WellFormed t image' chain leaked ∧ t.geo = s.geo ∧ image' 0 = image 0 ∧
      CopiesEqual s.geo t.fat image' := by
  obtain ⟨s₁, d, hf, hnone, hsome⟩ := fat12_delete_eq h n
  have h₁ := hf.well_formed h (fun k hk => lookup_live hk)
  obtain ⟨hfat, hroot⟩ := boot_in_front h.fits hb
  have hfront : ∀ lba, lba < s.geo.rootStartLba →
      freedImage s.geo image (lookup s.geo image n.skipSlash) lba = image lba := fun lba hlba => freed_front hlba
  by_cases hl : lookup s.geo image n.skipSlash = none
  · rw [hnone hl] at hrun
    obtain ⟨-, rfl⟩ := Prod.mk.inj (Except.ok.inj hrun)
    exact ⟨_, h₁, hf.geo, hfront 0 hroot, hc.congr (by rw [hf.same (by rw [hl]; rfl)]) hfront⟩
  · obtain ⟨hdone, hd⟩ := hsome hl
    rw [hdone] at hrun
    obtain ⟨-, rfl⟩ := Prod.mk.inj (Except.ok.inj hrun)
    refine ⟨_, h₁.same rfl ⟨h₁.mounted.ready, hd⟩ rfl
      (fun j hj => slot_at_congr hj (fun lba hlba _ => flushed_other h₁.fits hlba)), hf.geo, ?_⟩
    unfold flushedImage
    cases hdirty : s₁.fat.dirty with
    | true =>
      rw [if_pos rfl, hf.geo]
      refine ⟨by rw [store_fat_front hfat, hfront 0 hroot], ?_⟩
      exact (store_fat_copies hb s₁.fat _).congr rfl (fun _ _ => rfl)
    | false =>
      -- nothing was freed, or the table would be dirty
      have hsame : s₁.fat = s.fat := by
        refine hf.same (Classical.byContradiction (fun hne => ?_))
        rw [hf.dirty hne] at hdirty
        cases hdirty
      rw [if_neg (by decide)]
      exact ⟨hfront 0 hroot, hc.congr (by rw [hsame]) hfront⟩

/-- A mounted volume whose FAT copies on disk equal `fat_data`. -/
structure Mirrored (s : Fat12) : Prop where
  usable : Usable s
  boot : Bootable s.geo s.disk.ata.sectors
  copies : CopiesEqual s.geo s.fat s.disk.ata.sectors

/-- The copies differ after exactly the writes that ran out of room. -/
theorem update_copies {op : FatUpdate} {r : Int} (h : Mirrored s) (hop : updateStep s op = .ok (r, t)) :
    Usable t ∧ Bootable t.geo t.disk.ata.sectors ∧
      (CopiesEqual t.geo t.fat t.disk.ata.sectors ↔ ¬ OutOfRoom s op) := by
  obtain ⟨⟨chain, leaked, hs⟩, hb, hc⟩ := h
  have hready := hs.mounted.ready
  have hsame : s = t → ¬ OutOfRoom s op → Usable t ∧ Bootable t.geo t.disk.ata.sectors ∧
      (CopiesEqual t.geo t.fat t.disk.ata.sectors ↔ ¬ OutOfRoom s op) := by
    rintro rfl hroom
    exact ⟨hs.usable, hb, iff_of_true hc hroom⟩
  cases op with
  | write path buf size =>
    cases path with
    | none =>
      simp only [updateStep, fat12Write, hready, Except.ok.injEq, Prod.mk.injEq] at hop
      exact hsame hop.2 id
    | some n =>
      cases buf with
      | none =>
        simp only [updateStep, fat12Write, hready, Except.ok.injEq, Prod.mk.injEq] at hop
        exact hsame hop.2 id
      | some buf =>
        obtain ⟨image', _, _, ht, hgeo, hboot, hiff⟩ := write_copies hs hb hc hop
        rw [ht.mounted.shows.sectors, hgeo]
        exact ⟨ht.usable, hb.congr hboot, hiff⟩
  | delete path =>
    cases path with
    | none =>
      simp only [updateStep, fat12Delete, hready, Except.ok.injEq, Prod.mk.injEq] at hop
      exact hsame hop.2 id
    | some n =>
      obtain ⟨image', ht, hgeo, hboot, hcopies⟩ := delete_copies hs hb hc hop
      rw [ht.mounted.shows.sectors, hgeo]
      exact ⟨ht.usable, hb.congr hboot, iff_of_true hcopies id⟩

/-- A call that does not run out of room after it freed something. -/
def RoomyCall (s : Fat12) (op : FatUpdate) (r : Int) (t : Fat12) : Prop :=
  ¬ OutOfRoom s op ∧ updateStep s op = .ok (r, t)

theorem roomy_mirrored {op : FatUpdate} {r : Int} (h : Mirrored s) (hc : RoomyCall s op r t) : Mirrored t := by
  obtain ⟨hu, hb, hiff⟩ := update_copies h hc.2
  exact ⟨hu, hb, hiff.mpr hc.1⟩

/-- Over every run of such calls the copies on disk equal `fat_data`, and
mounting the volume again gives the same free clusters. -/
theorem copies_stay_equal {trace : List (FatUpdate × Int)} (h : Mirrored s)
    (hrun : Steps RoomyCall s trace t) : CopiesEqual t.geo t.fat t.disk.ata.sectors ∧
      ∀ u : Fat12, Shows u.disk t.disk.ata.sectors → ∃ v, fat12Init u = .ok (1, v) ∧
        freeClusters (fatEntry v.fat.data) v.geo = freeClusters (fatEntry t.fat.data) t.geo := by
  obtain ⟨⟨_, _, ht⟩, hb, hc⟩ := hrun.invariant (fun _ _ _ _ hs hc => roomy_mirrored hs hc) h
  refine ⟨hc, fun u hu => ?_⟩
  obtain ⟨v, hinit, _, hfree⟩ := remount_eq ht.fits hb hc hu
  exact ⟨v, hinit, hfree⟩

theorem formatted_mirrored (hg : FatFits g) (hn : g.numFats.toNat ≤ 2) (hs : g.sectorsPerFat.toNat ≤ 2)
    (hr : 1 ≤ g.reservedSectors.toNat) : Mirrored (formatted g) := by
  refine ⟨(formatted_well_formed hg).usable, ⟨hn, hs, hr, ⟨rfl, rfl⟩, bpb_boot_sector g⟩, fun i _ j _ => ?_⟩
  have hlba : g.fatStartLba + i * g.sectorsPerFat.toNat + j ≠ 0 := by
    have hfat : g.fatStartLba = g.reservedSectors.toNat := rfl
    omega
  exact if_neg hlba

theorem small_mirrored : Mirrored (formatted smallGeometry) :=
  formatted_mirrored small_fits (by decide) (by decide) (by decide)

/-- A file is written and deleted again. -/
theorem copies_stay_equal_small : ∃ t, Steps RoomyCall (formatted smallGeometry)
    [(.write (some fileA) (some fun _ => 7) 600, 600), (.delete (some fileA), 1)] t ∧
    CopiesEqual t.geo t.fat t.disk.ata.sectors := by
  have hrun : (fat12Write (formatted smallGeometry) (some fileA) (some fun _ => 7) 600).map (fun x =>
      (x.1, (fat12Delete x.2 (some fileA)).map Prod.fst)) = .ok (600, .ok 1) := by
    decide +kernel
  obtain ⟨⟨_, s⟩, hfirst, hfacts⟩ := ok_of_map hrun
  obtain ⟨rfl, hsecond⟩ := Prod.mk.inj hfacts
  obtain ⟨⟨_, t⟩, hsecond, rfl⟩ := ok_of_map hsecond
  have hroom : ¬ OutOfRoom (formatted smallGeometry) (.write (some fileA) (some fun _ => 7) 600) := by
    rintro ⟨k, _, hk, _⟩
    exact formatted_unused small_fits k (lookup_live hk).2.1
  have hsteps : Steps RoomyCall (formatted smallGeometry)
      [(.write (some fileA) (some fun _ => 7) 600, 600), (.delete (some fileA), 1)] t :=
    .cons ⟨hroom, hfirst⟩ (.cons ⟨id, hsecond⟩ (.nil t))
  exact ⟨t, hsteps, (copies_stay_equal small_mirrored hsteps).1⟩

/-- Once the second version of a file has not fitted, the disk still holds the
chain that `fat_data` no longer has. -/
theorem full_disk_leaves_copies_behind : ¬ ∀ s t (trace : List (FatUpdate × Int)), Mirrored s →
    Steps (fun s op r t => updateStep s op = .ok (r, t)) s trace t →
    CopiesEqual t.geo t.fat t.disk.ata.sectors := by
  intro hclaim
  have hrun : (runAll updateStep (formatted smallGeometry) [.write (some fileA) (some fun _ => 7) 600,
      .write (some fileA) (some fun _ => 7) 4000]).map (fun x =>
        (x.2.geo.numFats, x.2.geo.sectorsPerFat, x.2.geo.reservedSectors, x.2.disk.ata.sectors 1 3,
          x.2.fat.data ⟨3, by decide⟩)) = .ok (1, 1, 1, 3, 0) := by
    decide +kernel
  obtain ⟨⟨rs, t⟩, hall, hfacts⟩ := ok_of_map hrun
  obtain ⟨hn, hs, hr, hdisk, hmem⟩ : _ ∧ _ ∧ _ ∧ _ ∧ _ := by simpa only [Prod.mk.injEq] using hfacts
  have hsteps := run_all_steps (R := fun s op r t => updateStep s op = .ok (r, t)) hall (fun _ _ _ _ _ h => h)
  have hcopy := hclaim _ t _ small_mirrored hsteps 0 (by rw [hn]; decide) 0 (by rw [hs]; decide)
  have hlba : t.geo.fatStartLba + 0 * t.geo.sectorsPerFat.toNat + 0 = 1 := by
    unfold Geometry.fatStartLba
    rw [hr, hs]
    rfl
  have hbyte := congrFun hcopy 3
  rw [hlba, hdisk] at hbyte
  exact absurd (hbyte.trans hmem) (by decide)

end BaSic.Proofs.FatCopies
