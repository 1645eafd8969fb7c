import BaSic.Proofs.FatInvariant

namespace BaSic.Proofs.FatWrite
open Kernel Lib FatTable FatChains Directory FileData Volume FileOps FatInvariant

/-- The table once the file in slot `old`, if there is one, has been freed. -/
def freedTable (next : Nat → Nat) (chain : Nat → List Nat) (old : Option Nat) : Nat → Nat :=
  clear 0 (old.elim [] chain) next

def freedImage (g : Geometry) (image : Nat → Sector) (old : Option Nat) : Nat → Sector :=
  old.elim image (dropSlot g image)

/-- `s₁` is what `s` becomes when the file in slot `old` is freed and its entry
marked as deleted. -/
structure Freed (s : Fat12) (image : Nat → Sector) (chain : Nat → List Nat) (old : Option Nat)
    (s₁ : Fat12) : Prop where
  geo : s₁.geo = s.geo
  stack : s₁.stack = s.stack
  mounted : Mounted s₁ (freedImage s.geo image old)
  table : fatEntry s₁.fat.data = freedTable (fatEntry s.fat.data) chain old
  dirty : old.elim [] chain ≠ [] → s₁.fat.dirty = true
  same : old.elim [] chain = [] → s₁.fat = s.fat

variable {s s₁ : Fat12} {image : Nat → Sector} {chain : Nat → List Nat} {old : Option Nat}
  {g : Geometry} {leaked : Nat → Prop}

theorem freed_slot (j : Nat) : slotAt g (freedImage g image old) j =
    if old = some j then dropped (slotAt g image j) else slotAt g image j := by
  cases old with
  | none => exact (if_neg (by simp)).symm
  | some k =>
    refine (slot_at_drop g image k j).trans ?_
    by_cases hjk : j = k
    · rw [hjk, if_pos rfl, if_pos rfl]
    · rw [if_neg hjk, if_neg (by simpa using Ne.symm hjk)]

/-- Freeing the file an operation found, or nothing. -/
theorem free_old_file (h : WellFormed s image chain leaked) (name : CString) :
    ∃ s₁ d, Freed s image chain (lookup s.geo image name) s₁ ∧
      findEntry s name = ((lookup s.geo image name).map (foundAt s.geo image), { s with disk := d }) ∧
      (lookup s.geo image name = none → s₁ = { s with disk := d }) ∧
      ∀ k, lookup s.geo image name = some k →
        removeFile { s with disk := d } (foundAt s.geo image k) = .ok s₁ := by
  obtain ⟨d, hfind, hd⟩ := find_entry_eq h.mounted.shows name
  cases hl : lookup s.geo image name with
  | none =>
    refine ⟨{ s with disk := d }, d, ⟨rfl, rfl, ⟨h.mounted.ready, hd⟩, ?_, ?_, fun _ => rfl⟩, ?_,
      fun _ => rfl, fun _ hk => (by cases hk)⟩
    · exact (clear_nil _).symm
    · exact fun hne => absurd rfl hne
    · rw [hfind, hl]
  | some k =>
    have hlive := lookup_live hl
    have hfile := h.chains.file_at h.fits hlive
    obtain ⟨last, hp, hlast⟩ := hfile.path
    obtain ⟨f, hfree, hdirty, hsame, htable⟩ := free_chain_path hp hfile.inChain hfile.upper hlast
    obtain ⟨d', hrun, hd'⟩ := remove_file_eq (s := { s with disk := d }) ⟨h.mounted.ready, hd⟩ hfree
    refine ⟨{ s with fat := f, disk := d' }, d, ⟨rfl, rfl, ⟨h.mounted.ready, hd'⟩, htable, hdirty, hsame⟩,
      ?_, fun hk => (by cases hk), fun j hj => ?_⟩
    · rw [hfind, hl]
    · cases hj
      exact hrun

/-- What is left is a volume in order. -/
theorem Freed.well_formed (hf : Freed s image chain old s₁) (h : WellFormed s image chain leaked)
    (hold : ∀ k, old = some k → Live s.geo (slotAt s.geo image) k) :
    WellFormed s₁ (freedImage s.geo image old) chain leaked := by
  refine ⟨hf.mounted, by rw [hf.geo]; exact h.fits, ?_⟩
  rw [hf.geo, hf.table]
  cases old with
  | none =>
    unfold freedTable freedImage
    simp only [Option.elim_none, clear_nil]
    exact h.chains
  | some k =>
    refine h.chains.drop (hold k rfl) (fun j _ => ?_)
    exact slot_at_drop s.geo image k j

theorem fat12_write_eq (h : WellFormed s image chain leaked) (path : CString) (buf : Bytes) (size : UInt32) :
    ∃ s₁, Freed s image chain (lookup s.geo image path.skipSlash) s₁ ∧
      fat12Write s (some path) (some buf) size = storeFile s₁ path.skipSlash buf size.toNat := by
  obtain ⟨s₁, d, hf, hfind, hnone, hsome⟩ := free_old_file h path.skipSlash
  refine ⟨s₁, hf, ?_⟩
  unfold fat12Write
  rw [h.mounted.ready]
  simp only [hfind]
  cases hl : lookup s.geo image path.skipSlash with
  | none =>
    rw [hnone hl]
    rfl
  | some k =>
    simp only [Option.map_some]
    rw [hsome k hl, ok_bind]

/-- The image after a flush of the FAT that is skipped when nothing changed. -/
def flushedImage (s : Fat12) (image : Nat → Sector) : Nat → Sector :=
  if s.fat.dirty then storeFat s.geo s.fat image else image

theorem fat_flush_cases {image : Nat → Sector} (hm : Mounted s image) :
    ∃ d, fatFlush s = { s with disk := d, fat.dirty := false } ∧ Shows d (flushedImage s image) := by
  unfold flushedImage
  cases hd : s.fat.dirty with
  | true =>
    rw [if_pos rfl]
    exact fat_flush_eq hm.shows hd
  | false =>
    refine ⟨s.disk, ?_, by simpa using hm.shows⟩
    rw [fat_flush_clean hd]
    obtain ⟨_, _, ⟨_, _⟩, _, _, _⟩ := s
    cases hd
    rfl

theorem fat12_delete_eq (h : WellFormed s image chain leaked) (path : CString) :
    ∃ s₁ d, Freed s image chain (lookup s.geo image path.skipSlash) s₁ ∧
      (lookup s.geo image path.skipSlash = none → fat12Delete s (some path) = .ok (0, s₁)) ∧
      (lookup s.geo image path.skipSlash ≠ none →
        fat12Delete s (some path) = .ok (1, { s₁ with disk := d, fat.dirty := false }) ∧
        Shows d (flushedImage s₁ (freedImage s.geo image (lookup s.geo image path.skipSlash)))) := by
  obtain ⟨s₁, d, hf, hfind, hnone, hsome⟩ := free_old_file h path.skipSlash
  obtain ⟨d', hflush, hd'⟩ := fat_flush_cases hf.mounted
  refine ⟨s₁, d', hf, fun hl => ?_, fun hl => ⟨?_, hd'⟩⟩
  · unfold fat12Delete
    rw [h.mounted.ready]
    simp only [hfind]
    rw [hl, hnone hl]
    rfl
  · unfold fat12Delete
    rw [h.mounted.ready]
    simp only [hfind]
    cases hk : lookup s.geo image path.skipSlash with
    | none => exact absurd hk hl
    | some k =>
      simp only [Option.map_some]
      rw [hsome k hk, ok_bind, hflush]
      simp only [hd'.cache_flush]
      rfl

/-- A flush leaves the directory and the file data alone. -/
theorem flushed_other (h : FatFits s.geo) {lba : Nat} (hlba : s.geo.rootStartLba ≤ lba) :
    flushedImage s image lba = image lba := by
  unfold flushedImage
  split
  · exact h.regions.store_fat_other s.fat hlba
  · rfl

theorem read_u16_to_nat (lo hi : UInt8) : (readU16 lo hi).toNat = lo.toNat + hi.toNat * 256 := word_to_nat lo hi

theorem read_u32_to_nat (b₀ b₁ b₂ b₃ : UInt8) : (readU32 b₀ b₁ b₂ b₃).toNat =
    b₀.toNat + b₁.toNat * 256 + b₂.toNat * 65536 + b₃.toNat * 16777216 := by
  have h0 := b₀.toNat_lt
  have h1 := b₁.toNat_lt
  have h2 := b₂.toNat_lt
  have h3 := b₃.toNat_lt
  have hjoin1 : b₀.toNat ||| b₁.toNat <<< 8 = b₀.toNat + b₁.toNat * 256 := or_shl_of_lt h0 _
  have hjoin2 : b₀.toNat + b₁.toNat * 256 ||| b₂.toNat <<< 16 =
      b₀.toNat + b₁.toNat * 256 + b₂.toNat * 65536 := or_shl_of_lt (by omega) _
  have hjoin3 : b₀.toNat + b₁.toNat * 256 + b₂.toNat * 65536 ||| b₃.toNat <<< 24 =
      b₀.toNat + b₁.toNat * 256 + b₂.toNat * 65536 + b₃.toNat * 16777216 := or_shl_of_lt (by omega) _
  unfold readU32
  simp only [UInt32.toNat_or, UInt32.toNat_shiftLeft, UInt8.toNat_toUInt32, UInt32.reduceToNat,
    Nat.reduceMod]
  rw [Nat.mod_eq_of_lt (by rw [Nat.shiftLeft_eq]; omega), hjoin1,
    Nat.mod_eq_of_lt (by rw [Nat.shiftLeft_eq]; omega), hjoin2,
    Nat.mod_eq_of_lt (by rw [Nat.shiftLeft_eq]; omega), hjoin3]

theorem new_entry_first (name : CString) {first : Nat} (h : first < 65536) (size : Nat) :
    firstCluster (newEntry name first size) = first := by
  have hlo : newEntry name first size 26 = .ofNat first := rfl
  have hhi : newEntry name first size 27 = .ofNat (first >>> 8) := rfl
  unfold firstCluster
  rw [read_u16_to_nat, hlo, hhi]
  simp only [UInt8.toNat_ofNat', Nat.shiftRight_eq_div_pow]
  omega

theorem new_entry_plain (name : CString) (first size : Nat) : newEntry name first size 11 &&& 0x18 = 0 := by
  have he : newEntry name first size 11 = 0x20 := rfl
  rw [he]
  decide

theorem new_entry_file (name : CString) (first size : Nat) : newEntry name first size 11 &&& 0x08 = 0 := by
  have he : newEntry name first size 11 = 0x20 := rfl
  rw [he]
  decide

theorem new_entry_size (name : CString) (first : Nat) {size : Nat} (h : size < 4294967296) :
    fileSize (newEntry name first size) = size := by
  have h0 : newEntry name first size 28 = .ofNat size := rfl
  have h1 : newEntry name first size 29 = .ofNat (size >>> 8) := rfl
  have h2 : newEntry name first size 30 = .ofNat (size >>> 16) := rfl
  have h3 : newEntry name first size 31 = .ofNat (size >>> 24) := rfl
  unfold fileSize
  rw [read_u32_to_nat, h0, h1, h2, h3]
  simp only [UInt8.toNat_ofNat', Nat.shiftRight_eq_div_pow]
  omega

/-- The disk at the end of a write that found room. -/
def writtenImage (s : Fat12) (image : Nat → Sector) (f : FatCache) (name : CString) (buf : Bytes)
    (size k : Nat) : Nat → Sector :=
  storeFat s.geo f (storeSlot s.geo (dataImage s image buf size) k
    (newEntry name ((takenClusters s size).headD 0) size))

theorem slot_at_written {f : FatCache} {name : CString} {buf : Bytes} {size k j : Nat}
    (h : FatFits s.geo) (hj : j < s.geo.rootEntryCount.toNat) :
    slotAt s.geo (writtenImage s image f name buf size k) j =
      if j = k then newEntry name ((takenClusters s size).headD 0) size else slotAt s.geo image j := by
  have hflush : slotAt s.geo (writtenImage s image f name buf size k) j =
      slotAt s.geo (storeSlot s.geo (dataImage s image buf size) k
        (newEntry name ((takenClusters s size).headD 0) size)) j :=
    slot_at_congr hj (fun lba hlba _ => h.regions.store_fat_other f hlba)
  rw [hflush, slot_at_store, slot_at_data buf size hj]

/-- Behind the root directory the disk is what storing the data left. -/
theorem written_data {f : FatCache} {name : CString} {buf : Bytes} {size k lba : Nat} (h : FatFits s.geo)
    (hk : k < s.geo.rootEntryCount.toNat) (hlba : s.geo.dataStartLba ≤ lba) :
    writtenImage s image f name buf size k lba = dataImage s image buf size lba := by
  have hroot := root_le_data s.geo
  have hslot : s.geo.rootStartLba + k / 16 < s.geo.dataStartLba := by
    unfold Geometry.dataStartLba
    omega
  unfold writtenImage
  rw [h.regions.store_fat_other f (by omega)]
  unfold storeSlot
  rw [Function.update_of_ne (by omega)]

theorem lbas_get_ge {l : List Nat} {i : Nat} (hi : i < 512 * (chainLbas g l).length) :
    (chainLbas g l).getD (i / 512) 0 ∈ chainLbas g l := by
  rw [List.getD_eq_getElem _ _ (by omega)]
  exact List.getElem_mem _

/-- The bytes of the new file on disk. -/
theorem written_bytes {f : FatCache} {name : CString} {buf : Bytes} {size k i : Nat} (h : FatFits s.geo)
    (hk : k < s.geo.rootEntryCount.toNat) (hnd : (takenClusters s size).Nodup)
    (hi : i < storedSize s size) :
    fileByte (writtenImage s image f name buf size k) (takenLbas s size) i = buf i := by
  unfold storedSize at hi
  have hlow : ∀ c ∈ takenClusters s size, 2 ≤ c := fun c hc => (mem_free_list.mp (List.mem_of_mem_take hc)).1.1
  have hmem : (takenLbas s size).getD (i / 512) 0 ∈ chainLbas s.geo (takenClusters s size) :=
    lbas_get_ge (show i < 512 * (takenLbas s size).length by omega)
  have hbyte : fileByte (writtenImage s image f name buf size k) (takenLbas s size) i =
      fileByte (dataImage s image buf size) (takenLbas s size) i := by
    unfold fileByte
    rw [written_data h hk (chain_lbas_ge hmem)]
  rw [hbyte]
  exact file_byte_store (chain_lbas_nodup hlow hnd) (by omega) (by omega)

theorem taken_free (h : FatFits s.geo) {size c : Nat} (hc : c ∈ takenClusters s size) :
    DataCluster s.geo c ∧ fatEntry s.fat.data c = 0 :=
  h.mem_free.mp (List.mem_of_mem_take hc)

theorem taken_length {size : Nat}
    (h : clustersNeeded s.geo size ≤ (freeClusters (fatEntry s.fat.data) s.geo).length) :
    (takenClusters s size).length = clustersNeeded s.geo size := by
  unfold takenClusters
  rw [List.length_take]
  omega

theorem taken_ne_nil {size : Nat}
    (h : clustersNeeded s.geo size ≤ (freeClusters (fatEntry s.fat.data) s.geo).length) :
    takenClusters s size ≠ [] := by
  intro h0
  have hlen := taken_length h
  have hpos := clusters_needed_pos s.geo size
  rw [h0, List.length_nil] at hlen
  omega

theorem built_head_lt {next : Nat → Nat} {l : List Nat} (hb : Built next l) : l.headD 0 < 65536 := by
  have hl : lastCluster = 681 := rfl
  cases l with
  | nil => simp
  | cons c rest =>
    have hup := hb.upper c List.mem_cons_self
    rw [List.headD_cons]
    omega

/-- The chain of a new file. -/
theorem taken_file_at {f : FatCache} (name : CString) {size : Nat}
    (hroom : clustersNeeded s.geo size ≤ (freeClusters (fatEntry s.fat.data) s.geo).length)
    (hb : Built (fatEntry f.data) (takenClusters s size)) :
    FileAt (fatEntry f.data) (newEntry name ((takenClusters s size).headD 0) size) (takenClusters s size) := by
  refine ⟨⟨0xFFF, ?_, by decide⟩, hb.in_chain, hb.upper, hb.nodup⟩
  rw [new_entry_first name (built_head_lt hb) size]
  exact hb.path (taken_ne_nil hroom)

/-- A new file in a free slot, whose name does not read as deleted. -/
theorem write_well_formed {f : FatCache} {d : Disk} {name : CString} {buf : Bytes} {size k : Nat}
    (h : WellFormed s image chain leaked) (hk : freeSlot s.geo image = some k)
    (hroom : clustersNeeded s.geo size ≤ (freeClusters (fatEntry s.fat.data) s.geo).length)
    (hb : Built (fatEntry f.data) (takenClusters s size))
    (hsame : ∀ x, x ∉ takenClusters s size → fatEntry f.data x = fatEntry s.fat.data x)
    (hd : Shows d (writtenImage s image f name buf size k))
    (hu : Used (newEntry name ((takenClusters s size).headD 0) size)) :
    WellFormed { s with fat := { f with dirty := false }, disk := d }
      (writtenImage s image f name buf size k) (Function.update chain k (takenClusters s size))
      leaked := by
  obtain ⟨hcount, hfree, _⟩ := free_slot_spec hk
  refine ⟨⟨h.mounted.ready, hd⟩, h.fits, ?_⟩
  have hslots : ∀ j, j < s.geo.rootEntryCount.toNat → slotAt s.geo (writtenImage s image f name buf size k) j =
      if j = k then newEntry name ((takenClusters s size).headD 0) size else slotAt s.geo image j :=
    fun j hj => slot_at_written h.fits hj
  have hadd := h.chains.add hcount hfree hslots hu (new_entry_file name _ size)
    (new_entry_first name (built_head_lt hb) size) (fun c hc => taken_free h.fits hc) hb (taken_ne_nil hroom) hsame
  exact hadd

/-- A new file whose name reads as deleted leaves its clusters to nobody. -/
theorem write_leaks {f : FatCache} {d : Disk} {name : CString} {buf : Bytes} {size k : Nat}
    (h : WellFormed s image chain leaked) (hk : freeSlot s.geo image = some k)
    (hb : Built (fatEntry f.data) (takenClusters s size))
    (hsame : ∀ x, x ∉ takenClusters s size → fatEntry f.data x = fatEntry s.fat.data x)
    (hd : Shows d (writtenImage s image f name buf size k))
    (hu : ¬ Used (newEntry name ((takenClusters s size).headD 0) size)) :
    WellFormed { s with fat := { f with dirty := false }, disk := d }
      (writtenImage s image f name buf size k) chain (fun c => leaked c ∨ c ∈ takenClusters s size) := by
  obtain ⟨_, hfree, _⟩ := free_slot_spec hk
  refine ⟨⟨h.mounted.ready, hd⟩, h.fits, ?_⟩
  have hleak := ChainSystem.leak h.chains (m := takenClusters s size) (fun c hc => taken_free h.fits hc)
    (fun c hc => hb.next_ne hc) hsame
  have hlive : ∀ j, Live s.geo (slotAt s.geo (writtenImage s image f name buf size k)) j ↔
      Live s.geo (slotAt s.geo image) j := by
    intro j
    by_cases hjk : j = k
    · refine iff_of_false (fun hj => hu ?_) (fun hj => hfree (hjk ▸ hj.2.1))
      have huse := hj.2.1
      rwa [slot_at_written h.fits hj.1, if_pos hjk] at huse
    · exact live_congr (fun hj => by rw [slot_at_written h.fits hj, if_neg hjk])
  refine hleak.congr hlive (fun j hj => ?_)
  have hjk : j ≠ k := fun he => hfree (he ▸ hj.2.1)
  rw [slot_at_written h.fits hj.1, if_neg hjk]

end BaSic.Proofs.FatWrite
