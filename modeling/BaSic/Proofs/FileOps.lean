import BaSic.Proofs.Volume

namespace BaSic.Proofs.FileOps
open Kernel Lib FatTable FatChains Directory FileData Volume

/-- The driver is mounted on a disk that shows the sectors `image`. -/
structure Mounted (s : Fat12) (image : Nat → Sector) : Prop where
  ready : s.ready = true
  shows : Shows s.disk image

variable {s : Fat12} {image : Nat → Sector} {k : Nat}

theorem remove_file_eq (h : Mounted s image) {f : FatCache}
    (hf : freeChain s.fat (firstCluster (slotAt s.geo image k)) = .ok f) :
    ∃ d, removeFile s (foundAt s.geo image k) = .ok { s with fat := f, disk := d } ∧
      Shows d (dropSlot s.geo image k) := by
  obtain ⟨d, hread, hd⟩ := h.shows.read (s.geo.rootStartLba + k / 16) s.stack
  refine ⟨_, ?_, hd.write _ _⟩
  unfold removeFile foundAt
  rw [hf, ok_bind]
  simp only [hread]
  rfl

theorem clusters_needed_pos (g : Geometry) (size : Nat) : 0 < clustersNeeded g size := by
  unfold clustersNeeded
  simp only
  split
  · exact Nat.one_pos
  · exact Nat.pos_of_ne_zero ‹_›

/-- The clusters a write of `size` bytes takes. -/
def takenClusters (s : Fat12) (size : Nat) : List Nat :=
  (freeClusters (fatEntry s.fat.data) s.geo).take (clustersNeeded s.geo size)

/-- The sectors a write of `size` bytes fills. -/
def takenLbas (s : Fat12) (size : Nat) : List Nat := chainLbas s.geo (takenClusters s size)

/-- The number of bytes a write of `size` bytes gets out. -/
def storedSize (s : Fat12) (size : Nat) : Nat := min size (512 * (takenLbas s size).length)

/-- The disk after the data of a write has been stored. -/
def dataImage (s : Fat12) (image : Nat → Sector) (buf : Bytes) (size : Nat) : Nat → Sector :=
  storeData buf size (takenLbas s size) 0 image

/-- Storing file data does not touch the directory. -/
theorem slot_at_data (buf : Bytes) (size : Nat) (hk : k < s.geo.rootEntryCount.toNat) :
    slotAt s.geo (dataImage s image buf size) k = slotAt s.geo image k := by
  refine slot_at_congr hk (fun lba _ hlt => store_data_other (fun hm => ?_))
  have hge := chain_lbas_ge hm
  omega

theorem free_slot_data (buf : Bytes) (size : Nat) :
    freeSlot s.geo (dataImage s image buf size) = freeSlot s.geo image :=
  first_hit_congr (fun _ _ hi => congrArg _ (slot_at_data buf size (by omega)))

/-- Freeing the clusters just taken gives the table back. -/
theorem taken_given_back {f f' : FatCache} {size : Nat}
    (hsame : ∀ x, x ∉ takenClusters s size → fatEntry f.data x = fatEntry s.fat.data x)
    (he : fatEntry f'.data = clear 0 (takenClusters s size) (fatEntry f.data)) : f'.data = s.fat.data := by
  have hfree : ∀ x ∈ takenClusters s size, fatEntry s.fat.data x = 0 :=
    fun x hx => (mem_free_list.mp (List.mem_of_mem_take hx)).2
  have hundone : clear 0 ([] ++ takenClusters s size) (fatEntry f.data) = clear 0 [] (fatEntry s.fat.data) :=
    clear_undoes hfree hsame
  apply fat_data_ext
  rw [he]
  exact hundone.trans (clear_nil _)

/-- An entry put into a slot, and the table written back. -/
theorem entry_stored (hd : Shows s.disk image) (hdirty : s.fat.dirty = true) (k : Nat) (e : Entry) :
    let slot := foundAt s.geo image k
    let got := readInto s.disk slot.lba s.stack
    ∃ d, fatFlush { s with disk := writeFrom got.2 slot.lba (setEntry got.1 slot.idx e) } =
        { s with disk := d, fat.dirty := false } ∧
      Shows d (storeFat s.geo s.fat (storeSlot s.geo image k e)) := by
  obtain ⟨d₁, hread, hd₁⟩ := hd.read (s.geo.rootStartLba + k / 16) s.stack
  have hd₂ := hd₁.write (s.geo.rootStartLba + k / 16) (setEntry (image (s.geo.rootStartLba + k / 16)) (k % 16) e)
  simp only [foundAt, hread]
  generalize writeFrom d₁ (s.geo.rootStartLba + k / 16) _ = d₂ at hd₂ ⊢
  exact fat_flush_eq (s := { s with disk := d₂ }) hd₂ hdirty

/-- The three ways the storing part of `fat12_write` can end. -/
theorem store_file_eq (h : Mounted s image) (hg : Regions s.geo) (name : CString) (buf : Bytes) {size : Nat}
    (hsize : size < 4294967296) :
    ((freeClusters (fatEntry s.fat.data) s.geo).length < clustersNeeded s.geo size ∧
      ∃ f, storeFile s name buf size =
          .ok (0, { s with fat := f, printed := .diskFull :: s.printed }) ∧ f.data = s.fat.data) ∨
    (clustersNeeded s.geo size ≤ (freeClusters (fatEntry s.fat.data) s.geo).length ∧
      freeSlot s.geo image = none ∧
      ∃ f d, storeFile s name buf size =
          .ok (0, { s with fat := f, disk := d, printed := .rootDirFull :: s.printed }) ∧
        f.data = s.fat.data ∧ Shows d (dataImage s image buf size)) ∨
    (clustersNeeded s.geo size ≤ (freeClusters (fatEntry s.fat.data) s.geo).length ∧
      ∃ k f d, freeSlot s.geo image = some k ∧
        storeFile s name buf size =
          .ok (asInt (storedSize s size), { s with fat := { f with dirty := false }, disk := d }) ∧
        Built (fatEntry f.data) (takenClusters s size) ∧
        (∀ x, x ∉ takenClusters s size → fatEntry f.data x = fatEntry s.fat.data x) ∧
        Shows d (storeFat s.geo f (storeSlot s.geo (dataImage s image buf size) k
          (newEntry name ((takenClusters s size).headD 0) size)))) := by
  have hspc : s.geo.sectorsPerCluster ≠ 0 := by
    intro h0
    have hpos := hg.spc
    rw [h0] at hpos
    exact absurd hpos (by decide)
  have hneed := clusters_needed_pos s.geo size
  rcases alloc_chain_eq hg.limit hneed s.fat with ⟨hlt, f, hrun, hdata⟩ | ⟨hle, m, f, hm, hrun, hdirty, hb, hsame⟩
  · left
    refine ⟨hlt, f, ?_, hdata⟩
    unfold storeFile
    rw [if_neg hspc]
    simp only
    rw [hrun]
    rfl
  · right
    have hne : m ≠ [] := by
      intro h0
      have hlen := congrArg List.length hm
      rw [h0, List.length_nil, List.length_take] at hlen
      omega
    have htaken : m = takenClusters s size := hm
    subst htaken
    have hlen := chain_length_le hb.upper hb.nodup
    have hroom := chain_lbas_room (g := s.geo) hb.upper hb.nodup
    have hfuel : chainFuel = 4096 := rfl
    obtain ⟨d₁, hwrite, hd₁⟩ := write_chain_eq (g := s.geo) (f := f) buf h.shows hsize
      (hb.path hne) hb.in_chain hb.upper (by decide) chainFuel 0 (by omega) (Nat.zero_le _) (by omega)
    rw [Nat.zero_add] at hwrite
    obtain ⟨d₂, halloc, hd₂⟩ :=
      alloc_root_entry_eq (s := { s with fat := f, disk := d₁ }) (show Shows d₁ (dataImage s image buf size) from hd₁)
    have hslot : freeSlot s.geo (dataImage s image buf size) = freeSlot s.geo image := free_slot_data buf size
    unfold storeFile
    rw [if_neg hspc]
    simp only
    rw [hrun, ok_bind]
    simp only
    rw [hwrite, ok_bind]
    simp only [halloc]
    rw [hslot]
    cases hfree : freeSlot s.geo image with
    | none =>
      left
      obtain ⟨f', hrun', -, he⟩ := hb.free hne
      refine ⟨hle, rfl, f', d₂, ?_, taken_given_back hsame he, hd₂⟩
      simp only [Option.map_none]
      rw [hrun']
      rfl
    | some k =>
      right
      obtain ⟨d₃, hflush, hd₃⟩ := entry_stored (s := { s with fat := f, disk := d₂ }) hd₂ hdirty k
        (newEntry name ((takenClusters s size).headD 0) size)
      refine ⟨hle, k, f, d₃, rfl, ?_, hb, hsame, hd₃⟩
      simp only [Option.map_some]
      simp only at hflush
      rw [hflush]
      simp only [hd₃.cache_flush]
      rfl

end BaSic.Proofs.FileOps
