import BaSic.Proofs.ReadBack

namespace BaSic.Proofs.OtherFiles
open Kernel Lib FatTable FatChains Directory FileData Volume FileOps FatInvariant FatWrite FatNames ReadBack

section Kept

/-- Slot `k`, its chain `l` and its data are the same in both volumes. -/
structure SameFile (s : Fat12) (image : Nat → Sector) (t : Fat12) (image' : Nat → Sector) (k : Nat)
    (l : List Nat) : Prop where
  slot : slotAt s.geo image' k = slotAt s.geo image k
  table : ∀ c ∈ l, fatEntry t.fat.data c = fatEntry s.fat.data c
  data : ∀ lba ∈ chainLbas s.geo l, image' lba = image lba

variable {s s₁ t : Fat12} {image image₁ image' : Nat → Sector} {chain : Nat → List Nat}
  {leaked : Nat → Prop} {g : Geometry} {name q : CString} {j k : Nat} {l : List Nat} {old : Option Nat}

theorem SameFile.trans (h : SameFile s image s₁ image₁ k l) (h' : SameFile s₁ image₁ t image' k l)
    (hg : s₁.geo = s.geo) : SameFile s image t image' k l := by
  obtain ⟨hslot, htable, hdata⟩ := h'
  rw [hg] at hslot hdata
  exact ⟨hslot.trans h.slot, fun c hc => (htable c hc).trans (h.table c hc),
    fun lba hlba => (hdata lba hlba).trans (h.data lba hlba)⟩

theorem file_at_congr {next next' : Nat → Nat} {e : Entry} (h : FileAt next e l)
    (hsame : ∀ c ∈ l, next' c = next c) : FileAt next' e l := by
  obtain ⟨last, hp, hlast⟩ := h.path
  exact ⟨⟨last, hp.congr hsame, hlast⟩, h.inChain, h.upper, h.nodup⟩

theorem load_data_congr {lbas : List Nat} {written limit : Nat} {out : Bytes}
    (h : ∀ lba ∈ lbas, image' lba = image lba) :
    loadData image' lbas written limit out = loadData image lbas written limit out := by
  funext i
  unfold loadData
  split
  · unfold fileByte
    have hlt : (i - written) / 512 < lbas.length := by omega
    rw [List.getD_eq_getElem _ _ hlt, h _ (List.getElem_mem hlt)]
  · rfl

/-- A file that is found in the same place and has not changed reads the same. -/
theorem SameFile.read (h : SameFile s image t image' k l) (hs : Mounted s image) (ht : Mounted t image')
    (hg : t.geo = s.geo) (hf : FileAt (fatEntry s.fat.data) (slotAt s.geo image k) l)
    (hl : lookup s.geo image q.skipSlash = some k) (hl' : lookup s.geo image' q.skipSlash = some k)
    (out : Bytes) (cap : UInt32) : readResult t q out cap = readResult s q out cap := by
  have hf' : FileAt (fatEntry t.fat.data) (slotAt t.geo image' k) l := by
    rw [hg, h.slot]
    exact file_at_congr hf h.table
  rw [read_result_eq hs hl hf out cap, read_result_eq ht (by rw [hg]; exact hl') hf' out cap, hg, h.slot,
    load_data_congr h.data]

theorem freed_data {lba : Nat} (hold : ∀ j, old = some j → j < g.rootEntryCount.toNat)
    (hlba : g.dataStartLba ≤ lba) : freedImage g image old lba = image lba := by
  cases old with
  | none => rfl
  | some j =>
    have hj := hold j rfl
    have hslot : g.rootStartLba + j / 16 < g.dataStartLba := by
      unfold Geometry.dataStartLba
      omega
    exact Function.update_of_ne (by omega) _ _

/-- Freeing one file leaves the others alone. -/
theorem freed_same (hf : Freed s image chain old s₁) (h : WellFormed s image chain leaked)
    (hold : ∀ j, old = some j → Live s.geo (slotAt s.geo image) j) (hk : Live s.geo (slotAt s.geo image) k)
    (hne : old ≠ some k) : SameFile s image s₁ (freedImage s.geo image old) k (chain k) := by
  refine ⟨?_, fun c hc => ?_, fun lba hlba => ?_⟩
  · rw [freed_slot, if_neg hne]
  · rw [hf.table]
    apply clear_not_mem
    cases old with
    | none => exact List.not_mem_nil
    | some j => exact h.chains.apart k j hk (hold j rfl) (fun hkj => hne (congrArg some hkj.symm)) hc
  · exact freed_data (fun j hj => (hold j hj).1) (chain_lbas_ge hlba)

theorem freed_live_iff : Live g (slotAt g (freedImage g image old)) k ↔
    old ≠ some k ∧ Live g (slotAt g image) k := by
  by_cases hk : old = some k
  · refine iff_of_false (fun h => ?_) (fun h => h.1 hk)
    have hu := h.2.1
    rw [freed_slot, if_pos hk] at hu
    exact used_dropped _ hu
  · rw [live_congr (fun _ => by rw [freed_slot, if_neg hk])]
    exact (and_iff_right hk).symm

/-- The sectors of a file are none of those a write takes. -/
theorem taken_apart (h : WellFormed s image chain leaked) (hk : Live s.geo (slotAt s.geo image) k) (size : Nat) :
    (chainLbas s.geo (chain k)).Disjoint (takenLbas s size) := by
  refine chain_lbas_apart (fun c hc => (h.chains.nodes k hk c hc).1)
    (fun c hc => (taken_free h.fits hc).1.1) (fun c hc hc' => ?_)
  exact h.chains.owned_by hk hc (taken_free h.fits hc').2

theorem stored_data_same (h : WellFormed s image chain leaked) (hk : Live s.geo (slotAt s.geo image) k)
    (hf : t.fat.data = s.fat.data) (buf : Bytes) (size : Nat) :
    SameFile s image t (dataImage s image buf size) k (chain k) := by
  refine ⟨slot_at_data buf size hk.1, fun c _ => by rw [hf], fun lba hlba => ?_⟩
  exact store_data_other (fun hm => taken_apart h hk size hlba hm)

theorem written_same {f : FatCache} {d : Disk} {n : CString} (buf : Bytes) {size : Nat}
    (h : WellFormed s image chain leaked) (hk : freeSlot s.geo image = some k)
    (hsame : ∀ x, x ∉ takenClusters s size → fatEntry f.data x = fatEntry s.fat.data x)
    (hj : Live s.geo (slotAt s.geo image) j) :
    SameFile s image { s with fat := { f with dirty := false }, disk := d }
      (writtenImage s image f n buf size k) j (chain j) := by
  obtain ⟨hcount, hfree, _⟩ := free_slot_spec hk
  have hjk : j ≠ k := fun he => hfree (he ▸ hj.2.1)
  refine ⟨?_, fun c hc => hsame c (fun hm => ?_), fun lba hlba => ?_⟩
  · rw [slot_at_written h.fits hj.1, if_neg hjk]
  · exact h.chains.owned_by hj hc (taken_free h.fits hm).2
  · rw [written_data h.fits hcount (chain_lbas_ge hlba)]
    exact store_data_other (fun hm => taken_apart h hj size hlba hm)

/-- A write that finds no room leaves the directory and all files alone. -/
theorem store_failed {r : Int} {n : CString} {buf : Bytes} {size : Nat} (h : WellFormed s image chain leaked)
    (hsize : size < 4294967296) (hrun : storeFile s n buf size = .ok (r, t))
    (hfull : (freeClusters (fatEntry s.fat.data) s.geo).length < clustersNeeded s.geo size ∨
      freeSlot s.geo image = none) :
    r = 0 ∧ ∃ image', Mounted t image' ∧ t.geo = s.geo ∧
      (∀ q, lookup s.geo image' q = lookup s.geo image q) ∧
      ∀ k, Live s.geo (slotAt s.geo image) k → SameFile s image t image' k (chain k) := by
  rcases store_file_eq h.mounted h.fits.regions n buf hsize with
    ⟨_, f, hf, hdata⟩ | ⟨_, _, f, d, hf, hdata, hd⟩ | ⟨hroom, k, _, _, hk, _⟩
  · rw [hf] at hrun
    obtain ⟨rfl, rfl⟩ := Prod.mk.inj (Except.ok.inj hrun)
    exact ⟨rfl, image, ⟨h.mounted.ready, h.mounted.shows⟩, rfl, fun _ => rfl,
      fun k _ => ⟨rfl, fun c _ => by rw [hdata], fun _ _ => rfl⟩⟩
  · rw [hf] at hrun
    obtain ⟨rfl, rfl⟩ := Prod.mk.inj (Except.ok.inj hrun)
    exact ⟨rfl, _, ⟨h.mounted.ready, hd⟩, rfl, fun q => lookup_congr (fun j hj => slot_at_data buf size hj),
      fun k hk => stored_data_same h hk hdata buf size⟩
  · rcases hfull with hlt | hnone
    · omega
    · rw [hk] at hnone
      cases hnone

/-- A lookup that does not hit the freed file does not notice that it is gone. -/
theorem lookup_freed (hold : ∀ j, old = some j → Live g (slotAt g image) j ∧
      namesMatch (entryName (slotAt g image j)) q = false) :
    lookup g (freedImage g image old) q = lookup g image q := by
  refine first_hit_congr (fun i _ hi => ?_)
  rw [freed_slot]
  split
  · rename_i hoi
    obtain ⟨hl, hm⟩ := hold i hoi
    have hnext : findVerdict q (slotAt g image i) = .next := by
      refine find_verdict_next.mpr ⟨hl.2.1.1, fun hv => ?_⟩
      rw [hm] at hv
      exact absurd hv.2.2 (by decide)
    have hnext' : findVerdict q (dropped (slotAt g image i)) = .next := by
      refine find_verdict_next.mpr ⟨?_, fun hv => used_dropped _ hv.1⟩
      unfold dropped
      rw [Function.update_self]
      decide
    rw [hnext, hnext']
  · rfl

/-- The new entry hides a file from a lookup when it matches and stands in front. -/
theorem lookup_past_written {f : FatCache} {n : CString} (buf : Bytes) (size : Nat) (hfit : FatFits s.geo)
    (hk : freeSlot s.geo image = some k) (hl : lookup s.geo image q = some j) :
    lookup s.geo (writtenImage s image f n buf size k) q =
      if k < j ∧ strToFat83 n 0 ≠ 0xE5 ∧ namesMatch (storedName n) q = true then some k else some j := by
  obtain ⟨hcount, hfree, _⟩ := free_slot_spec hk
  obtain ⟨⟨_, hj⟩, hhit, hbefore⟩ := first_hit_some.mp hl
  have hjk : j ≠ k := fun he => hfree (he ▸ (find_verdict_hit.mp hhit).1)
  have hslot : slotAt s.geo (writtenImage s image f n buf size k) k =
      newEntry n ((takenClusters s size).headD 0) size := by
    rw [slot_at_written hfit hcount, if_pos rfl]
  have hraw : newEntry n ((takenClusters s size).headD 0) size 0 = strToFat83 n 0 := rfl
  have hother : ∀ i, i ≤ j → i ≠ k →
      slotAt s.geo (writtenImage s image f n buf size k) i = slotAt s.geo image i := by
    intro i hi hik
    rw [slot_at_written hfit (by omega), if_neg hik]
  by_cases hc : k < j ∧ strToFat83 n 0 ≠ 0xE5 ∧ namesMatch (storedName n) q = true
  · rw [if_pos hc]
    refine first_hit_some.mpr ⟨⟨Nat.zero_le _, by omega⟩, ?_, fun i hi hik => ?_⟩
    · rw [hslot, find_verdict_hit, stored_name_eq]
      exact ⟨⟨by rw [hraw]; exact raw_ne_zero n 0, by rw [hraw]; exact hc.2.1⟩, new_entry_file n _ size, hc.2.2⟩
    · rw [hother i (by omega) (by omega)]
      exact hbefore i hi (by omega)
  · rw [if_neg hc]
    refine first_hit_some.mpr ⟨⟨Nat.zero_le _, by omega⟩, ?_, fun i hi hij => ?_⟩
    · rw [hother j (Nat.le_refl j) hjk]
      exact hhit
    · by_cases hik : i = k
      · rw [hik, hslot, find_verdict_next, stored_name_eq]
        refine ⟨by rw [hraw]; exact raw_ne_zero n 0, fun hv => hc ⟨by omega, ?_, hv.2.2⟩⟩
        have hne := hv.1.2
        rwa [hraw] at hne
      · rw [hother i (by omega) hik]
        exact hbefore i hi hij

end Kept

section Failing
open Formatted ChainInvariant

variable {s t : Fat12}

theorem stored_size_pos {size : Nat} (h : FatFits s.geo) (hpos : 1 ≤ size)
    (hroom : clustersNeeded s.geo size ≤ (freeClusters (fatEntry s.fat.data) s.geo).length) :
    0 < storedSize s size := by
  have hlen : (takenLbas s size).length = clustersNeeded s.geo size * s.geo.sectorsPerCluster.toNat := by
    unfold takenLbas
    rw [chain_lbas_length, taken_length hroom]
  have hsectors : 0 < (takenLbas s size).length := by
    rw [hlen]
    exact Nat.mul_pos (clusters_needed_pos s.geo size) h.regions.spc
  unfold storedSize
  omega

/-- With distinct names a name finds nothing once its file is freed. -/
theorem lookup_freed_none (hd : DistinctNames s) (n : CString)
    (hl : lookup s.geo s.disk.ata.sectors n ≠ none) :
    lookup s.geo (freedImage s.geo s.disk.ata.sectors (lookup s.geo s.disk.ata.sectors n)) n = none := by
  obtain ⟨k, hk⟩ := Option.ne_none_iff_exists'.mp hl
  rw [hk]
  cases hj : lookup s.geo (freedImage s.geo s.disk.ata.sectors (some k)) n with
  | none => rfl
  | some j =>
    have hlive := lookup_live hj
    have hm := lookup_match hj
    have hne : some k ≠ some j := by
      intro he
      have hu := hlive.2.1
      rw [freed_slot, if_pos he] at hu
      exact used_dropped _ hu
    have hslot : slotAt s.geo (freedImage s.geo s.disk.ata.sectors (some k)) j =
        slotAt s.geo s.disk.ata.sectors j := by
      rw [freed_slot, if_neg hne]
    rw [hslot] at hm
    have he := hd k j (lookup_live hk) ((live_congr (fun _ => hslot)).mp hlive)
      (names_match_trans (lookup_match hk) (names_match_symm hm))
    exact absurd (congrArg some he) hne

/-- The file `q` names can still be read, with the same result. -/
def StillReads (s t : Fat12) (q : CString) : Prop :=
  (fat12Exists t q).1 = 1 ∧ ∀ out cap, readResult t q out cap = readResult s q out cap

/-- A write that finds no room leaves every file readable as it was exactly when
no file had its name: the old version is gone before the room is looked for. -/
theorem failed_write_keeps_files {n : CString} {buf : Bytes} {size : UInt32} (h : Usable s)
    (hd : DistinctNames s) (hpos : 1 ≤ size.toNat) (hw : fat12Write s (some n) (some buf) size = .ok (0, t)) :
    (∀ q, (fat12Exists s q).1 = 1 → StillReads s t q) ↔ (fat12Exists s n).1 = 0 := by
  obtain ⟨chain, leaked, hs⟩ := h
  obtain ⟨s₁, hf, hstore⟩ := fat12_write_eq hs n buf size
  have h₁ := hf.well_formed hs (fun k hk => lookup_live hk)
  rw [hstore] at hw
  have hfull : (freeClusters (fatEntry s₁.fat.data) s₁.geo).length < clustersNeeded s₁.geo size.toNat ∨
      freeSlot s₁.geo (freedImage s.geo s.disk.ata.sectors (lookup s.geo s.disk.ata.sectors n.skipSlash)) =
        none := by
    rcases store_file_eq h₁.mounted h₁.fits.regions n.skipSlash buf size.toNat_lt with
      ⟨hlt, _⟩ | ⟨_, hnone, _⟩ | ⟨hroom, k, f, d, _, hrun, hb, _⟩
    · exact Or.inl hlt
    · exact Or.inr hnone
    · rw [hrun] at hw
      have hret := (Prod.mk.inj (Except.ok.inj hw)).1
      have hstored := stored_size_pos h₁.fits hpos hroom
      rw [as_int_of_le (stored_size_le hb.upper hb.nodup)] at hret
      omega
  obtain ⟨-, image', ht, hgeo, hlook, hfiles⟩ := store_failed h₁ size.toNat_lt hw hfull
  rw [hf.geo] at hgeo hlook
  rw [fat12_exists_eq hs.mounted]
  by_cases hl : lookup s.geo s.disk.ata.sectors n.skipSlash = none
  · rw [if_pos hl]
    refine iff_of_true (fun q hq => ?_) rfl
    rw [fat12_exists_eq hs.mounted] at hq
    unfold StillReads
    rw [fat12_exists_eq ht, hgeo, hlook, hl]
    have hfound : lookup s.geo s.disk.ata.sectors q.skipSlash ≠ none := by
      intro hnone
      rw [if_pos hnone] at hq
      cases hq
    obtain ⟨k, hk⟩ := Option.ne_none_iff_exists'.mp hfound
    have hlive := lookup_live hk
    have hne : lookup s.geo s.disk.ata.sectors n.skipSlash ≠ some k := by
      rw [hl]
      exact (Option.some_ne_none k).symm
    have hfreed := freed_same hf hs (fun j hj => lookup_live hj) hlive hne
    have hsame := hfiles k
    rw [hf.geo] at hsame
    have hmoved := hfreed.trans (hsame (freed_live_iff.mpr ⟨hne, hlive⟩)) hf.geo
    refine ⟨hq, fun out cap => ?_⟩
    exact hmoved.read hs.mounted ht hgeo (hs.chains.file_at hs.fits hlive) hk (by rw [hlook, hl]; exact hk) out cap
  · rw [if_neg hl]
    refine iff_of_false (fun hall => ?_) (by decide)
    have hn := (hall n (by rw [fat12_exists_eq hs.mounted, if_neg hl])).1
    rw [fat12_exists_eq ht, hgeo, hlook, if_pos (lookup_freed_none hd _ hl)] at hn
    cases hn

/-- A new file `B` that does not fit leaves `A` readable. -/
theorem failed_write_keeps_files_small : ∃ s t,
    fat12Write (formatted smallGeometry) (some fileA) (some fun _ => 7) 600 = .ok (600, s) ∧
    fat12Write s (some fileB) (some fun _ => 8) 4000 = .ok (0, t) ∧ StillReads s t fileA := by
  have hrun : (fat12Write (formatted smallGeometry) (some fileA) (some fun _ => 7) 600).map (fun x =>
      (x.1, decide (DistinctNames x.2), (fat12Exists x.2 fileA).1, (fat12Exists x.2 fileB).1,
        (fat12Write x.2 (some fileB) (some fun _ => 8) 4000).map Prod.fst)) =
      .ok (600, true, 1, 0, .ok 0) := by
    decide +kernel
  obtain ⟨⟨_, s⟩, hfirst, hfacts⟩ := ok_of_map hrun
  obtain ⟨rfl, hd, he, hno, hsecond⟩ : _ ∧ _ ∧ _ ∧ _ ∧ _ := by simpa only [Prod.mk.injEq] using hfacts
  obtain ⟨⟨_, t⟩, hw, rfl⟩ := ok_of_map hsecond
  obtain ⟨_, _, _, _, hkeep, hs, _⟩ := write_keeps (formatted_well_formed small_fits) fileA
    printable_a (fun _ => 7) 600
  cases hfirst.symm.trans hkeep
  exact ⟨s, t, hfirst, hw,
    (failed_write_keeps_files hs.usable (of_decide_eq_true hd) (by decide) hw).mpr hno fileA he⟩

/-- The second version of a file of 600 bytes does not fit, and the first is gone. -/
theorem failed_write_loses_file : ¬ ∀ s t n buf (size : UInt32), Usable s → DistinctNames s → 1 ≤ size.toNat →
    fat12Write s (some n) (some buf) size = .ok (0, t) →
    ∀ q, (fat12Exists s q).1 = 1 → StillReads s t q := by
  intro hclaim
  have hrun : (fat12Write (formatted smallGeometry) (some fileA) (some fun _ => 7) 600).map (fun x =>
      (decide (DistinctNames x.2), (fat12Exists x.2 fileA).1,
        (fat12Write x.2 (some fileA) (some fun _ => 8) 4000).map (fun y => (y.1, (fat12Exists y.2 fileA).1)))) =
      .ok (true, 1, .ok (0, 0)) := by
    decide +kernel
  obtain ⟨⟨_, s⟩, hfirst, hfacts⟩ := ok_of_map hrun
  obtain ⟨hd, he, hsecond⟩ : _ ∧ _ ∧ _ := by simpa only [Prod.mk.injEq] using hfacts
  obtain ⟨⟨_, t⟩, hw, hlost⟩ := ok_of_map hsecond
  obtain ⟨rfl, hgone⟩ := Prod.mk.inj hlost
  obtain ⟨_, _, _, _, hkeep, hs, _⟩ := write_keeps (formatted_well_formed small_fits) fileA
    printable_a (fun _ => 7) 600
  cases hfirst.symm.trans hkeep
  have hreads := (hclaim s t fileA _ 4000 hs.usable (of_decide_eq_true hd) (by decide) hw fileA he).1
  rw [hgone] at hreads
  cases hreads

end Failing

end BaSic.Proofs.OtherFiles
