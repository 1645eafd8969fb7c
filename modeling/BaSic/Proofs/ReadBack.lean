import BaSic.Proofs.ChainInvariant
import BaSic.Proofs.FatWrite
import BaSic.Proofs.FatNames

namespace BaSic.Proofs.ReadBack
open Kernel Lib FatTable FatChains Directory FileData Volume FileOps FatInvariant FatWrite FatNames

section Reading

variable {s : Fat12} {image image' : Nat → Sector} {chain : Nat → List Nat} {g : Geometry}
  {path name : CString} {k fuel : Nat} {l : List Nat}

/-- No chain holds enough bytes for a count to look negative. -/
theorem as_int_of_le {n : Nat} (h : n ≤ 512 * 173910) : asInt n = n := if_pos (by omega)

/-- Reading a file whose chain ends. -/
theorem fat12_read_eq (h : Mounted s image) (hl : lookup s.geo image path.skipSlash = some k)
    (hf : FileAt (fatEntry s.fat.data) (slotAt s.geo image k) l) (hfuel : chainFuel ≤ fuel)
    (out : Bytes) (cap : UInt32) {limit : Nat}
    (hlimit : limit = min cap.toNat (fileSize (slotAt s.geo image k))) :
    ∃ d, fat12Read fuel s (some path) (some out) cap =
        .ok (((min limit (512 * (chainLbas s.geo l).length) : Nat) : Int),
          some (loadData image (chainLbas s.geo l) 0 limit out), { s with disk := d }) ∧
      Shows d image := by
  obtain ⟨d, hfind, hd⟩ := find_entry_eq h.shows path.skipSlash
  obtain ⟨last, hp, hlast⟩ := hf.path
  have hroom := chain_lbas_room (g := s.geo) hf.upper hf.nodup
  have hlen := chain_length_le hf.upper hf.nodup
  have hchain : chainFuel = 4096 := rfl
  obtain ⟨d', hrun, hd'⟩ := read_chain_eq (g := s.geo) (f := s.fat) hd hlimit
    (UInt32.toNat_lt _) (UInt32.toNat_lt _) s.stack hp hf.inChain hf.upper hlast fuel 0 out (by omega)
    (Nat.zero_le _) (by omega)
  rw [Nat.zero_add] at hrun
  refine ⟨d', ?_, hd'⟩
  unfold fat12Read
  simp only [h.ready, hfind, hl, Option.map_some, foundAt]
  rw [hrun, ok_bind]
  simp only
  rw [as_int_of_le (by omega)]
  rfl

theorem fat12_read_none (h : Mounted s image) (hl : lookup s.geo image path.skipSlash = none)
    (fuel : Nat) (out : Bytes) (cap : UInt32) :
    ∃ d, fat12Read fuel s (some path) (some out) cap = .ok (0, some out, { s with disk := d }) ∧
      Shows d image := by
  obtain ⟨d, hfind, hd⟩ := find_entry_eq h.shows path.skipSlash
  refine ⟨d, ?_, hd⟩
  unfold fat12Read
  simp only [h.ready, hfind, hl, Option.map_none]

theorem fat12_exists_eq (h : Mounted s image) (path : CString) :
    (fat12Exists s path).1 = if lookup s.geo image path.skipSlash = none then 0 else 1 := by
  obtain ⟨d, hfind, _⟩ := find_entry_eq h.shows path.skipSlash
  unfold fat12Exists
  rw [h.ready]
  simp only [hfind]
  cases lookup s.geo image path.skipSlash <;> rfl

/-- What a call of `fat12_read` returns and what it leaves in the buffer. -/
def readResult (s : Fat12) (path : CString) (out : Bytes) (cap : UInt32) :
    Except Fault (Int × Option Bytes) :=
  (fat12Read chainFuel s (some path) (some out) cap).map (fun r => (r.1, r.2.1))

theorem read_result_eq (h : Mounted s image) (hl : lookup s.geo image path.skipSlash = some k)
    (hf : FileAt (fatEntry s.fat.data) (slotAt s.geo image k) l) (out : Bytes) (cap : UInt32) :
    readResult s path out cap =
      .ok (((min (min cap.toNat (fileSize (slotAt s.geo image k))) (512 * (chainLbas s.geo l).length) : Nat) : Int),
        some (loadData image (chainLbas s.geo l) 0 (min cap.toNat (fileSize (slotAt s.geo image k))) out)) := by
  obtain ⟨d, hrun, _⟩ := fat12_read_eq h hl hf (Nat.le_refl _) out cap rfl
  unfold readResult
  rw [hrun]
  rfl

end Reading

section Writing
open Formatted ChainInvariant

/-- No two files of the volume have names that match. -/
def DistinctNames (s : Fat12) : Prop :=
  ∀ j k, Live s.geo (slotAt s.geo s.disk.ata.sectors) j → Live s.geo (slotAt s.geo s.disk.ata.sectors) k →
    namesMatch (entryName (slotAt s.geo s.disk.ata.sectors j))
      (entryName (slotAt s.geo s.disk.ata.sectors k)) = true → j = k

variable {s s₁ : Fat12} {image : Nat → Sector} {chain : Nat → List Nat} {g : Geometry}
  {name : CString} {j k : Nat}

theorem distinct_names_iff : DistinctNames s ↔ ∀ j, j < s.geo.rootEntryCount.toNat →
    Live s.geo (slotAt s.geo s.disk.ata.sectors) j → ∀ k, k < s.geo.rootEntryCount.toNat →
    Live s.geo (slotAt s.geo s.disk.ata.sectors) k →
    namesMatch (entryName (slotAt s.geo s.disk.ata.sectors j))
      (entryName (slotAt s.geo s.disk.ata.sectors k)) = true → j = k :=
  ⟨fun h j _ hj k _ hk => h j k hj hk, fun h j k hj hk => h j hj.1 hj k hk.1 hk⟩

instance (s : Fat12) : Decidable (DistinctNames s) := decidable_of_iff' _ distinct_names_iff

/-- A matching file in front of which no directory end lies is found, by itself
or by an earlier match. -/
theorem lookup_of_match (hk : Live g (slotAt g image) k)
    (hm : namesMatch (entryName (slotAt g image k)) name = true)
    (hbefore : ∀ i, i < k → slotAt g image i 0 ≠ 0x00) :
    ∃ j, j ≤ k ∧ lookup g image name = some j :=
  first_hit_of_hit (Nat.zero_le _) (by have := hk.1; omega) (find_verdict_hit.mpr ⟨hk.2.1, hk.2.2, hm⟩)
    (fun i _ hi hs => hbefore i hi (find_verdict_stop.mp hs))

/-- The file just written is what its name finds when no earlier file matches. -/
theorem lookup_written {f : FatCache} {n : CString} {buf : Bytes} {size : Nat} (hfit : FatFits s.geo)
    (hk : freeSlot s.geo image = some k)
    (hu : Used (newEntry n ((takenClusters s size).headD 0) size))
    (hm : namesMatch (storedName n) name = true)
    (hbefore : ∀ i, i < k → Live s.geo (slotAt s.geo image) i →
      namesMatch (entryName (slotAt s.geo image i)) name = false) :
    lookup s.geo (writtenImage s image f n buf size k) name = some k := by
  obtain ⟨hcount, _, hused⟩ := free_slot_spec hk
  refine first_hit_some.mpr ⟨⟨Nat.zero_le _, by omega⟩, ?_, fun i _ hi => ?_⟩
  · rw [slot_at_written hfit hcount, if_pos rfl, find_verdict_hit, stored_name_eq]
    exact ⟨hu, new_entry_file n _ size, hm⟩
  · rw [slot_at_written hfit (by omega), if_neg (by omega), find_verdict_next]
    refine ⟨(hused i hi).1, fun hv => ?_⟩
    rw [hbefore i hi ⟨by omega, hv.1, hv.2.1⟩] at hv
    exact absurd hv.2.2 (by decide)

/-- With distinct names, removing what `n` finds leaves no match in front of the
first free slot. -/
theorem freed_no_match (hd : DistinctNames s) (n : CString)
    {i : Nat} (hi : i < k)
    (hk : freeSlot s.geo (freedImage s.geo s.disk.ata.sectors (lookup s.geo s.disk.ata.sectors n)) = some k)
    (hlive : Live s.geo (slotAt s.geo
      (freedImage s.geo s.disk.ata.sectors (lookup s.geo s.disk.ata.sectors n))) i) :
    namesMatch (entryName (slotAt s.geo
      (freedImage s.geo s.disk.ata.sectors (lookup s.geo s.disk.ata.sectors n)) i)) n = false := by
  obtain ⟨hcount, _, hused⟩ := free_slot_spec hk
  have hkept : ∀ j, j < k → lookup s.geo s.disk.ata.sectors n ≠ some j ∧
      slotAt s.geo (freedImage s.geo s.disk.ata.sectors (lookup s.geo s.disk.ata.sectors n)) j =
        slotAt s.geo s.disk.ata.sectors j := by
    intro j hj
    have hu := hused j hj
    rw [freed_slot] at hu ⊢
    split at hu
    · exact absurd hu (used_dropped _)
    · rename_i hne
      exact ⟨hne, if_neg hne⟩
  have hlive' : Live s.geo (slotAt s.geo s.disk.ata.sectors) i :=
    (live_congr (fun _ => (hkept i hi).2)).mp hlive
  rw [(hkept i hi).2]
  refine Bool.eq_false_iff.mpr (fun hm => ?_)
  obtain ⟨j, hji, hl⟩ := lookup_of_match hlive' hm (fun x hx => by
    have hu := hused x (by omega)
    rw [(hkept x (by omega)).2] at hu
    exact hu.1)
  have he := hd j i (lookup_live hl) hlive' (names_match_trans (lookup_match hl) (names_match_symm hm))
  exact (hkept i hi).1 (he ▸ hl)

/-- Reading the file just written. -/
theorem read_written {f : FatCache} {d : Disk} {n path : CString} {buf : Bytes} {size fuel : Nat}
    (h : Mounted s image) (hfit : FatFits s.geo) (hk : k < s.geo.rootEntryCount.toNat)
    (hsize : size < 4294967296)
    (hroom : clustersNeeded s.geo size ≤ (freeClusters (fatEntry s.fat.data) s.geo).length)
    (hb : Built (fatEntry f.data) (takenClusters s size))
    (hd : Shows d (writtenImage s image f n buf size k))
    (hl : lookup s.geo (writtenImage s image f n buf size k) path.skipSlash = some k)
    (hfuel : chainFuel ≤ fuel) (out : Bytes) (cap : UInt32) :
    ∃ u, fat12Read fuel { s with fat := { f with dirty := false }, disk := d } (some path) (some out) cap =
      .ok (((min cap.toNat (storedSize s size) : Nat) : Int),
        some (fun i => if i < min cap.toNat (storedSize s size) then buf i else out i), u) := by
  have hslot : slotAt s.geo (writtenImage s image f n buf size k) k =
      newEntry n ((takenClusters s size).headD 0) size := by
    rw [slot_at_written hfit hk, if_pos rfl]
  have hfile := taken_file_at n hroom hb
  rw [← hslot] at hfile
  have hlimit : min cap.toNat size =
      min cap.toNat (fileSize (slotAt s.geo (writtenImage s image f n buf size k) k)) := by
    rw [hslot, new_entry_size n _ hsize]
  obtain ⟨d', hread, _⟩ := fat12_read_eq
    (s := { s with fat := { f with dirty := false }, disk := d }) ⟨h.ready, hd⟩ hl hfile hfuel out cap hlimit
  have hcount : min (min cap.toNat size) (512 * (takenLbas s size).length) =
      min cap.toNat (storedSize s size) := Nat.min_assoc _ _ _
  have hdata : loadData (writtenImage s image f n buf size k) (takenLbas s size) 0 (min cap.toNat size) out =
      fun i => if i < min cap.toNat (storedSize s size) then buf i else out i := by
    funext i
    unfold loadData
    rw [Nat.zero_add, hcount]
    by_cases hi : i < min cap.toNat (storedSize s size)
    · rw [if_pos ⟨Nat.zero_le _, hi⟩, if_pos hi, Nat.sub_zero]
      exact written_bytes hfit hk hb.nodup (by omega)
    · rw [if_neg (fun hc => hi hc.2), if_neg hi]
  refine ⟨{ s with fat := { f with dirty := false }, disk := d' }, hread.trans ?_⟩
  rw [← hdata, ← hcount]
  rfl

theorem stored_size_le {size : Nat} (hb : ∀ c ∈ takenClusters s size, c ≤ lastCluster)
    (hnd : (takenClusters s size).Nodup) : storedSize s size ≤ 512 * 173910 := by
  have hroom := chain_lbas_room (g := s.geo) hb hnd
  unfold storedSize takenLbas
  omega

/-- What a write that returned its whole size did. -/
theorem write_succeeded {t : Fat12} {leaked : Nat → Prop} {n : CString} {buf : Bytes} {size : UInt32}
    (h : WellFormed s image chain leaked) (hpos : 1 ≤ size.toNat)
    (hw : fat12Write s (some n) (some buf) size = .ok (size.toNat, t)) :
    ∃ s₁ k f d, Freed s image chain (lookup s.geo image n.skipSlash) s₁ ∧
      WellFormed s₁ (freedImage s.geo image (lookup s.geo image n.skipSlash)) chain leaked ∧
      clustersNeeded s₁.geo size.toNat ≤ (freeClusters (fatEntry s₁.fat.data) s₁.geo).length ∧
      freeSlot s₁.geo (freedImage s.geo image (lookup s.geo image n.skipSlash)) = some k ∧
      t = { s₁ with fat := { f with dirty := false }, disk := d } ∧
      Built (fatEntry f.data) (takenClusters s₁ size.toNat) ∧
      Shows d (writtenImage s₁ (freedImage s.geo image (lookup s.geo image n.skipSlash)) f n.skipSlash buf
        size.toNat k) ∧
      storedSize s₁ size.toNat = size.toNat := by
  obtain ⟨s₁, hf, hstore⟩ := fat12_write_eq h n buf size
  have h₁ := hf.well_formed h (fun k hk => lookup_live hk)
  rw [hstore] at hw
  rcases store_file_eq h₁.mounted h₁.fits.regions n.skipSlash buf size.toNat_lt with
    ⟨_, f, hrun, _⟩ | ⟨_, _, f, d, hrun, _⟩ | ⟨hroom, k, f, d, hk, hrun, hb, _, hshows⟩
  · rw [hrun] at hw
    have hzero := (Prod.mk.inj (Except.ok.inj hw)).1
    omega
  · rw [hrun] at hw
    have hzero := (Prod.mk.inj (Except.ok.inj hw)).1
    omega
  · rw [hrun] at hw
    obtain ⟨hret, rfl⟩ := Prod.mk.inj (Except.ok.inj hw)
    rw [as_int_of_le (stored_size_le hb.upper hb.nodup)] at hret
    exact ⟨s₁, k, f, d, hf, h₁, hroom, hk, rfl, hb, hshows, by omega⟩

/-- A name without a slash at its front is looked up as it is. -/
theorem skip_slash_of_upper {a b : CString} (h : a.chars.map upper = b.chars.map upper)
    (hb : ∀ c ∈ b.chars, c ≠ chSlash) : a.skipSlash = a := by
  apply c_string_ext
  refine if_neg (fun hs => ?_)
  cases ha : a.chars with
  | nil =>
    rw [ha] at hs
    cases hs
  | cons x l =>
    rw [ha] at hs
    have hx : x = chSlash := by simpa using hs
    cases hbc : b.chars with
    | nil =>
      rw [ha, hbc] at h
      cases h
    | cons y m =>
      rw [ha, hbc, List.map_cons, List.map_cons] at h
      have hxy := (List.cons.inj h).1
      have hy : upper y = chSlash → y = chSlash := by
        have hslash : chSlash.toNat = 47 := rfl
        simp only [← UInt8.toNat_inj, upper_to_nat, hslash]
        grind
      refine hb y (by simp [hbc]) (hy ?_)
      rw [← hxy, hx]
      rfl

theorem short_name_no_slash (h : ShortName name) : ∀ c ∈ name.chars, c ≠ chSlash := by
  cases h with
  | plain _ hchars => exact fun c hc => (hchars c hc).2.2.2
  | dotted base ext hname _ _ hchars =>
    intro c hc
    rw [hname] at hc
    rcases List.mem_append.mp hc with hc | hc
    · exact (hchars c (List.mem_append_left _ hc)).2.2.2
    · rcases List.mem_cons.mp hc with rfl | hc
      · decide
      · exact (hchars c (List.mem_append_right _ hc)).2.2.2

theorem short_name_printable (h : ShortName name) : Printable name := by
  have hrange : ∀ c : UInt8, NameChar c → 0x20 ≤ c ∧ c ≤ 0x7E :=
    fun c hc => ⟨UInt8.le_trans (by decide) hc.1, hc.2.1⟩
  cases h with
  | plain _ hchars => exact fun c hc => hrange c (hchars c hc)
  | dotted base ext hname _ _ hchars =>
    intro c hc
    rw [hname] at hc
    rcases List.mem_append.mp hc with hc | hc
    · exact hrange c (hchars c (List.mem_append_left _ hc))
    · rcases List.mem_cons.mp hc with rfl | hc
      · decide
      · exact hrange c (hchars c (List.mem_append_right _ hc))

/-- What was written whole under a short name is read back whole, under any
spelling of the name. -/
theorem write_then_read {t : Fat12} {n n' : CString} {buf out : Bytes} {size cap : UInt32} {fuel : Nat}
    (h : Usable s) (hd : DistinctNames s) (hn : ShortName n) (hpos : 1 ≤ size.toNat)
    (hw : fat12Write s (some n) (some buf) size = .ok (size.toNat, t))
    (hn' : n'.chars.map upper = n.chars.map upper) (hcap : size ≤ cap) (hfuel : chainFuel ≤ fuel) :
    ∃ u, fat12Read fuel t (some n') (some out) cap =
      .ok (size.toNat, some (fun i => if i < size.toNat then buf i else out i), u) := by
  obtain ⟨chain, leaked, hw₀⟩ := h
  obtain ⟨hnskip, hnskip'⟩ : n.skipSlash = n ∧ n'.skipSlash = n' :=
    ⟨skip_slash_of_upper rfl (short_name_no_slash hn), skip_slash_of_upper hn' (short_name_no_slash hn)⟩
  obtain ⟨s₁, k, f, d, hf, h₁, hroom, hk, rfl, hb, hshows, hall⟩ := write_succeeded hw₀ hpos hw
  rw [hnskip] at h₁ hk hshows
  obtain ⟨hcount, _, _⟩ := free_slot_spec hk
  have hu : Used (newEntry n ((takenClusters s₁ size.toNat).headD 0) size.toNat) :=
    new_entry_used (short_name_printable hn) _ _
  have hmatch : namesMatch (storedName n) n' = true := by
    rw [names_match_iff, stored_short_name hn, List.map_map, hn']
    exact List.map_congr_left (fun c _ => upper_upper c)
  have hlook : lookup s₁.geo (writtenImage s₁ (freedImage s.geo s.disk.ata.sectors
      (lookup s.geo s.disk.ata.sectors n)) f n buf size.toNat k) n'.skipSlash = some k := by
    rw [hnskip']
    refine lookup_written h₁.fits hk hu hmatch (fun i hi hlive => ?_)
    rw [hf.geo] at hk hlive ⊢
    refine Bool.eq_false_iff.mpr (fun hm => ?_)
    have hno := freed_no_match hd n hi hk hlive
    rw [names_match_trans hm (names_match_iff.mpr hn')] at hno
    cases hno
  obtain ⟨u, hread⟩ := read_written h₁.mounted h₁.fits hcount size.toNat_lt hroom hb hshows hlook
    hfuel out cap
  have hmin : min cap.toNat (storedSize s₁ size.toNat) = size.toNat := by
    rw [hall, Nat.min_eq_right (UInt32.le_iff_toNat_le.mp hcap)]
  rw [hmin] at hread
  exact ⟨u, hread⟩

theorem formatted_distinct (hg : FatFits g) : DistinctNames (formatted g) :=
  fun j _ hj _ _ => absurd hj.2.1 (formatted_unused hg j)

/-- 600 bytes written as `A` are read back as `a`. -/
theorem write_then_read_small : ∃ t u,
    fat12Write (formatted smallGeometry) (some fileA) (some fun _ => 7) 600 = .ok (600, t) ∧
    fat12Read chainFuel t (some ⟨[0x61], by simp⟩) (some fun _ => 0) 1000 =
      .ok (600, some (fun i => if i < 600 then 7 else 0), u) := by
  have hwrite : (fat12Write (formatted smallGeometry) (some fileA) (some fun _ => 7) 600).map Prod.fst =
      .ok 600 := by
    decide +kernel
  obtain ⟨⟨_, t⟩, ht, rfl⟩ := ok_of_map hwrite
  have hname : ShortName fileA := by
    refine .plain (by decide) (fun c hc => ?_)
    rw [List.mem_singleton.mp hc]
    decide
  have hread : ∃ u, fat12Read chainFuel t (some ⟨[0x61], by simp⟩) (some fun _ => 0) 1000 =
      .ok ((600 : UInt32).toNat, some (fun i => if i < (600 : UInt32).toNat then 7 else 0), u) :=
    write_then_read (formatted_well_formed small_fits).usable (formatted_distinct small_fits) hname
      (by decide) ht (by decide) (by decide) (Nat.le_refl chainFuel)
  obtain ⟨u, hread⟩ := hread
  exact ⟨t, u, ht, hread⟩

end Writing

end BaSic.Proofs.ReadBack
