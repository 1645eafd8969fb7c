import BaSic.Proofs.FatBounds
import BaSic.Proofs.FatCopies
import BaSic.Lib.Steps

namespace BaSic.Proofs.FatAccess
open Kernel Lib FatTable FatChains FileOps Formatted ChainInvariant FatCopies FatBounds

/-- A mount, or a call on the volume mounted; a read goes on for `fuel` clusters at most. -/
inductive FatCall where
  | init
  | write (path : Option CString) (buf : Option Bytes) (size : UInt32)
  | read (fuel : Nat) (path : Option CString) (buf : Option Bytes) (bufSize : UInt32)
  | delete (path : Option CString)

def fatCall (s : Fat12) : FatCall → Except Fault (Int × Fat12)
  | .init => fat12Init s
  | .write path buf size => fat12Write s path buf size
  | .read fuel path buf bufSize => (fat12Read fuel s path buf bufSize).map (fun r => (r.1, r.2.2))
  | .delete path => fat12Delete s path

def callStep (s : Fat12) (call : FatCall) : Except Fault Int × Fat12 :=
  match fatCall s call with
  | .error e => (.error e, s)
  | .ok (r, t) => (.ok r, t)

/-- No access of the call is outside `fat_data`, however long it goes on. -/
def StaysInside (s : Fat12) : FatCall → Prop
  | .read _ path buf bufSize => ∀ fuel, InBounds (fat12Read fuel s path buf bufSize)
  | .init => InBounds (fat12Init s)
  | .write path buf size => InBounds (fat12Write s path buf size)
  | .delete path => InBounds (fat12Delete s path)

/-- The first cluster of the file of that name. -/
def fileStart (s : Fat12) (path : CString) : Option Nat :=
  (findEntry s path.skipSlash).1.map (fun found => firstCluster found.entry)

/-- The cluster is on the chain of the file of that name. -/
def OnChain (s : Fat12) (path : CString) (c : Nat) : Prop :=
  ∃ first, fileStart s path = some first ∧ Reach (fatEntry s.fat.data) InChain first c

/-- The clusters with entries in `fat_data` that are free once the file of that name is gone. -/
def freeWithout (s : Fat12) (path : CString) : Set Nat :=
  {c | 2 ≤ c ∧ c ≤ lastCluster ∧ (fatEntry s.fat.data c = 0 ∨ OnChain s path c)}

/-- The buffer is not full after `n` clusters. A file shorter than the buffer never fills it,
and close to 2^32 the count wraps before it is full. -/
def GoesOn (g : Geometry) (size bufSize n : Nat) : Prop :=
  n * (g.sectorsPerCluster.toNat * 512) < bufSize ∨ size < bufSize ∨ 4294967296 - 512 < bufSize

/-- The clusters a read looks up have entries in `fat_data`. -/
def ReadsInside (s : Fat12) (path : CString) (bufSize : Nat) : Prop :=
  ∀ found n, (findEntry s path.skipSlash).1 = some found →
    (∀ j ≤ n, InChain ((fatEntry s.fat.data)^[j] (firstCluster found.entry))) →
      GoesOn s.geo (fileSize found.entry) bufSize n →
        (fatEntry s.fat.data)^[n] (firstCluster found.entry) ≤ lastCluster

/-- The chain of the file met has its entries in `fat_data`, and a write finds enough free
clusters there, or the volume has no others. -/
def EntriesInside (s : Fat12) : FatCall → Prop
  | .write (some path) (some _) size => s.ready = true → (∀ c, OnChain s path c → c ≤ lastCluster) ∧
      (s.geo.sectorsPerCluster ≠ 0 → clusterLimit s.geo ≤ lastCluster + 1 ∨
        clustersNeeded s.geo size.toNat ≤ (freeWithout s path).ncard)
  | .read _ (some path) (some _) bufSize => s.ready = true → ReadsInside s path bufSize.toNat
  | .delete (some path) => s.ready = true → ∀ c, OnChain s path c → c ≤ lastCluster
  | _ => True

variable {s : Fat12} {f : FatCache} {g : Geometry} {d : Disk} {buf : Bytes} {a size bufSize written : Nat}

/-- The bytes read once another sector has been copied. -/
def afterSector (size bufSize written : Nat) : Nat :=
  let toCopy := 512
  let toCopy := if bufSize < u32 (written + toCopy) then sub32 bufSize written else toCopy
  let toCopy := if size < u32 (written + toCopy) then sub32 size written else toCopy
  u32 (written + toCopy)

def afterCluster (size bufSize : Nat) : (count written : Nat) → Nat
  | 0, written => written
  | count + 1, written =>
    if written < bufSize then afterCluster size bufSize count (afterSector size bufSize written) else written

theorem read_cluster_written (stack : Sector) (size bufSize count : Nat) (d : Disk) (buf : Bytes)
    (lba written : Nat) :
    (readCluster stack size bufSize count d buf lba written).1 = afterCluster size bufSize count written := by
  induction count generalizing d buf lba written with
  | zero => rfl
  | succ count ih =>
    rw [readCluster, afterCluster]
    split
    · exact ih ..
    · rfl

/-- One round of the cluster loop: it looks up the entry of the cluster at hand. -/
theorem read_chain_round (stack : Sector) (f : FatCache) (g : Geometry) (size : Nat) (d : Disk) (buf : Bytes)
    (hgo : InChain a ∧ written < bufSize) :
    ∃ d' buf', ∀ fuel, readChain stack g f size bufSize (fuel + 1) d buf a written =
      fat12Get f a >>= fun next => readChain stack g f size bufSize fuel d' buf' next
        (afterCluster size bufSize g.sectorsPerCluster.toNat written) := by
  let r := readCluster stack size bufSize g.sectorsPerCluster.toNat d buf (g.clusterLba a) written
  refine ⟨r.2.2, r.2.1, fun fuel => ?_⟩
  conv_lhs => unfold readChain
  rw [if_pos hgo, ← read_cluster_written stack size bufSize _ d buf (g.clusterLba a) written]

theorem read_chain_first (stack : Sector) (d : Disk) (buf : Bytes) (hgo : InChain a ∧ written < bufSize)
    (h : ∀ fuel, InBounds (readChain stack g f size bufSize fuel d buf a written)) :
    a ≤ lastCluster ∧ ∃ d' buf', ∀ fuel, InBounds (readChain stack g f size bufSize fuel d' buf' (fatEntry f.data a)
      (afterCluster size bufSize g.sectorsPerCluster.toNat written)) := by
  obtain ⟨d', buf', hround⟩ := read_chain_round stack f g size d buf hgo
  have hle : a ≤ lastCluster := by
    by_contra hout
    obtain ⟨i, hi⟩ := fat12_get_out (f := f) (Nat.lt_of_not_le hout)
    refine h 1 i ?_
    rw [hround 0, hi]
    rfl
  refine ⟨hle, d', buf', fun fuel => ?_⟩
  have hrun := h (fuel + 1)
  rw [hround fuel, fat12_get_eq hle, ok_bind] at hrun
  exact hrun

/-- The entries a read looks up, one for each round that starts. -/
theorem read_chain_in_bounds (stack : Sector) (f : FatCache) (g : Geometry) (d : Disk) (buf : Bytes)
    (size bufSize a written : Nat) :
    (∀ fuel, InBounds (readChain stack g f size bufSize fuel d buf a written)) ↔
      ∀ n, (∀ j ≤ n, InChain ((fatEntry f.data)^[j] a) ∧
        (afterCluster size bufSize g.sectorsPerCluster.toNat)^[j] written < bufSize) →
          (fatEntry f.data)^[n] a ≤ lastCluster := by
  constructor
  · intro h n hgo
    induction n generalizing d buf a written with
    | zero => exact (read_chain_first stack d buf (hgo 0 (Nat.le_refl 0)) h).1
    | succ n ih =>
      obtain ⟨-, d', buf', hrest⟩ := read_chain_first stack d buf (hgo 0 (Nat.zero_le _)) h
      exact ih d' buf' _ _ hrest (fun j hj => hgo (j + 1) (Nat.succ_le_succ hj))
  · intro h fuel
    induction fuel generalizing d buf a written with
    | zero =>
      intro i hi
      unfold readChain at hi
      split at hi
      · cases hi
      · cases hi
    | succ fuel ih =>
      by_cases hgo : InChain a ∧ written < bufSize
      · obtain ⟨d', buf', hround⟩ := read_chain_round stack f g size d buf hgo
        have hle : a ≤ lastCluster := h 0 (fun j hj => by rw [Nat.le_zero.mp hj]; exact hgo)
        rw [hround fuel, fat12_get_eq hle, ok_bind]
        refine ih d' buf' _ _ (fun n hn => ?_)
        refine h (n + 1) (fun j hj => ?_)
        cases j with
        | zero => exact hgo
        | succ j => exact hn j (Nat.le_of_succ_le_succ hj)
      · unfold readChain
        rw [if_neg hgo]
        exact in_bounds_ok _

theorem after_cluster_keeps {P : Nat → Prop}
    (hstep : ∀ w, P w → w < bufSize → P (afterSector size bufSize w)) (count : Nat) (h : P written) :
    P (afterCluster size bufSize count written) := by
  induction count generalizing written with
  | zero => exact h
  | succ count ih =>
    rw [afterCluster]
    split
    · rename_i hlt
      exact ih (hstep written h hlt)
    · exact h

theorem after_clusters_keep {P : Nat → Prop}
    (hstep : ∀ w, P w → w < bufSize → P (afterSector size bufSize w)) (count j : Nat) (h : P written) :
    P ((afterCluster size bufSize count)^[j] written) := by
  induction j generalizing written with
  | zero => exact h
  | succ j ih => exact ih (after_cluster_keeps hstep count h)

/-- A file shorter than the buffer never fills it. -/
theorem after_sector_short (hsize : size < bufSize) (hbuf : bufSize < 4294967296) (hw : written ≤ size) :
    afterSector size bufSize written ≤ size := by
  unfold afterSector sub32 u32
  dsimp only
  split_ifs <;> omega

/-- Sectors are counted in full, and the count wraps before the buffer is full. -/
theorem after_sector_wraps (hsize : bufSize ≤ size) (hbuf : 4294967296 - 512 < bufSize)
    (hmax : size < 4294967296) (hw : written % 512 = 0 ∧ written < bufSize) :
    afterSector size bufSize written % 512 = 0 ∧ afterSector size bufSize written < bufSize := by
  unfold afterSector sub32 u32
  dsimp only
  split_ifs <;> omega

theorem after_sector_fills (hsize : bufSize ≤ size) (hbuf : bufSize ≤ 4294967296 - 512)
    (hw : written < bufSize) : afterSector size bufSize written = min (written + 512) bufSize := by
  unfold afterSector sub32 u32
  dsimp only
  split_ifs <;> omega

theorem after_cluster_fills (hsize : bufSize ≤ size) (hbuf : bufSize ≤ 4294967296 - 512) (count : Nat)
    (hw : written ≤ bufSize) :
    afterCluster size bufSize count written = min (written + count * 512) bufSize := by
  induction count generalizing written with
  | zero => simpa [afterCluster] using hw
  | succ count ih =>
    rw [afterCluster]
    split
    · rename_i hlt
      rw [after_sector_fills hsize hbuf hlt, ih (Nat.min_le_right _ _)]
      omega
    · omega

theorem after_clusters_fill (hsize : bufSize ≤ size) (hbuf : bufSize ≤ 4294967296 - 512) (count j : Nat)
    (hw : written ≤ bufSize) :
    (afterCluster size bufSize count)^[j] written = min (written + j * (count * 512)) bufSize := by
  induction j generalizing written with
  | zero => simpa using hw
  | succ j ih =>
    rw [Function.iterate_succ_apply, after_cluster_fills hsize hbuf count hw, ih (Nat.min_le_right _ _), Nat.succ_mul]
    omega

/-- The buffer is not full after any of the first clusters exactly when the read goes on. -/
theorem goes_on_iff (hsize : size < 4294967296) (hbuf : bufSize < 4294967296) (n : Nat) :
    (∀ j ≤ n, (afterCluster size bufSize g.sectorsPerCluster.toNat)^[j] 0 < bufSize) ↔ GoesOn g size bufSize n := by
  unfold GoesOn
  by_cases hshort : size < bufSize
  · refine iff_of_true (fun j _ => ?_) (Or.inr (Or.inl hshort))
    refine Nat.lt_of_le_of_lt ?_ hshort
    exact after_clusters_keep (P := fun w => w ≤ size) (fun w hw _ => after_sector_short hshort hbuf hw) _ j
      (Nat.zero_le size)
  · by_cases hwrap : 4294967296 - 512 < bufSize
    · refine iff_of_true (fun j _ => ?_) (Or.inr (Or.inr hwrap))
      exact (after_clusters_keep (P := fun w => w % 512 = 0 ∧ w < bufSize)
        (fun w hw _ => after_sector_wraps (by omega) hwrap hsize hw) _ j ⟨rfl, by omega⟩).2
    · have hfill : ∀ j, (afterCluster size bufSize g.sectorsPerCluster.toNat)^[j] 0 = _ :=
        fun j => after_clusters_fill (by omega) (by omega) g.sectorsPerCluster.toNat j (Nat.zero_le bufSize)
      rw [or_iff_left (fun h => h.elim hshort hwrap)]
      constructor
      · intro h
        have hn := h n (Nat.le_refl n)
        rw [hfill n] at hn
        omega
      · intro h j hj
        have hle := Nat.mul_le_mul_right (g.sectorsPerCluster.toNat * 512) hj
        rw [hfill j]
        omega

theorem read_in_bounds_iff (path : CString) (out : Bytes) (bufSize : UInt32) (hready : s.ready = true) :
    (∀ fuel, InBounds (fat12Read fuel s (some path) (some out) bufSize)) ↔ ReadsInside s path bufSize.toNat := by
  unfold fat12Read ReadsInside
  rw [hready]
  dsimp only
  have hfat : (findEntry s path.skipSlash).2.fat = s.fat ∧ (findEntry s path.skipSlash).2.geo = s.geo := ⟨rfl, rfl⟩
  cases hfind : findEntry s path.skipSlash with
  | mk found t =>
    rw [hfind] at hfat
    obtain ⟨hf, hg⟩ := hfat
    cases found with
    | none => exact iff_of_true (fun _ => in_bounds_ok _) (fun found n h => by cases h)
    | some found =>
      dsimp only at hf hg ⊢
      have hbind : ∀ fuel, InBounds ((readChain t.stack t.geo t.fat (fileSize found.entry) bufSize.toNat fuel t.disk
          out (firstCluster found.entry) 0) >>= fun r => .ok (asInt r.1, some r.2.1, { t with disk := r.2.2 })) ↔
          InBounds (readChain t.stack t.geo t.fat (fileSize found.entry) bufSize.toNat fuel t.disk out
            (firstCluster found.entry) 0) :=
        fun fuel => in_bounds_bind.trans (and_iff_left (fun _ _ => in_bounds_ok _))
      refine (forall_congr' hbind).trans ((read_chain_in_bounds ..).trans ?_)
      rw [hf, hg]
      have hsize : fileSize found.entry < 4294967296 := UInt32.toNat_lt _
      have hgoes := goes_on_iff (g := s.geo) hsize (UInt32.toNat_lt bufSize)
      constructor
      · rintro h found' n hsome hin hgo
        obtain rfl := Option.some.inj hsome
        exact h n (fun j hj => ⟨hin j hj, (hgoes n).mpr hgo j hj⟩)
      · intro h n hn
        exact h found n rfl (fun j hj => (hn j hj).1) ((hgoes n).mp (fun j hj => (hn j hj).2))

theorem write_chain_in_bounds (buf : Bytes) (size fuel : Nat) (d : Disk) (written : Nat) (h : Inside f a) :
    InBounds (writeChain g f buf size fuel d a written) := by
  induction fuel generalizing d a written with
  | zero =>
    intro i hi
    unfold writeChain at hi
    split at hi
    · cases hi
    · cases hi
  | succ fuel ih =>
    unfold writeChain
    by_cases hgo : InChain a ∧ written < size
    · rw [if_pos hgo]
      dsimp only
      rw [fat12_get_eq (h a (.start hgo.1)), ok_bind]
      exact ih _ _ (h.next hgo.1)
    · rw [if_neg hgo]
      exact in_bounds_ok _

theorem remove_in_bounds_iff (s : Fat12) (found : Found) :
    InBounds (removeFile s found) ↔ Inside s.fat (firstCluster found.entry) := by
  unfold removeFile
  refine in_bounds_bind.trans ((and_iff_left (fun f _ => ?_)).trans free_chain_in_bounds)
  exact in_bounds_ok _

/-- Removing a file frees the clusters met on its chain. -/
theorem remove_file_frees (found : Found) (h : Inside s.fat (firstCluster found.entry)) :
    ∃ t, removeFile s found = .ok t ∧ t.geo = s.geo ∧ ∀ x, fatEntry t.fat.data x = 0 ↔
      fatEntry s.fat.data x = 0 ∨ Reach (fatEntry s.fat.data) InChain (firstCluster found.entry) x := by
  have hused := entries_used_le (fatEntry s.fat.data)
  have hfuel : chainFuel = 4096 := rfl
  obtain ⟨f, hrun, -, -, hentry⟩ := free_chain_from_eq chainFuel h (fun _ => by omega)
  unfold removeFile freeChain
  rw [hrun, ok_bind]
  refine ⟨_, rfl, rfl, fun x => ?_⟩
  by_cases hx : Reach (fatEntry s.fat.data) InChain (firstCluster found.entry) x
  · exact iff_of_true ((hentry x).1 hx) (Or.inr hx)
  · rw [or_iff_left hx, ← (hentry x).2 hx]

theorem store_in_bounds_iff (s : Fat12) (name : CString) (buf : Bytes) (size : Nat) :
    InBounds (storeFile s name buf size) ↔
      (s.geo.sectorsPerCluster ≠ 0 → HasRoom s.geo s.fat (clustersNeeded s.geo size)) := by
  unfold storeFile
  by_cases hspc : s.geo.sectorsPerCluster = 0
  · refine iff_of_true (fun i hi => ?_) (fun h => absurd hspc h)
    rw [if_pos hspc] at hi
    cases hi
  rw [if_neg hspc]
  constructor
  · intro h _
    by_contra hroom
    exact alloc_chain_no_room hroom (in_bounds_bind.mp h).1
  · intro h
    dsimp only
    rcases alloc_chain_cases (clusters_needed_pos s.geo size) (h hspc) with ⟨f, hrun⟩ | ⟨first, f, hrun, hinside⟩
    · rw [hrun, ok_bind]
      exact in_bounds_ok _
    · rw [hrun, ok_bind]
      refine in_bounds_bind.mpr ⟨write_chain_in_bounds _ _ _ _ _ hinside, fun r _ => ?_⟩
      split
      · rename_i t hslot
        have hfat : t.fat = f := congrArg (fun x => x.2.fat) hslot.symm
        refine in_bounds_bind.mpr ⟨?_, fun _ _ => in_bounds_ok _⟩
        rw [hfat]
        exact free_chain_in_bounds.mpr hinside
      · exact in_bounds_ok _

theorem init_in_bounds (s : Fat12) : InBounds (fat12Init s) := by
  intro i h
  unfold fat12Init at h
  dsimp only at h
  split at h
  · cases h
  · split at h
    · cases h
    · split at h
      · cases h
      · cases h

theorem inner_free_count (next : Nat → Nat) :
    (innerFree next).length = {c | 2 ≤ c ∧ c ≤ lastCluster ∧ next c = 0}.ncard := by
  have hlast : lastCluster = 681 := rfl
  have hset : {c | 2 ≤ c ∧ c ≤ lastCluster ∧ next c = 0} = ↑(innerFree next).toFinset := by
    ext c
    unfold innerFree
    rw [List.coe_toFinset, Set.mem_ofPred_eq, Set.mem_ofPred_eq, mem_free_list]
    omega
  rw [hset, Set.ncard_coe_finset]
  exact (List.toFinset_card_of_nodup (free_list_nodup next 2 (lastCluster - 1))).symm

theorem on_chain_iff {path : CString} {first c : Nat} (h : fileStart s path = some first) :
    OnChain s path c ↔ Reach (fatEntry s.fat.data) InChain first c := by
  constructor
  · rintro ⟨first', hfirst, hc⟩
    obtain rfl := Option.some.inj (h.symm.trans hfirst)
    exact hc
  · exact fun hc => ⟨first, h, hc⟩

theorem not_on_chain {path : CString} {c : Nat} (h : fileStart s path = none) : ¬ OnChain s path c := by
  rintro ⟨first, hfirst, -⟩
  rw [h] at hfirst
  cases hfirst

/-- There is room once the old file is gone exactly when enough clusters are free or its own. -/
theorem has_room_iff (path : CString) {t : Fat12} (hgeo : t.geo = s.geo) (hfree : ∀ c, fatEntry t.fat.data c = 0 ↔
    fatEntry s.fat.data c = 0 ∨ OnChain s path c) (count : Nat) :
    HasRoom t.geo t.fat count ↔ clusterLimit s.geo ≤ lastCluster + 1 ∨ count ≤ (freeWithout s path).ncard := by
  unfold HasRoom freeWithout
  rw [hgeo, inner_free_count]
  simp only [hfree]

theorem write_in_bounds_iff (path : CString) (buf : Bytes) (size : UInt32) (hready : s.ready = true) :
    InBounds (fat12Write s (some path) (some buf) size) ↔ (∀ c, OnChain s path c → c ≤ lastCluster) ∧
      (s.geo.sectorsPerCluster ≠ 0 → clusterLimit s.geo ≤ lastCluster + 1 ∨
        clustersNeeded s.geo size.toNat ≤ (freeWithout s path).ncard) := by
  unfold fat12Write
  rw [hready]
  dsimp only
  have hkeeps : (findEntry s path.skipSlash).2.fat = s.fat ∧ (findEntry s path.skipSlash).2.geo = s.geo := ⟨rfl, rfl⟩
  have hstart : fileStart s path = (findEntry s path.skipSlash).1.map (fun found => firstCluster found.entry) := rfl
  cases hfind : findEntry s path.skipSlash with
  | mk found t =>
    rw [hfind] at hkeeps hstart
    obtain ⟨hfat, hgeo⟩ := hkeeps
    cases found with
    | none =>
      have hnone : ∀ c, ¬ OnChain s path c := fun c => not_on_chain hstart
      have hroom := has_room_iff path hgeo
        (fun c => by rw [or_iff_left (hnone c), show t.fat = s.fat from hfat]) (clustersNeeded s.geo size.toNat)
      refine (store_in_bounds_iff t path.skipSlash buf size.toNat).trans ?_
      rw [and_iff_right (fun c hc => absurd hc (hnone c)), ← hroom, show t.geo = s.geo from hgeo]
    | some old =>
      dsimp only at hfat hgeo ⊢
      have hinside : Inside t.fat (firstCluster old.entry) ↔ ∀ c, OnChain s path c → c ≤ lastCluster := by
        unfold Inside
        rw [hfat]
        exact forall_congr' (fun c => imp_congr_left (on_chain_iff hstart).symm)
      rw [in_bounds_bind, remove_in_bounds_iff, hinside]
      refine and_congr_right (fun hall => ?_)
      obtain ⟨u, hrun, hu, hfree⟩ := remove_file_frees (s := t) old (hinside.mpr hall)
      have hroom := has_room_iff path (hu.trans hgeo)
        (fun c => by rw [hfree c, hfat, on_chain_iff hstart]) (clustersNeeded s.geo size.toNat)
      rw [hrun, ← hroom]
      refine Iff.trans ⟨fun h => h u rfl, fun h v hv => by rw [← Except.ok.inj hv]; exact h⟩ ?_
      refine (store_in_bounds_iff u path.skipSlash buf size.toNat).trans ?_
      rw [hu, hgeo]

theorem delete_in_bounds_iff (path : CString) (hready : s.ready = true) :
    InBounds (fat12Delete s (some path)) ↔ ∀ c, OnChain s path c → c ≤ lastCluster := by
  unfold fat12Delete
  rw [hready]
  dsimp only
  have hfat : (findEntry s path.skipSlash).2.fat = s.fat := rfl
  have hstart : fileStart s path = (findEntry s path.skipSlash).1.map (fun found => firstCluster found.entry) := rfl
  cases hfind : findEntry s path.skipSlash with
  | mk found t =>
    rw [hfind] at hfat hstart
    cases found with
    | none => exact iff_of_true (in_bounds_ok _) (fun c hc => absurd hc (not_on_chain hstart))
    | some old =>
      dsimp only at hfat ⊢
      refine in_bounds_bind.trans ((and_iff_left (fun _ _ => in_bounds_ok _)).trans ?_)
      rw [remove_in_bounds_iff]
      unfold Inside
      rw [hfat]
      exact forall_congr' (fun c => imp_congr_left (on_chain_iff hstart).symm)

theorem write_idle {path : Option CString} {buf : Option Bytes} (size : UInt32)
    (h : s.ready = false ∨ path = none ∨ buf = none) : fat12Write s path buf size = .ok (0, s) := by
  unfold fat12Write
  rcases h with h | rfl | rfl
  · rw [h]
  · cases s.ready with
    | false => rfl
    | true => rfl
  · cases s.ready with
    | false => rfl
    | true =>
      cases path with
      | none => rfl
      | some path => rfl

theorem read_idle {path : Option CString} {buf : Option Bytes} (fuel : Nat) (bufSize : UInt32)
    (h : s.ready = false ∨ path = none ∨ buf = none) : fat12Read fuel s path buf bufSize = .ok (0, buf, s) := by
  unfold fat12Read
  rcases h with h | rfl | rfl
  · rw [h]
  · cases s.ready with
    | false => rfl
    | true => rfl
  · cases s.ready with
    | false => rfl
    | true =>
      cases path with
      | none => rfl
      | some path => rfl

theorem delete_idle {path : Option CString} (h : s.ready = false ∨ path = none) :
    fat12Delete s path = .ok (0, s) := by
  unfold fat12Delete
  rcases h with h | rfl
  · rw [h]
  · cases s.ready with
    | false => rfl
    | true => rfl

/-- A call stays inside `fat_data` exactly when the entries it needs are there. -/
theorem stays_inside_iff (s : Fat12) (call : FatCall) : StaysInside s call ↔ EntriesInside s call := by
  have hoff : s.ready ≠ true → s.ready = false := Bool.eq_false_iff.mpr
  cases call with
  | init => exact iff_of_true (init_in_bounds s) trivial
  | write path buf size =>
    cases path with
    | none => exact iff_of_true (in_bounds_of_ok (write_idle size (Or.inr (Or.inl rfl)))) trivial
    | some path =>
      cases buf with
      | none => exact iff_of_true (in_bounds_of_ok (write_idle size (Or.inr (Or.inr rfl)))) trivial
      | some buf =>
        by_cases hready : s.ready = true
        · exact (write_in_bounds_iff path buf size hready).trans (imp_iff_right hready).symm
        · exact iff_of_true (in_bounds_of_ok (write_idle size (Or.inl (hoff hready)))) (fun h => absurd h hready)
  | read fuel path buf bufSize =>
    cases path with
    | none => exact iff_of_true (fun fuel => in_bounds_of_ok (read_idle fuel bufSize (Or.inr (Or.inl rfl)))) trivial
    | some path =>
      cases buf with
      | none => exact iff_of_true (fun fuel => in_bounds_of_ok (read_idle fuel bufSize (Or.inr (Or.inr rfl)))) trivial
      | some buf =>
        by_cases hready : s.ready = true
        · exact (read_in_bounds_iff path buf bufSize hready).trans (imp_iff_right hready).symm
        · refine iff_of_true (fun fuel => ?_) (fun h => absurd h hready)
          exact in_bounds_of_ok (read_idle fuel bufSize (Or.inl (hoff hready)))
  | delete path =>
    cases path with
    | none => exact iff_of_true (in_bounds_of_ok (delete_idle (Or.inr rfl))) trivial
    | some path =>
      by_cases hready : s.ready = true
      · exact (delete_in_bounds_iff path hready).trans (imp_iff_right hready).symm
      · exact iff_of_true (in_bounds_of_ok (delete_idle (Or.inl (hoff hready)))) (fun h => absurd h hready)

/-- In a run of mounts and calls, whatever the volumes, no access is outside `fat_data`
exactly when all calls find their entries there. -/
theorem fat_accesses_inside_iff (s : Fat12) (calls : List FatCall) :
    Along StaysInside callStep s calls ↔ Along EntriesInside callStep s calls :=
  Along.congr (I := fun _ => True) (fun _ _ _ _ => trivial) (fun s call _ => stays_inside_iff s call) trivial calls

/-- The data disk the documentation describes: 2880 sectors, with a FAT of nine. -/
def floppyGeometry : Geometry := ⟨512, 1, 1, 2, 224, 2880, 9⟩

/-- A file of 681 clusters, on a disk of 2847 that is empty. -/
theorem big_file_leaves_table : ¬ Along StaysInside callStep (unmounted (formatImage floppyGeometry))
    [.init, .write (some fileA) (some fun _ => 7) 348161] := by
  rintro ⟨-, hwrite, -⟩
  obtain ⟨v, hinit, hgeo, hready, -⟩ := fat12_init_eq ⟨rfl, rfl⟩ (bpb_boot_sector floppyGeometry) (by decide)
    (unmounted_shows (formatImage floppyGeometry))
  have hstep : (callStep (unmounted (formatImage floppyGeometry)) .init).2 = v := by
    unfold callStep fatCall
    rw [hinit]
  rw [hstep] at hwrite
  obtain ⟨-, hroom⟩ := (write_in_bounds_iff fileA (fun _ => 7) 348161 hready).mp hwrite
  rw [hgeo] at hroom
  rcases hroom (by decide) with hlimit | hfree
  · revert hlimit
    decide
  · have hsub : freeWithout v fileA ⊆ Set.Icc 2 lastCluster := fun c hc => ⟨hc.1, hc.2.1⟩
    have hcard : (freeWithout v fileA).ncard ≤ 680 := by
      refine (Set.ncard_le_ncard hsub).trans_eq ?_
      rw [← Finset.coe_Icc, Set.ncard_coe_finset, Nat.card_Icc]
      rfl
    have hneed : clustersNeeded floppyGeometry (348161 : UInt32).toNat = 681 := by decide
    omega

end BaSic.Proofs.FatAccess
