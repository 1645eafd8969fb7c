import BaSic.Proofs.Directory
import BaSic.Proofs.FatChains

namespace BaSic.Proofs.FileData
open Kernel Lib FatTable FatChains Directory

/-- The sectors of a list of clusters, in file order. -/
def chainLbas (g : Geometry) (clusters : List Nat) : List Nat :=
  clusters.flatMap (fun c => List.range' (g.clusterLba c) g.sectorsPerCluster.toNat)

theorem chain_lbas_cons (g : Geometry) (c : Nat) (l : List Nat) : chainLbas g (c :: l) =
    List.range' (g.clusterLba c) g.sectorsPerCluster.toNat ++ chainLbas g l := rfl

theorem chain_lbas_length (g : Geometry) (clusters : List Nat) :
    (chainLbas g clusters).length = clusters.length * g.sectorsPerCluster.toNat := by
  induction clusters with
  | nil => simp [chainLbas]
  | cons c clusters ih =>
    rw [chainLbas, List.flatMap_cons, List.length_append, List.length_range', List.length_cons,
      Nat.add_mul, Nat.one_mul, Nat.add_comm]
    exact congrArg (· + _) ih

/-- Byte `i` of a file kept in the sectors `lbas`. -/
def fileByte (image : Nat → Sector) (lbas : List Nat) (i : Nat) : UInt8 :=
  image (lbas.getD (i / 512) 0) (Fin.ofNat 512 i)

/-- The writing loops over a list of sectors, with `written` bytes already out. -/
def storeData (buf : Bytes) (size : Nat) : List Nat → (written : Nat) → (Nat → Sector) → Nat → Sector
  | [], _, image => image
  | lba :: lbas, written, image =>
    if written < size then
      storeData buf size lbas (min size (written + 512))
        (Function.update image lba (dataSector buf written (min 512 (size - written))))
    else image

/-- What the caller's buffer holds once bytes `written` to `limit` of the file,
as far as its sectors go, have been copied into it. -/
def loadData (image : Nat → Sector) (lbas : List Nat) (written limit : Nat) (out : Bytes) : Bytes :=
  fun i => if written ≤ i ∧ i < min limit (written + 512 * lbas.length)
    then fileByte image lbas (i - written) else out i

variable {d : Disk} {image : Nat → Sector} {g : Geometry} {f : FatCache} {buf : Bytes}
  {l m : List Nat} {a e size : Nat}

theorem store_data_done {written : Nat} (h : size ≤ written) :
    storeData buf size l written image = image := by
  cases l with
  | nil => rfl
  | cons lba l => rw [storeData, if_neg (by omega)]

theorem store_data_append {written : Nat} (h : written ≤ size) :
    storeData buf size (l ++ m) written image =
      storeData buf size m (min size (written + 512 * l.length)) (storeData buf size l written image) := by
  induction l generalizing written image with
  | nil =>
    rw [List.nil_append, List.length_nil, Nat.mul_zero, Nat.add_zero, Nat.min_eq_right h]
    rfl
  | cons lba l ih =>
    rw [List.cons_append, List.length_cons]
    by_cases hw : written < size
    · rw [storeData, if_pos hw, ih (Nat.min_le_left _ _), storeData, if_pos hw]
      congr 1
      omega
    · rw [store_data_done (by omega), store_data_done (by omega), store_data_done (by omega)]

theorem store_data_other {written lba : Nat} (h : lba ∉ l) :
    storeData buf size l written image lba = image lba := by
  induction l generalizing written image with
  | nil => rfl
  | cons x l ih =>
    rw [List.mem_cons, not_or] at h
    rw [storeData]
    split
    · rw [ih h.2, Function.update_of_ne h.1]
    · rfl

/-- Each sector the loop gets to holds its part of the buffer. -/
theorem store_data_get {written k : Nat} (hnd : l.Nodup) (hk : k < l.length)
    (hw : written + 512 * k < size) :
    storeData buf size l written image (l.getD k 0) =
      dataSector buf (written + 512 * k) (min 512 (size - (written + 512 * k))) := by
  induction l generalizing written image k with
  | nil => simp at hk
  | cons lba l ih =>
    obtain ⟨hout, hnd⟩ := List.nodup_cons.mp hnd
    rw [storeData, if_pos (by omega)]
    cases k with
    | zero =>
      rw [List.getD_cons_zero, store_data_other hout, Function.update_self, Nat.mul_zero, Nat.add_zero]
    | succ k =>
      rw [List.length_cons] at hk
      rw [List.getD_cons_succ, Nat.min_eq_right (by omega), ih hnd (by omega) (by omega)]
      rw [show written + 512 + 512 * k = written + 512 * (k + 1) by omega]

/-- Reading a file back byte by byte after it was stored. -/
theorem file_byte_store {i : Nat} (hnd : l.Nodup) (hi : i < size) (hl : i < 512 * l.length) :
    fileByte (storeData buf size l 0 image) l i = buf i := by
  unfold fileByte
  rw [store_data_get hnd (by omega) (by omega), Nat.zero_add]
  unfold dataSector
  simp only [Fin.val_ofNat]
  rw [if_pos (by omega)]
  congr 1
  omega

theorem write_cluster_eq (buf : Bytes) (h : Shows d image) (hsize : size < 4294967296) (count lba written : Nat)
    (hw : written ≤ size) (hroom : written + 512 * count < 4294967296) :
    ∃ d', writeCluster buf size count d lba written = (min size (written + 512 * count), d') ∧
      Shows d' (storeData buf size (List.range' lba count) written image) := by
  induction count generalizing d image lba written with
  | zero =>
    refine ⟨d, ?_, h⟩
    rw [writeCluster, Nat.mul_zero, Nat.add_zero, Nat.min_eq_right hw]
  | succ count ih =>
    rw [writeCluster, List.range'_succ]
    rw [Nat.mul_succ, ← Nat.add_assoc] at hroom ⊢
    by_cases hlt : written < size
    · rw [if_pos hlt, storeData, if_pos hlt]
      have hcount : (if size < u32 (written + 512) then sub32 size written else 512) =
          min 512 (size - written) := by
        rw [u32_of_lt (by omega), sub32_of_le hw hsize]
        split <;> omega
      simp only [hcount]
      rw [u32_of_lt (by omega), show written + min 512 (size - written) = min size (written + 512) by omega]
      obtain ⟨d', hrun, hd'⟩ := ih (h.write lba (dataSector buf written (min 512 (size - written))))
        (lba + 1) (min size (written + 512)) (Nat.min_le_left _ _) (by omega)
      refine ⟨d', ?_, hd'⟩
      have hend : min size (min size (written + 512) + 512 * count) =
          min size (written + 512 * count + 512) := by omega
      rw [hrun, hend]
    · have hend : min size (written + 512 * count + 512) = written := by omega
      rw [if_neg hlt, store_data_done (by omega), hend]
      exact ⟨d, rfl, h⟩

/-- The cluster loop of `fat12_write` over a chain writes the sectors of its
clusters in order. -/
theorem write_chain_eq (buf : Bytes) (h : Shows d image) (hsize : size < 4294967296)
    (hp : Path (fatEntry f.data) a l e) (hl : ∀ x ∈ l, InChain x) (hle : ∀ x ∈ l, x ≤ lastCluster)
    (he : ¬ InChain e) (fuel written : Nat) (hfuel : l.length ≤ fuel) (hw : written ≤ size)
    (hroom : written + 512 * (chainLbas g l).length < 4294967296) :
    ∃ d', writeChain g f buf size fuel d a written =
        .ok (min size (written + 512 * (chainLbas g l).length), d') ∧
      Shows d' (storeData buf size (chainLbas g l) written image) := by
  induction l generalizing d image a fuel written with
  | nil =>
    cases hp
    refine ⟨d, ?_, h⟩
    unfold writeChain
    rw [if_neg (fun hc => he hc.1)]
    simp only [chainLbas, List.flatMap_nil, List.length_nil, Nat.mul_zero, Nat.add_zero,
      Nat.min_eq_right hw]
  | cons c l ih =>
    obtain ⟨rfl, ht⟩ := hp
    have hin := hl a List.mem_cons_self
    rw [chain_lbas_cons, List.length_append, List.length_range'] at hroom ⊢
    unfold writeChain
    by_cases hlt : written < size
    · rw [if_pos ⟨hin, hlt⟩]
      cases fuel with
      | zero => simp at hfuel
      | succ fuel =>
        rw [List.length_cons] at hfuel
        obtain ⟨d', hrun, hd'⟩ := write_cluster_eq buf h hsize g.sectorsPerCluster.toNat
          (g.clusterLba a) written hw (by omega)
        obtain ⟨d'', hrun', hd''⟩ := ih hd' ht (fun x hx => hl x (List.mem_cons_of_mem _ hx))
          (fun x hx => hle x (List.mem_cons_of_mem _ hx)) fuel
          (min size (written + 512 * g.sectorsPerCluster.toNat)) (by omega) (Nat.min_le_left _ _)
          (by omega)
        refine ⟨d'', ?_, ?_⟩
        · have hend : min size (min size (written + 512 * g.sectorsPerCluster.toNat) +
              512 * (chainLbas g l).length) =
              min size (written + 512 * (g.sectorsPerCluster.toNat + (chainLbas g l).length)) := by
            omega
          simp only [hrun]
          rw [fat12_get_eq (hle a List.mem_cons_self), ok_bind, hrun', hend]
        · rw [store_data_append hw, List.length_range']
          exact hd''
    · have hend : min size (written + 512 * (g.sectorsPerCluster.toNat + (chainLbas g l).length)) =
          written := by omega
      rw [if_neg (fun hc => hlt hc.2), store_data_done (by omega), hend]
      exact ⟨d, rfl, h⟩

variable {limit bufSize : Nat} {out : Bytes}

theorem load_data_done {written : Nat} (h : limit ≤ written) :
    loadData image l written limit out = out := by
  funext i
  exact if_neg (by omega)

theorem load_data_nil (written : Nat) : loadData image [] written limit out = out := by
  funext i
  refine if_neg ?_
  rw [List.length_nil, Nat.mul_zero, Nat.add_zero]
  omega

theorem load_data_cons {written : Nat} (h : written ≤ limit) (lba : Nat) :
    loadData image (lba :: l) written limit out =
      loadData image l (min limit (written + 512)) limit
        (copyInto out written (image lba) (min 512 (limit - written))) := by
  funext i
  unfold loadData copyInto
  rw [List.length_cons, Nat.mul_succ]
  by_cases hbefore : i < written
  · rw [if_neg (by omega), if_neg (by omega), if_neg (by omega)]
  · by_cases hfirst : i < written + 512
    · by_cases hlim : i < limit
      · rw [if_pos (by omega), if_neg (by omega), if_pos (by omega)]
        unfold fileByte
        rw [show (i - written) / 512 = 0 by omega, List.getD_cons_zero]
      · rw [if_neg (by omega), if_neg (by omega), if_neg (by omega)]
    · by_cases hlim : i < min limit (written + (512 * l.length + 512))
      · rw [if_pos (by omega), if_pos (by omega), Nat.min_eq_right (by omega)]
        have hbyte : Fin.ofNat 512 (i - written) = Fin.ofNat 512 (i - (written + 512)) := by
          apply Fin.ext
          simp only [Fin.val_ofNat]
          omega
        unfold fileByte
        rw [show (i - written) / 512 = (i - (written + 512)) / 512 + 1 by omega, List.getD_cons_succ,
          hbyte]
      · rw [if_neg (by omega), if_neg (by omega), if_neg (by omega)]

theorem load_data_append {written : Nat} (h : written ≤ limit) :
    loadData image (l ++ m) written limit out =
      loadData image m (min limit (written + 512 * l.length)) limit
        (loadData image l written limit out) := by
  induction l generalizing written out with
  | nil =>
    rw [List.nil_append, load_data_nil, List.length_nil, Nat.mul_zero, Nat.add_zero,
      Nat.min_eq_right h]
  | cons lba l ih =>
    have hend : min limit (min limit (written + 512) + 512 * l.length) =
        min limit (written + (512 * l.length + 512)) := by omega
    rw [List.cons_append, load_data_cons h, ih (Nat.min_le_left _ _), hend, load_data_cons h,
      List.length_cons, Nat.mul_succ]

theorem read_cluster_eq (h : Shows d image) (hlimit : limit = min bufSize size)
    (hsize : size < 4294967296) (hbuf : bufSize < 4294967296) (stack : Sector)
    (count lba written : Nat) (out : Bytes) (hw : written ≤ limit)
    (hroom : written + 512 * count < 4294967296) :
    ∃ d', readCluster stack size bufSize count d out lba written =
        (min limit (written + 512 * count), loadData image (List.range' lba count) written limit out, d') ∧
      Shows d' image := by
  induction count generalizing d lba written out with
  | zero =>
    refine ⟨d, ?_, h⟩
    rw [readCluster, Nat.mul_zero, Nat.add_zero, Nat.min_eq_right hw, List.range'_zero, load_data_nil]
  | succ count ih =>
    rw [Nat.mul_succ, ← Nat.add_assoc] at hroom ⊢
    rw [readCluster]
    by_cases hlt : written < bufSize
    · rw [if_pos hlt]
      obtain ⟨d₁, hread, hd₁⟩ := h.read lba stack
      simp only [hread]
      have hcount : (if size < u32 (written + if bufSize < u32 (written + 512) then sub32 bufSize written else 512)
          then sub32 size written
          else if bufSize < u32 (written + 512) then sub32 bufSize written else 512) =
          min 512 (limit - written) := by
        rw [u32_of_lt (n := written + 512) (by omega), sub32_of_le (by omega) hbuf,
          sub32_of_le (by omega) hsize, u32_of_lt (by split <;> omega)]
        split <;> split <;> omega
      rw [hcount]
      have hnext : written + min 512 (limit - written) = min limit (written + 512) := by omega
      rw [u32_of_lt (by omega), hnext]
      obtain ⟨d', hrun, hd'⟩ := ih hd₁ (lba + 1) (min limit (written + 512))
        (copyInto out written (image lba) (min 512 (limit - written))) (Nat.min_le_left _ _) (by omega)
      refine ⟨d', ?_, hd'⟩
      have hend : min limit (min limit (written + 512) + 512 * count) =
          min limit (written + 512 * count + 512) := by omega
      rw [hrun, hend, List.range'_succ, load_data_cons hw]
    · have hend : min limit (written + 512 * count + 512) = written := by omega
      rw [if_neg hlt, hend, load_data_done (by omega)]
      exact ⟨d, rfl, h⟩

/-- The cluster loop of `fat12_read` over a chain that ends. -/
theorem read_chain_eq (h : Shows d image) (hlimit : limit = min bufSize size)
    (hsize : size < 4294967296) (hbuf : bufSize < 4294967296) (stack : Sector)
    (hp : Path (fatEntry f.data) a l e) (hl : ∀ x ∈ l, InChain x) (hle : ∀ x ∈ l, x ≤ lastCluster)
    (he : ¬ InChain e) (fuel written : Nat) (out : Bytes) (hfuel : l.length ≤ fuel)
    (hw : written ≤ limit) (hroom : written + 512 * (chainLbas g l).length < 4294967296) :
    ∃ d', readChain stack g f size bufSize fuel d out a written =
        .ok (min limit (written + 512 * (chainLbas g l).length),
          loadData image (chainLbas g l) written limit out, d') ∧
      Shows d' image := by
  induction l generalizing d a fuel written out with
  | nil =>
    cases hp
    refine ⟨d, ?_, h⟩
    unfold readChain
    rw [if_neg (fun hc => he hc.1)]
    simp only [chainLbas, List.flatMap_nil, load_data_nil, List.length_nil, Nat.mul_zero, Nat.add_zero,
      Nat.min_eq_right hw]
  | cons c l ih =>
    obtain ⟨rfl, ht⟩ := hp
    have hin := hl a List.mem_cons_self
    rw [chain_lbas_cons, List.length_append, List.length_range'] at hroom ⊢
    unfold readChain
    by_cases hlt : written < bufSize
    · rw [if_pos ⟨hin, hlt⟩]
      cases fuel with
      | zero => simp at hfuel
      | succ fuel =>
        rw [List.length_cons] at hfuel
        obtain ⟨d', hrun, hd'⟩ := read_cluster_eq h hlimit hsize hbuf stack
          g.sectorsPerCluster.toNat (g.clusterLba a) written out hw (by omega)
        obtain ⟨d'', hrun', hd''⟩ := ih hd' ht (fun x hx => hl x (List.mem_cons_of_mem _ hx))
          (fun x hx => hle x (List.mem_cons_of_mem _ hx)) fuel
          (min limit (written + 512 * g.sectorsPerCluster.toNat))
          (loadData image (List.range' (g.clusterLba a) g.sectorsPerCluster.toNat) written limit out)
          (by omega) (Nat.min_le_left _ _) (by omega)
        refine ⟨d'', ?_, hd''⟩
        have hend : min limit (min limit (written + 512 * g.sectorsPerCluster.toNat) +
            512 * (chainLbas g l).length) =
            min limit (written + 512 * (g.sectorsPerCluster.toNat + (chainLbas g l).length)) := by
          omega
        simp only [hrun]
        rw [fat12_get_eq (hle a List.mem_cons_self), ok_bind, hrun', hend, load_data_append hw,
          List.length_range']
    · have hend : min limit (written + 512 * (g.sectorsPerCluster.toNat + (chainLbas g l).length)) =
          written := by omega
      rw [if_neg (fun hc => hlt hc.2), hend, load_data_done (by omega)]
      exact ⟨d, rfl, h⟩

end BaSic.Proofs.FileData
