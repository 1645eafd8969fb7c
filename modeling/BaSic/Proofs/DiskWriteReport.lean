import BaSic.Kernel.DiskCmds
import BaSic.Proofs.CalcPrint
import BaSic.Proofs.FatCapacity

namespace BaSic.Proofs.DiskWriteReport
open Kernel Fs Lib FatTable FatChains Directory FileData Volume FileOps FatInvariant FatWrite FatNames ReadBack
open Formatted ChainInvariant ReadBack OtherFiles Shadowing FatCapacity CalcPrint

/-- The write returned as many bytes as it was given, and they are what a read returns. -/
def Stored (s : Fat12) (n : CString) (buf : Bytes) (size : UInt32) : Prop :=
  ∃ t, fat12Write s (some n) (some buf) size = .ok (size.toNat, t) ∧ Contains t n buf size.toNat

/-- The file in slot `j` has these bytes and no others. -/
def HasBytes (s : Fat12) (image : Nat → Sector) (j : Nat) (buf : Bytes) (w : Nat) : Prop :=
  ∃ l, FileAt (fatEntry s.fat.data) (slotAt s.geo image j) l ∧
    min (fileSize (slotAt s.geo image j)) (512 * (chainLbas s.geo l).length) = w ∧
    ∀ i < w, fileByte image (chainLbas s.geo l) i = buf i

/-- The entry made for the name is found under it. -/
def KeepsName (n : CString) : Prop := strToFat83 n 0 ≠ 0xE5 ∧ namesMatch (storedName n) n = true

/-- The name leads to the bytes once an entry is made for it: to the new file, or past its entry
to an old one that has the same bytes. -/
def Leads (s : Fat12) (n : CString) (buf : Bytes) (w : Nat) : Prop :=
  KeepsName n ∨ ∃ k j, freeSlot s.geo s.disk.ata.sectors = some k ∧
    lookup s.geo (dropSlot s.geo s.disk.ata.sectors k) n = some j ∧ HasBytes s s.disk.ata.sectors j buf w

/-- There is a volume, and without the old file of the name it has room for a new one, whose
clusters it counts right, and which the name leads to. -/
def Accepts (s : Fat12) (n : CString) (buf : Bytes) (size : Nat) : Prop :=
  s.ready = true ∧ ∃ s₁, dropOld s n.skipSlash = .ok s₁ ∧ EnoughRoom s₁ size ∧ Divides s₁.geo size ∧
    Leads s₁ n.skipSlash buf size

/-- `diskwrite` prints that it is done if the file was stored, and that it failed if not. -/
def DiskwriteRight (s : Fat12) (fname data : CString) : Prop :=
  ∃ report t, cmdDiskwrite s fname (some data) = .ok (report, t) ∧
    (Stored s fname (bytesOf data.chars) (UInt32.ofNat data.chars.length) → report = bytes "OK") ∧
    (¬ Stored s fname (bytesOf data.chars) (UInt32.ofNat data.chars.length) → report = bytes "diskwrite: failed")

/-- What `history_save` logs when its bytes have been written. -/
def savedText (off : Nat) : List UInt8 :=
  bytes "[shell] history saved (" ++ numeralText off ++ bytes " bytes)\n"

/-- `history_save` logs that the bytes were saved if they were stored, and that it failed if not. -/
def HistoryRight (line : CmdLine) (fat : Fat12) (hbuf : List UInt8) : Prop :=
  ∃ report t, historySaveTo line fat = .ok (some report, t) ∧
    (Stored fat historyFile (bytesOf hbuf) (UInt32.ofNat hbuf.length) → report = savedText hbuf.length) ∧
    (¬ Stored fat historyFile (bytesOf hbuf) (UInt32.ofNat hbuf.length) →
      report = bytes "[shell] history save failed\n")

variable {s s₁ t : Fat12} {g : Geometry} {image : Nat → Sector} {chain : Nat → List Nat} {leaked : Nat → Prop}
  {n q : CString} {buf : Bytes} {j k w : Nat} {l m : List Nat}

theorem FileAt.unique {next : Nat → Nat} {e : Entry} (h : FileAt next e l) (h' : FileAt next e m) : l = m := by
  obtain ⟨last, hp, hlast⟩ := h.path
  obtain ⟨last', hp', hlast'⟩ := h'.path
  exact (hp.unique hp' h.inChain h'.inChain hlast hlast').1

/-- No file of the name stands in front of the slot that a new one gets. -/
theorem freed_none_before (hk : freeSlot g (freedImage g image (lookup g image n)) = some k)
    (hj : j < k) (hlive : Live g (slotAt g (freedImage g image (lookup g image n))) j) :
    namesMatch (entryName (slotAt g (freedImage g image (lookup g image n)) j)) n = false := by
  obtain ⟨-, -, hused⟩ := free_slot_spec hk
  have hkept : ∀ i < k, lookup g image n ≠ some i ∧
      slotAt g (freedImage g image (lookup g image n)) i = slotAt g image i := by
    intro i hi
    have hu := hused i hi
    rw [freed_slot] at hu ⊢
    split at hu
    · exact absurd hu (used_dropped _)
    · rename_i hne
      exact ⟨hne, if_neg hne⟩
  rw [(hkept j hj).2]
  refine Bool.eq_false_iff.mpr (fun hm => ?_)
  have hlive' : Live g (slotAt g image) j := (live_congr (fun _ => (hkept j hj).2)).mp hlive
  have hbefore : ∀ i, i < j → slotAt g image i 0 ≠ 0x00 := by
    intro i hi
    have hu := hused i (by omega)
    rw [(hkept i (by omega)).2] at hu
    exact hu.1
  obtain ⟨i, hij, hl⟩ := lookup_of_match hlive' hm hbefore
  exact (hkept i (by omega)).1 hl

/-- Where the name leads after the write. -/
theorem lookup_after {f : FatCache} {size : Nat} (hfit : FatFits s.geo) (hk : freeSlot s.geo image = some k)
    (hbefore : ∀ i, i < k → Live s.geo (slotAt s.geo image) i →
      namesMatch (entryName (slotAt s.geo image i)) n = false) :
    (KeepsName n → lookup s.geo (writtenImage s image f n buf size k) n = some k) ∧
      (¬ KeepsName n →
        lookup s.geo (writtenImage s image f n buf size k) n = lookup s.geo (dropSlot s.geo image k) n) := by
  obtain ⟨hcount, -, -⟩ := free_slot_spec hk
  have hraw : newEntry n ((takenClusters s size).headD 0) size 0 = strToFat83 n 0 := rfl
  constructor
  · intro hkeeps
    exact lookup_written hfit hk ⟨raw_ne_zero n 0, hkeeps.1⟩ hkeeps.2 hbefore
  · intro hlost
    apply first_hit_congr
    intro i _ hi
    rw [slot_at_written hfit (by omega), slot_at_drop]
    split
    · have hnew : findVerdict n (newEntry n ((takenClusters s size).headD 0) size) = .next := by
        rw [find_verdict_next, stored_name_eq]
        refine ⟨raw_ne_zero n 0, ?_⟩
        rintro ⟨hu, -, hm⟩
        exact hlost ⟨hu.2, hm⟩
      have hgone : findVerdict n (dropped (slotAt s.geo image k)) = .next := by
        refine find_verdict_next.mpr ⟨?_, fun hv => used_dropped _ hv.1⟩
        simp [dropped]
      rw [hnew, hgone]
    · rfl

/-- A file that a name leads to has the bytes that reads of the name return. -/
theorem contains_iff (ht : Mounted t image) (hl : lookup t.geo image q.skipSlash = some j)
    (hf : FileAt (fatEntry t.fat.data) (slotAt t.geo image j) l) (hw : w < 4294967296) :
    Contains t q buf w ↔ HasBytes t image j buf w := by
  have hsize : fileSize (slotAt t.geo image j) < 4294967296 := UInt32.toNat_lt _
  constructor
  · intro hreads
    have hall := hreads (fun _ => 0) 4294967295
    rw [read_result_eq ht hl hf] at hall
    obtain ⟨hcount, hdata⟩ := Prod.mk.inj (Except.ok.inj hall)
    have hmost : (4294967295 : UInt32).toNat = 4294967295 := rfl
    rw [hmost] at hcount hdata
    refine ⟨l, hf, by omega, ?_⟩
    intro i hi
    have hbyte := congrFun (Option.some.inj hdata) i
    simp only [loadData] at hbyte
    rwa [if_pos (by omega), if_pos (by omega), Nat.sub_zero] at hbyte
  · rintro ⟨m, hm, hcount, hbytes⟩ out cap
    obtain rfl := FileAt.unique hm hf
    rw [read_result_eq ht hl hf]
    refine congrArg Except.ok (Prod.ext ?_ (congrArg some (funext fun i => ?_)))
    · dsimp only
      omega
    · simp only [loadData]
      by_cases hi : i < min cap.toNat w
      · rw [if_pos (by omega), if_pos hi, Nat.sub_zero]
        exact hbytes i (by omega)
      · rw [if_neg (by omega), if_neg hi]

theorem SameFile.has_bytes_iff {image' : Nat → Sector} (h : SameFile s image t image' j l) (hg : t.geo = s.geo)
    (hf : FileAt (fatEntry s.fat.data) (slotAt s.geo image j) l) :
    HasBytes t image' j buf w ↔ HasBytes s image j buf w := by
  have hf' : FileAt (fatEntry t.fat.data) (slotAt s.geo image j) l := file_at_congr hf h.table
  have hbyte : ∀ i < 512 * (chainLbas s.geo l).length,
      fileByte image' (chainLbas s.geo l) i = fileByte image (chainLbas s.geo l) i := by
    intro i hi
    have hlt : i / 512 < (chainLbas s.geo l).length := by omega
    unfold fileByte
    rw [List.getD_eq_getElem _ _ hlt, h.data _ (List.getElem_mem hlt)]
  unfold HasBytes
  rw [hg, h.slot]
  constructor
  · rintro ⟨m, hm, hcount, hbytes⟩
    obtain rfl := FileAt.unique hm hf'
    exact ⟨_, hf, hcount, fun i hi => (hbyte i (by omega)).symm.trans (hbytes i hi)⟩
  · rintro ⟨m, hm, hcount, hbytes⟩
    obtain rfl := FileAt.unique hm hf
    exact ⟨_, hf', hcount, fun i hi => (hbyte i (by omega)).trans (hbytes i hi)⟩

/-- A name that leads nowhere does not have any bytes. -/
theorem not_contains_none (ht : Mounted t image) (hnone : lookup t.geo image q.skipSlash = none) (hpos : 1 ≤ w) :
    ¬ Contains t q buf w := by
  intro hreads
  have hone := hreads (fun _ => 0) 1
  obtain ⟨u, hread, -⟩ := fat12_read_none ht hnone chainFuel (fun _ => 0) 1
  unfold readResult at hone
  rw [hread] at hone
  have hzero := (Prod.mk.inj (Except.ok.inj hone)).1
  have hcap : (1 : UInt32).toNat = 1 := rfl
  rw [hcap] at hzero
  omega

/-- A name that is not kept leads to the bytes only past the new entry. -/
theorem leads_past_iff (hlost : ¬ KeepsName n) (hk : freeSlot s.geo s.disk.ata.sectors = some k) :
    Leads s n buf w ↔ ∃ j, lookup s.geo (dropSlot s.geo s.disk.ata.sectors k) n = some j ∧
      HasBytes s s.disk.ata.sectors j buf w := by
  unfold Leads
  rw [or_iff_right hlost]
  constructor
  · rintro ⟨k', j, hk', hj, hbytes⟩
    obtain rfl := Option.some.inj (hk.symm.trans hk')
    exact ⟨j, hj, hbytes⟩
  · rintro ⟨j, hj, hbytes⟩
    exact ⟨k, j, hk, hj, hbytes⟩

/-- What a read finds after a write that stored all bytes. -/
theorem contains_written_iff {f : FatCache} {d : Disk} {size : Nat} (h : WellFormed s s.disk.ata.sectors chain leaked)
    (hk : freeSlot s.geo s.disk.ata.sectors = some k)
    (hroom : clustersNeeded s.geo size ≤ (freeClusters (fatEntry s.fat.data) s.geo).length)
    (hb : Built (fatEntry f.data) (takenClusters s size))
    (htable : ∀ x, x ∉ takenClusters s size → fatEntry f.data x = fatEntry s.fat.data x)
    (hd : Shows d (writtenImage s s.disk.ata.sectors f q.skipSlash buf size k))
    (hbefore : ∀ i, i < k → Live s.geo (slotAt s.geo s.disk.ata.sectors) i →
      namesMatch (entryName (slotAt s.geo s.disk.ata.sectors i)) q.skipSlash = false)
    (hpos : 1 ≤ size) (hsize : size < 4294967296) (hall : storedSize s size = size) :
    Contains { s with fat := { f with dirty := false }, disk := d } q buf size ↔ Leads s q.skipSlash buf size := by
  obtain ⟨hcount, hfree, -⟩ := free_slot_spec hk
  obtain ⟨hnew, hold⟩ := @lookup_after s s.disk.ata.sectors q.skipSlash buf k f size h.fits hk hbefore
  by_cases hkeeps : KeepsName q.skipSlash
  · refine iff_of_true (fun out cap => ?_) (Or.inl hkeeps)
    obtain ⟨u, hread⟩ :=
      read_written h.mounted h.fits hcount hsize hroom hb hd (hnew hkeeps) (Nat.le_refl chainFuel) out cap
    unfold readResult
    rw [hread, hall]
    rfl
  · have hlook := hold hkeeps
    have ht : Mounted { s with fat := { f with dirty := false }, disk := d }
        (writtenImage s s.disk.ata.sectors f q.skipSlash buf size k) := ⟨h.mounted.ready, hd⟩
    rw [leads_past_iff hkeeps hk]
    cases hj : lookup s.geo (dropSlot s.geo s.disk.ata.sectors k) q.skipSlash with
    | none =>
      rw [hj] at hlook
      refine iff_of_false (not_contains_none ht hlook hpos) ?_
      rintro ⟨j, hj', -⟩
      cases hj'
    | some j =>
      rw [hj] at hlook
      have hlive := lookup_live hj
      have hne : j ≠ k := by
        rintro rfl
        have hu := hlive.2.1
        rw [slot_at_drop, if_pos rfl] at hu
        exact used_dropped _ hu
      have hlive' : Live s.geo (slotAt s.geo s.disk.ata.sectors) j :=
        (live_congr (fun _ => by rw [slot_at_drop, if_neg hne])).mp hlive
      have hfile := h.chains.file_at h.fits hlive'
      have hsame := written_same (d := d) (n := q.skipSlash) buf h hk htable hlive'
      have hfile' := file_at_congr hfile hsame.table
      rw [← hsame.slot] at hfile'
      rw [contains_iff ht hlook hfile' hsize, SameFile.has_bytes_iff hsame rfl hfile]
      constructor
      · intro hbytes
        exact ⟨j, rfl, hbytes⟩
      · rintro ⟨j', hj', hbytes⟩
        cases hj'
        exact hbytes

theorem exists_dropped (h : WellFormed s s.disk.ata.sectors chain leaked) (n : CString) :
    ∃ s₁, dropOld s n = .ok s₁ ∧ WellFormed s₁ s₁.disk.ata.sectors chain leaked ∧
      s₁.disk.ata.sectors = freedImage s₁.geo s.disk.ata.sectors (lookup s₁.geo s.disk.ata.sectors n) := by
  obtain ⟨s₁, d, hf, hfind, hnone, hsome⟩ := free_old_file h n
  have hdrop : dropOld s n = .ok s₁ := by
    unfold dropOld
    rw [hfind]
    cases hl : lookup s.geo s.disk.ata.sectors n with
    | none => rw [hnone hl]; rfl
    | some k => exact hsome k hl
  have hsectors := hf.mounted.shows.sectors
  refine ⟨s₁, hdrop, ?_, by rw [hf.geo]; exact hsectors⟩
  rw [hsectors]
  exact hf.well_formed h (fun k hk => lookup_live hk)

/-- A write that finds room stores all bytes exactly when the clusters are counted right and
can hold them. -/
theorem stored_size_iff {size : Nat} (h : FatFits s.geo)
    (hroom : clustersNeeded s.geo size ≤ (freeClusters (fatEntry s.fat.data) s.geo).length)
    (hk : freeSlot s.geo s.disk.ata.sectors = some k) (hsmall : storedSize s size ≤ 512 * 173910) :
    storedSize s size = size ↔ EnoughRoom s size ∧ Divides s.geo size := by
  have hmost := free_bytes_le h (fatEntry s.fat.data)
  have hholds : storedSize s size = size ↔ size ≤ clustersNeeded s.geo size * (s.geo.sectorsPerCluster.toNat * 512) := by
    rw [stored_size_eq hroom]
    unfold payload
    rw [Nat.mul_comm 512, Nat.mul_assoc]
    omega
  constructor
  · intro hall
    have henough := hholds.mp hall
    have hclusters := henough.trans (Nat.mul_le_mul_right (s.geo.sectorsPerCluster.toNat * 512) hroom)
    exact ⟨⟨hclusters, by simp [hk]⟩, (needed_enough_iff h.spc (by omega)).mp henough⟩
  · rintro ⟨henough, hdivides⟩
    have hclusters := henough.clusters
    exact hholds.mpr ((needed_enough_iff h.spc (by omega)).mpr hdivides)

theorem not_stored_of_zero {size : UInt32} (hwrite : fat12Write s (some n) (some buf) size = .ok (0, t))
    (hpos : 1 ≤ size.toNat) : ¬ Stored s n buf size := by
  rintro ⟨t', hw, -⟩
  have hzero := (Prod.mk.inj (Except.ok.inj (hw.symm.trans hwrite))).1
  omega

theorem stored_iff {size : UInt32} (h : s.ready = true → Usable s) (hpos : 1 ≤ size.toNat) :
    Stored s n buf size ↔ Accepts s n buf size.toNat := by
  by_cases hready : s.ready = true
  · obtain ⟨chain, leaked, hs⟩ := h hready
    obtain ⟨s₁, hdrop, h₁, hsectors⟩ := exists_dropped hs n.skipSlash
    have hwrite := fat12_write_dropped hready n buf size
    rw [hdrop, ok_bind] at hwrite
    have haccepts : Accepts s n buf size.toNat ↔
        EnoughRoom s₁ size.toNat ∧ Divides s₁.geo size.toNat ∧ Leads s₁ n.skipSlash buf size.toNat := by
      constructor
      · rintro ⟨-, s₂, hdrop', hall⟩
        obtain rfl := Except.ok.inj (hdrop.symm.trans hdrop')
        exact hall
      · exact fun hall => ⟨hready, s₁, hdrop, hall⟩
    have hmost := free_bytes_le h₁.fits (fatEntry s₁.fat.data)
    rw [haccepts]
    rcases store_file_eq h₁.mounted h₁.fits.regions n.skipSlash buf size.toNat_lt with
      ⟨hlt, f, hrun, -⟩ | ⟨-, hnone, f, d, hrun, -⟩ | ⟨hroom, k, f, d, hk, hrun, hb, htable, hd⟩
    · refine iff_of_false (not_stored_of_zero (hwrite.trans hrun) hpos) ?_
      rintro ⟨henough, -⟩
      have hclusters := henough.clusters
      have hneeded := needed_le hpos (by omega) hclusters
      omega
    · refine iff_of_false (not_stored_of_zero (hwrite.trans hrun) hpos) ?_
      rintro ⟨henough, -⟩
      exact henough.slot hnone
    · rw [as_int_of_le (stored_size_le hb.upper hb.nodup)] at hrun
      have hbefore : ∀ i, i < k → Live s₁.geo (slotAt s₁.geo s₁.disk.ata.sectors) i →
          namesMatch (entryName (slotAt s₁.geo s₁.disk.ata.sectors i)) n.skipSlash = false := by
        intro i hi hlive
        rw [hsectors] at hk hlive ⊢
        exact freed_none_before hk hi hlive
      rw [← and_assoc, ← stored_size_iff h₁.fits hroom hk (stored_size_le hb.upper hb.nodup)]
      constructor
      · rintro ⟨t, hw, hreads⟩
        obtain ⟨hret, rfl⟩ := Prod.mk.inj (Except.ok.inj ((hwrite.trans hrun).symm.trans hw))
        have hall := Int.ofNat.inj hret
        exact ⟨hall, (contains_written_iff h₁ hk hroom hb htable hd hbefore hpos size.toNat_lt hall).mp hreads⟩
      · rintro ⟨hall, hleads⟩
        rw [hall] at hrun
        exact ⟨_, hwrite.trans hrun,
          (contains_written_iff h₁ hk hroom hb htable hd hbefore hpos size.toNat_lt hall).mpr hleads⟩
  · have hnot : s.ready = false := by simpa using hready
    have hwrite : fat12Write s (some n) (some buf) size = .ok (0, s) := by simp [fat12Write, hnot]
    exact iff_of_false (not_stored_of_zero hwrite hpos) (fun hall => hready hall.1)

/-- A result of `fat12_write` is never negative, so that no failure is noticed. -/
theorem write_result (h : s.ready = true → Usable s) (n : CString) (buf : Bytes) (size : UInt32) :
    ∃ (r : Nat) (t : Fat12), fat12Write s (some n) (some buf) size = .ok (r, t) := by
  by_cases hready : s.ready = true
  · obtain ⟨chain, leaked, hs⟩ := h hready
    obtain ⟨s₁, hdrop, h₁, -⟩ := exists_dropped hs n.skipSlash
    have hwrite := fat12_write_dropped hready n buf size
    rw [hdrop, ok_bind] at hwrite
    rcases store_file_eq h₁.mounted h₁.fits.regions n.skipSlash buf size.toNat_lt with
      ⟨-, f, hrun, -⟩ | ⟨-, -, f, d, hrun, -⟩ | ⟨-, k, f, d, -, hrun, hb, -, -⟩
    · exact ⟨0, _, hwrite.trans hrun⟩
    · exact ⟨0, _, hwrite.trans hrun⟩
    · rw [as_int_of_le (stored_size_le hb.upper hb.nodup)] at hrun
      exact ⟨_, _, hwrite.trans hrun⟩
  · have hnot : s.ready = false := by simpa using hready
    exact ⟨0, s, by simp [fat12Write, hnot]⟩

theorem diskwrite_right_iff {fname data : CString} (h : s.ready = true → Usable s) (hname : fname.chars ≠ []) :
    DiskwriteRight s fname data ↔ Stored s fname (bytesOf data.chars) (UInt32.ofNat data.chars.length) := by
  obtain ⟨r, t, hwrite⟩ := write_result h fname (bytesOf data.chars) (UInt32.ofNat data.chars.length)
  have hrun : cmdDiskwrite s fname (some data) = .ok (bytes "OK", t) := by
    simp [cmdDiskwrite, hname, hwrite]
  have hne : bytes "OK" ≠ bytes "diskwrite: failed" := by decide +kernel
  constructor
  · rintro ⟨report, u, hrun', -, hfailed⟩
    by_contra hlost
    obtain ⟨rfl, -⟩ := Prod.mk.inj (Except.ok.inj (hrun.symm.trans hrun'))
    exact hne (hfailed hlost)
  · intro hstored
    exact ⟨_, t, hrun, fun _ => rfl, fun hlost => absurd hstored hlost⟩

theorem save_loop_length {line : CmdLine} {hbuf out : List UInt8} {i : Int} {m : Nat} (hlen : hbuf.length < hbufSize)
    (hrun : saveLoop line hbuf i m = .ok out) : out.length < hbufSize := by
  induction m generalizing hbuf i with
  | zero =>
    obtain rfl := Except.ok.inj hrun
    exact hlen
  | succ m ih =>
    obtain ⟨row, -, hrun⟩ := bind_ok hrun
    obtain ⟨text, -, hrun⟩ := bind_ok hrun
    split at hrun
    · obtain rfl := Except.ok.inj hrun
      exact hlen
    · refine ih ?_ hrun
      simp
      omega

theorem history_save_length {line : CmdLine} {hbuf : List UInt8} (hsave : historySave line = .ok hbuf) :
    hbuf.length < 2496 :=
  save_loop_length (by decide) hsave

theorem history_right_iff {line : CmdLine} {hbuf : List UInt8} (h : s.ready = true → Usable s)
    (hsave : historySave line = .ok hbuf) (hsome : hbuf ≠ []) :
    HistoryRight line s hbuf ↔ Stored s historyFile (bytesOf hbuf) (UInt32.ofNat hbuf.length) := by
  obtain ⟨r, t, hwrite⟩ := write_result h historyFile (bytesOf hbuf) (UInt32.ofNat hbuf.length)
  have hlen := history_save_length hsave
  have hcount : saveReport r hbuf.length = .ok (savedText hbuf.length) := by
    have hdigits := @kbuf_int_nat hbuf.length (by omega)
    have hnot : ¬ (r : Int) < 0 := by omega
    simp only [saveReport, if_neg hnot, hdigits, ok_bind, savedText]
  have hrun : historySaveTo line s = .ok (some (savedText hbuf.length), t) := by
    simp only [historySaveTo, hsave, ok_bind, hsome, if_false, hwrite, hcount]
  have hne : savedText hbuf.length ≠ bytes "[shell] history save failed\n" := by
    intro hsame
    have hfirst := congrArg (List.take 21) hsame
    have hlong : 21 ≤ (bytes "[shell] history saved (").length := by decide +kernel
    rw [savedText, List.append_assoc, List.take_append_of_le_length hlong] at hfirst
    revert hfirst
    decide +kernel
  constructor
  · rintro ⟨report, u, hrun', -, hfailed⟩
    by_contra hlost
    have hreport := congrArg Prod.fst (Except.ok.inj (hrun.symm.trans hrun'))
    obtain rfl := Option.some.inj hreport
    exact hne (hfailed hlost)
  · intro hstored
    exact ⟨_, t, hrun, fun _ => rfl, fun hlost => absurd hstored hlost⟩

/-- Both reports are right exactly when the volume accepts the file. -/
theorem reports_right_iff {fname data : CString} {line : CmdLine} {hbuf : List UInt8} (h : s.ready = true → Usable s)
    (hname : fname.chars ≠ []) (hdata : data.chars ≠ []) (hlen : data.chars.length < 4294967296)
    (hsave : historySave line = .ok hbuf) (hsome : hbuf ≠ []) :
    (DiskwriteRight s fname data ↔ Accepts s fname (bytesOf data.chars) data.chars.length) ∧
      (HistoryRight line s hbuf ↔ Accepts s historyFile (bytesOf hbuf) hbuf.length) := by
  have hsize : (UInt32.ofNat data.chars.length).toNat = data.chars.length := UInt32.toNat_ofNat_of_lt' hlen
  have hsaved : (UInt32.ofNat hbuf.length).toNat = hbuf.length :=
    UInt32.toNat_ofNat_of_lt' (Nat.lt_trans (history_save_length hsave) (by decide))
  have hpos := List.length_pos_iff.mpr hdata
  have hpos' := List.length_pos_iff.mpr hsome
  constructor
  · rw [diskwrite_right_iff h hname, stored_iff h (by omega), hsize]
  · rw [history_right_iff h hsave hsome, stored_iff h (by omega), hsaved]

/-- A history of the one command `a`. -/
def oneEntry : CmdLine := { freshLine with history := fun _ j => if j = 0 then 97 else 0, historyCount := 1 }

/-- One byte and one command on a new volume. -/
theorem reports_right_small :
    (DiskwriteRight (formatted smallGeometry) fileA fileA ↔
        Accepts (formatted smallGeometry) fileA (bytesOf fileA.chars) fileA.chars.length) ∧
      (HistoryRight oneEntry (formatted smallGeometry) [97, 10] ↔
        Accepts (formatted smallGeometry) historyFile (bytesOf [97, 10]) 2) :=
  reports_right_iff (fun _ => (formatted_well_formed small_fits).usable) (by decide) (by decide) (by decide)
    (by decide) (by decide)

/-- Without a volume nothing is stored, and both say that it was. -/
theorem failure_reported_done : let s : Fat12 := { formatted smallGeometry with ready := false }
    ¬ DiskwriteRight s fileA fileA ∧ ¬ HistoryRight oneEntry s [97, 10] := by
  intro s
  have hnone : s.ready = true → Usable s := fun hready => absurd hready (by decide)
  have hlost : ∀ (n : CString) (buf : Bytes), ¬ Stored s n buf 1 ∧ ¬ Stored s n buf 2 := by
    intro n buf
    constructor
    · rw [stored_iff hnone (by decide)]
      exact fun hall => absurd hall.1 (by decide)
    · rw [stored_iff hnone (by decide)]
      exact fun hall => absurd hall.1 (by decide)
  constructor
  · rw [diskwrite_right_iff hnone (by decide)]
    exact (hlost _ _).1
  · rw [history_right_iff hnone (by decide) (by decide)]
    exact (hlost _ _).2

end BaSic.Proofs.DiskWriteReport
