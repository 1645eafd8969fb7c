import BaSic.Proofs.FatAccess

namespace BaSic.Proofs.UntrustedDisk
open Kernel Lib FatTable FatChains Directory Volume FatBounds FatAccess Formatted ChainInvariant

/-- A geometry that the driver can serve. -/
def Servable (g : Geometry) : Prop :=
  g.bytesPerSector = 512 ∧ 1 ≤ g.sectorsPerCluster.toNat ∧ g.dataStartLba ≤ g.totalSectors.toNat

/-- `fat12_init` comes to its end, counts the sectors behind the root directory without an
underflow, and mounts what it can serve. -/
def MountsSafely (s : Fat12) (sector : Sector) : Prop :=
  (∃ r t, fat12Init s = .ok (r, t) ∧ (r = 1 → Servable t.geo)) ∧
    (sub32 (bpb sector).totalSectors.toNat (bpb sector).dataStartLba : Int) =
      (bpb sector).totalSectors.toNat - (bpb sector).dataStartLba

/-- The `n`-th value met on the chain of a file. -/
def link (s : Fat12) (found : Found) (n : Nat) : Nat := (fatEntry s.fat.data)^[n] (firstCluster found.entry)

/-- After finitely many links, each of them with an entry in `fat_data`, the chain is at its end
or the buffer is full. -/
def ChainEnds (s : Fat12) (found : Found) (bufSize : Nat) : Prop :=
  ∃ n, (∀ j < n, InChain (link s found j) ∧ link s found j ≤ lastCluster) ∧
    (¬ InChain (link s found n) ∨ ¬ GoesOn s.geo (fileSize found.entry) bufSize n)

/-- The chain stays in `fat_data` for ever, and the buffer never fills. -/
def ChainLoops (s : Fat12) (found : Found) (bufSize : Nat) : Prop :=
  ∀ n, InChain (link s found n) ∧ link s found n ≤ lastCluster ∧ GoesOn s.geo (fileSize found.entry) bufSize n

/-- A read finds no file, or one whose chain ends. -/
def ReadEnds (s : Fat12) : Option CString → Option Bytes → Nat → Prop
  | some path, some _, bufSize => s.ready = true → ∀ found, (findEntry s path.skipSlash).1 = some found →
      ChainEnds s found bufSize
  | _, _, _ => True

/-- A read finds a file whose chain loops. -/
def ReadLoops (s : Fat12) : Option CString → Option Bytes → Nat → Prop
  | some path, some _, bufSize => s.ready = true ∧ ∃ found, (findEntry s path.skipSlash).1 = some found ∧
      ChainLoops s found bufSize
  | _, _, _ => False

variable {s : Fat12} {f : FatCache} {g : Geometry} {sector : Sector} {a size bufSize written : Nat}

theorem data_start_lt (g : Geometry) : g.dataStartLba < 4294967296 := by
  have hreserved := g.reservedSectors.toNat_lt
  have hroot := g.rootEntryCount.toNat_lt
  have hfats := g.numFats.toNat_lt
  have hsectors := g.sectorsPerFat.toNat_lt
  have hmul : g.numFats.toNat * g.sectorsPerFat.toNat ≤ 255 * 65535 := Nat.mul_le_mul (by omega) (by omega)
  unfold Geometry.dataStartLba Geometry.rootStartLba Geometry.fatStartLba
  omega

theorem sub32_exact_iff (g : Geometry) :
    (sub32 g.totalSectors.toNat g.dataStartLba : Int) = g.totalSectors.toNat - g.dataStartLba ↔
      g.dataStartLba ≤ g.totalSectors.toNat := by
  have htotal := g.totalSectors.toNat_lt
  have hstart := data_start_lt g
  unfold sub32 u32
  omega

/-- What `fat12_init` makes of a sector with the signature: it looks at no field but
`sectors_per_cluster`, and only by dividing by it. -/
theorem init_result {d : Disk} (hread : diskReadSector s.disk 0 = (some sector, d))
    (hsig : sector 510 = 0x55 ∧ sector 511 = 0xAA) :
    if (bpb sector).sectorsPerCluster = 0 then fat12Init s = .error .divideByZero
    else ∃ t, fat12Init s = .ok (1, t) ∧ t.geo = bpb sector := by
  have hsigned : ¬ (sector 510 ≠ 0x55 ∨ sector 511 ≠ 0xAA) :=
    fun hno => hno.elim (fun hno => hno hsig.1) (fun hno => hno hsig.2)
  unfold fat12Init
  rw [hread]
  dsimp only
  rw [if_neg hsigned]
  split
  · rfl
  · refine ⟨_, rfl, ?_⟩
    dsimp only
    split <;> rfl

/-- The mount is safe exactly when the image is one the driver can serve: nothing is checked. -/
theorem mounts_safely_iff {d : Disk} (hread : diskReadSector s.disk 0 = (some sector, d))
    (hsig : sector 510 = 0x55 ∧ sector 511 = 0xAA) : MountsSafely s sector ↔ Servable (bpb sector) := by
  have hresult := init_result hread hsig
  unfold MountsSafely
  rw [sub32_exact_iff]
  by_cases hzero : (bpb sector).sectorsPerCluster = 0
  · rw [if_pos hzero] at hresult
    refine iff_of_false ?_ (fun hserve => ?_)
    · rintro ⟨⟨r, t, hrun, -⟩, -⟩
      cases hresult.symm.trans hrun
    · have hpos := hserve.2.1
      rw [hzero] at hpos
      cases hpos
  · rw [if_neg hzero] at hresult
    obtain ⟨t, hrun, hgeo⟩ := hresult
    constructor
    · rintro ⟨⟨r, u, hrun', hserve⟩, -⟩
      obtain ⟨rfl, rfl⟩ := Prod.mk.inj (Except.ok.inj (hrun.symm.trans hrun'))
      exact hgeo ▸ hserve rfl
    · intro hserve
      exact ⟨⟨1, t, hrun, fun _ => hgeo.symm ▸ hserve⟩, hserve.2.2⟩

theorem mounts_safely_iff_small :
    MountsSafely (unmounted (formatImage smallGeometry)) (bootSector smallGeometry) := by
  have hread : ∃ d, diskReadSector (unmounted (formatImage smallGeometry)).disk 0 =
      (some (bootSector smallGeometry), d) := by
    obtain ⟨hread, -⟩ := (unmounted_shows (formatImage smallGeometry)).coherent.read 0
    exact ⟨_, Prod.ext hread rfl⟩
  obtain ⟨d, hread⟩ := hread
  refine (mounts_safely_iff hread (by decide)).mpr ?_
  rw [bpb_boot_sector]
  exact ⟨rfl, by decide, by decide⟩

/-- A boot sector of zeroes but for the signature. -/
def blankSector : Sector := bootSector zeroGeometry

theorem blank_sector_divides : ¬ ∀ (s : Fat12) (sector : Sector) (d : Disk),
    diskReadSector s.disk 0 = (some sector, d) → sector 510 = 0x55 ∧ sector 511 = 0xAA → MountsSafely s sector := by
  intro hall
  obtain ⟨hread, -⟩ := (unmounted_shows (formatImage zeroGeometry)).coherent.read 0
  have hsector : diskReadSector (unmounted (formatImage zeroGeometry)).disk 0 = (some blankSector, _) :=
    Prod.ext hread rfl
  obtain ⟨⟨r, t, hrun, -⟩, -⟩ := hall _ _ _ hsector (by decide)
  have hresult := init_result hsector (by decide)
  have hzero : (bpb blankSector).sectorsPerCluster = 0 := by decide
  rw [if_pos hzero, hrun] at hresult
  cases hresult

/-- What is done with a result changes nothing about whether there is one. -/
theorem returns_bind {α β : Type} {x : Nat → Except Fault α} {k : α → β} :
    (∃ fuel r, (x fuel >>= fun v => .ok (k v)) = .ok r) ↔ ∃ fuel v, x fuel = .ok v := by
  refine exists_congr (fun fuel => ?_)
  cases x fuel with
  | ok v => exact iff_of_true ⟨k v, rfl⟩ ⟨v, rfl⟩
  | error e => exact iff_of_false (fun ⟨r, hr⟩ => by cases hr) (fun ⟨v, hv⟩ => by cases hv)

theorem hangs_bind {α β : Type} {x : Nat → Except Fault α} {k : α → β} :
    (∀ fuel, (x fuel >>= fun v => .ok (k v)) = .error .timeout) ↔ ∀ fuel, x fuel = .error .timeout := by
  refine forall_congr' (fun fuel => ?_)
  cases x fuel with
  | ok v => exact iff_of_false (fun hv => by cases hv) (fun hv => by cases hv)
  | error e => exact ⟨fun he => congrArg Except.error (Except.error.inj he),
      fun he => congrArg Except.error (Except.error.inj he)⟩

/-- The cluster loop comes to an end inside `fat_data`. -/
theorem read_chain_returns_iff (stack : Sector) (f : FatCache) (g : Geometry) (d : Disk) (buf : Bytes)
    (size bufSize a written : Nat) :
    (∃ fuel r, readChain stack g f size bufSize fuel d buf a written = .ok r) ↔
      ∃ n, (∀ j < n, InChain ((fatEntry f.data)^[j] a) ∧ (fatEntry f.data)^[j] a ≤ lastCluster) ∧
        (¬ InChain ((fatEntry f.data)^[n] a) ∨
          ¬ (afterCluster size bufSize g.sectorsPerCluster.toNat)^[n] written < bufSize) := by
  constructor
  · rintro ⟨fuel, r, hrun⟩
    induction fuel generalizing d buf a written with
    | zero =>
      unfold readChain at hrun
      split at hrun
      · cases hrun
      · rename_i hstop
        exact ⟨0, fun j hj => absurd hj (Nat.not_lt_zero j), not_and_or.mp hstop⟩
    | succ fuel ih =>
      by_cases hgo : InChain a ∧ written < bufSize
      · obtain ⟨d', buf', hround⟩ := read_chain_round stack f g size d buf hgo
        rw [hround fuel] at hrun
        by_cases hle : a ≤ lastCluster
        · rw [fat12_get_eq hle, ok_bind] at hrun
          obtain ⟨n, hbefore, hend⟩ := ih d' buf' _ _ hrun
          refine ⟨n + 1, fun j hj => ?_, hend⟩
          cases j with
          | zero => exact ⟨hgo.1, hle⟩
          | succ j => exact hbefore j (Nat.lt_of_succ_lt_succ hj)
        · obtain ⟨i, hi⟩ := fat12_get_out (f := f) (Nat.lt_of_not_le hle)
          rw [hi] at hrun
          cases hrun
      · exact ⟨0, fun j hj => absurd hj (Nat.not_lt_zero j), not_and_or.mp hgo⟩
  · rintro ⟨n, hbefore, hend⟩
    induction n generalizing d buf a written with
    | zero =>
      refine ⟨0, (written, buf, d), ?_⟩
      unfold readChain
      exact if_neg (not_and_or.mpr hend)
    | succ n ih =>
      by_cases hgo : InChain a ∧ written < bufSize
      · obtain ⟨d', buf', hround⟩ := read_chain_round stack f g size d buf hgo
        have hfirst : InChain a ∧ a ≤ lastCluster := hbefore 0 (Nat.succ_pos n)
        obtain ⟨fuel, r, hrun⟩ := ih d' buf' (fatEntry f.data a) _
          (fun j hj => hbefore (j + 1) (Nat.succ_lt_succ hj)) hend
        refine ⟨fuel + 1, r, ?_⟩
        rw [hround fuel, fat12_get_eq hfirst.2, ok_bind]
        exact hrun
      · refine ⟨0, (written, buf, d), ?_⟩
        unfold readChain
        exact if_neg hgo

/-- A loop that goes on for ever goes on for ever after its first round. -/
theorem read_chain_hang_first (stack : Sector) (d : Disk) (buf : Bytes)
    (hhang : ∀ fuel, readChain stack g f size bufSize fuel d buf a written = .error .timeout) :
    (InChain a ∧ a ≤ lastCluster ∧ written < bufSize) ∧ ∃ d' buf', ∀ fuel,
      readChain stack g f size bufSize fuel d' buf' (fatEntry f.data a)
        (afterCluster size bufSize g.sectorsPerCluster.toNat written) = .error .timeout := by
  have hgo : InChain a ∧ written < bufSize := by
    by_contra hstop
    have hrun := hhang 0
    unfold readChain at hrun
    rw [if_neg hstop] at hrun
    cases hrun
  obtain ⟨d', buf', hround⟩ := read_chain_round stack f g size d buf hgo
  have hle : a ≤ lastCluster := by
    by_contra hout
    obtain ⟨i, hi⟩ := fat12_get_out (f := f) (Nat.lt_of_not_le hout)
    have hrun := hhang 1
    rw [hround 0, hi] at hrun
    cases hrun
  refine ⟨⟨hgo.1, hle, hgo.2⟩, d', buf', fun fuel => ?_⟩
  have hrun := hhang (fuel + 1)
  rwa [hround fuel, fat12_get_eq hle, ok_bind] at hrun

/-- The cluster loop goes on for ever. -/
theorem read_chain_hangs_iff (stack : Sector) (f : FatCache) (g : Geometry) (d : Disk) (buf : Bytes)
    (size bufSize a written : Nat) :
    (∀ fuel, readChain stack g f size bufSize fuel d buf a written = .error .timeout) ↔
      ∀ n, InChain ((fatEntry f.data)^[n] a) ∧ (fatEntry f.data)^[n] a ≤ lastCluster ∧
        (afterCluster size bufSize g.sectorsPerCluster.toNat)^[n] written < bufSize := by
  constructor
  · intro hhang n
    induction n generalizing d buf a written with
    | zero => exact (read_chain_hang_first stack d buf hhang).1
    | succ n ih =>
      obtain ⟨-, d', buf', hrest⟩ := read_chain_hang_first stack d buf hhang
      exact ih d' buf' _ _ hrest
  · intro hgo fuel
    induction fuel generalizing d buf a written with
    | zero =>
      unfold readChain
      exact if_pos ⟨(hgo 0).1, (hgo 0).2.2⟩
    | succ fuel ih =>
      obtain ⟨hin, hle, hlt⟩ : InChain a ∧ a ≤ lastCluster ∧ written < bufSize := hgo 0
      obtain ⟨d', buf', hround⟩ := read_chain_round stack f g size d buf ⟨hin, hlt⟩
      rw [hround fuel, fat12_get_eq hle, ok_bind]
      exact ih d' buf' _ _ (fun n => hgo (n + 1))

/-- The cluster loop of a read of the file found. -/
theorem chain_ends_iff (d : Disk) (found : Found) (out : Bytes) (bufSize : UInt32) :
    (∃ fuel r, readChain s.stack s.geo s.fat (fileSize found.entry) bufSize.toNat fuel d out
        (firstCluster found.entry) 0 = .ok r) ↔ ChainEnds s found bufSize.toNat := by
  have hsize : fileSize found.entry < 4294967296 := UInt32.toNat_lt _
  have hgoes := goes_on_iff (g := s.geo) hsize (UInt32.toNat_lt bufSize)
  rw [read_chain_returns_iff]
  unfold ChainEnds
  constructor
  · rintro ⟨n, hbefore, hend⟩
    exact ⟨n, hbefore, hend.imp_right (fun hfull hgo => hfull ((hgoes n).mpr hgo n (Nat.le_refl n)))⟩
  · rintro ⟨n, hbefore, hend | hfull⟩
    · exact ⟨n, hbefore, Or.inl hend⟩
    · rw [← hgoes] at hfull
      push Not at hfull
      obtain ⟨j, hj, hfull⟩ := hfull
      exact ⟨j, fun i hi => hbefore i (Nat.lt_of_lt_of_le hi hj), Or.inr (Nat.not_lt.mpr hfull)⟩

theorem chain_loops_iff (d : Disk) (found : Found) (out : Bytes) (bufSize : UInt32) :
    (∀ fuel, readChain s.stack s.geo s.fat (fileSize found.entry) bufSize.toNat fuel d out
        (firstCluster found.entry) 0 = .error .timeout) ↔ ChainLoops s found bufSize.toNat := by
  have hsize : fileSize found.entry < 4294967296 := UInt32.toNat_lt _
  have hgoes := goes_on_iff (g := s.geo) hsize (UInt32.toNat_lt bufSize)
  rw [read_chain_hangs_iff]
  unfold ChainLoops
  constructor
  · intro hgo n
    exact ⟨(hgo n).1, (hgo n).2.1, (hgoes n).mp (fun j _ => (hgo j).2.2)⟩
  · intro hgo n
    exact ⟨(hgo n).1, (hgo n).2.1, (hgoes n).mpr (hgo n).2.2 n (Nat.le_refl n)⟩

/-- What a read does with the file it finds. -/
theorem read_found {path : CString} {found : Found} (hready : s.ready = true)
    (hfind : (findEntry s path.skipSlash).1 = some found) (out : Bytes) (bufSize : UInt32) :
    ∃ d, ∀ fuel, fat12Read fuel s (some path) (some out) bufSize =
      readChain s.stack s.geo s.fat (fileSize found.entry) bufSize.toNat fuel d out (firstCluster found.entry) 0 >>=
        fun r => .ok (asInt r.1, some r.2.1, { s with disk := r.2.2 }) := by
  refine ⟨(findEntry s path.skipSlash).2.disk, fun fuel => ?_⟩
  have hstate : (findEntry s path.skipSlash).2 = { s with disk := (findEntry s path.skipSlash).2.disk } := rfl
  unfold fat12Read
  rw [hready]
  dsimp only
  cases hpair : findEntry s path.skipSlash with
  | mk result t =>
    rw [hpair] at hfind hstate
    cases hfind
    have ht : t = { s with disk := t.disk } := hstate
    rw [ht]
    simp only [hready]
    rfl

theorem read_not_found {path : CString} (hfind : (findEntry s path.skipSlash).1 = none) (out : Bytes)
    (bufSize : UInt32) : ∃ r, ∀ fuel, fat12Read fuel s (some path) (some out) bufSize = .ok r := by
  cases hready : s.ready with
  | false => exact ⟨_, fun fuel => read_idle fuel bufSize (Or.inl hready)⟩
  | true =>
    refine ⟨(0, some out, (findEntry s path.skipSlash).2), fun fuel => ?_⟩
    unfold fat12Read
    rw [hready]
    dsimp only
    cases hpair : findEntry s path.skipSlash with
    | mk result t =>
      rw [hpair] at hfind
      cases hfind
      rfl

/-- A read comes back exactly when it finds no file or one whose chain ends, and it goes on for
ever exactly when it finds a file whose chain loops. -/
theorem read_ends_iff (s : Fat12) (path : Option CString) (buf : Option Bytes) (bufSize : UInt32) :
    ((∃ fuel r, fat12Read fuel s path buf bufSize = .ok r) ↔ ReadEnds s path buf bufSize.toNat) ∧
      ((∀ fuel, fat12Read fuel s path buf bufSize = .error .timeout) ↔ ReadLoops s path buf bufSize.toNat) := by
  have hreturned : ∀ r, (∀ fuel, fat12Read fuel s path buf bufSize = .ok r) →
      ReadEnds s path buf bufSize.toNat → ¬ ReadLoops s path buf bufSize.toNat →
      ((∃ fuel r, fat12Read fuel s path buf bufSize = .ok r) ↔ ReadEnds s path buf bufSize.toNat) ∧
        ((∀ fuel, fat12Read fuel s path buf bufSize = .error .timeout) ↔ ReadLoops s path buf bufSize.toNat) := by
    intro r hrun hends hno
    refine ⟨iff_of_true ⟨0, r, hrun 0⟩ hends, iff_of_false (fun hhang => ?_) hno⟩
    cases (hhang 0).symm.trans (hrun 0)
  match path, buf with
  | none, buf => exact hreturned _ (fun fuel => read_idle fuel bufSize (Or.inr (Or.inl rfl))) trivial (fun hno => hno)
  | some path, none =>
    exact hreturned _ (fun fuel => read_idle fuel bufSize (Or.inr (Or.inr rfl))) trivial (fun hno => hno)
  | some path, some out =>
    cases hready : s.ready with
    | false =>
      refine hreturned _ (fun fuel => read_idle fuel bufSize (Or.inl hready)) (fun hon => ?_) (fun hno => ?_)
      · cases hready.symm.trans hon
      · cases hready.symm.trans hno.1
    | true =>
      cases hfind : (findEntry s path.skipSlash).1 with
      | none =>
        obtain ⟨r, hrun⟩ := read_not_found hfind out bufSize
        refine hreturned r hrun (fun _ found hsome => ?_) (fun hno => ?_)
        · cases hfind.symm.trans hsome
        · obtain ⟨-, found, hsome, -⟩ := hno
          cases hfind.symm.trans hsome
      | some found =>
        obtain ⟨d, hrun⟩ := read_found hready hfind out bufSize
        have hends : ReadEnds s (some path) (some out) bufSize.toNat ↔ ChainEnds s found bufSize.toNat := by
          constructor
          · exact fun hall => hall hready found hfind
          · intro hchain _ found' hsome
            cases hfind.symm.trans hsome
            exact hchain
        have hloops : ReadLoops s (some path) (some out) bufSize.toNat ↔ ChainLoops s found bufSize.toNat := by
          constructor
          · rintro ⟨-, found', hsome, hchain⟩
            cases hfind.symm.trans hsome
            exact hchain
          · exact fun hchain => ⟨hready, found, hfind, hchain⟩
        rw [hends, hloops, ← chain_ends_iff d found out bufSize, ← chain_loops_iff d found out bufSize]
        simp only [hrun]
        exact ⟨returns_bind, hangs_bind⟩

/-- A volume with one file, whose only cluster is linked to itself; its size is one byte. -/
def loopImage : Nat → Sector := fun lba i =>
  if lba = 1 then (if i = 3 then 2 else 0)
  else if lba = 2 then
    if i = 0 then 0x41
    else if i.val < 11 then chSpace
    else if i = 26 then 2
    else if i = 28 then 1
    else 0
  else formatImage smallGeometry lba i

theorem self_link_hangs : ¬ ∀ (image : Nat → Sector) (s : Fat12), fat12Init (unmounted image) = .ok (1, s) →
    ∀ (path : Option CString) (buf : Option Bytes) (bufSize : UInt32),
      ∃ fuel r, fat12Read fuel s path buf bufSize = .ok r := by
  intro hall
  have hmount : (fat12Init (unmounted loopImage)).map (fun r => (r.1, r.2.ready, fatEntry r.2.fat.data 2,
      (findEntry r.2 fileA.skipSlash).1.map (fun found => (firstCluster found.entry, fileSize found.entry)))) =
      .ok (1, true, 2, some (2, 1)) := by
    decide
  obtain ⟨⟨_, s⟩, hinit, hfacts⟩ := ok_of_map hmount
  obtain ⟨rfl, hready, hentry, hfound⟩ : _ ∧ _ ∧ _ ∧ _ := by simpa only [Prod.mk.injEq] using hfacts
  obtain ⟨found, hfind, hfile⟩ := Option.map_eq_some_iff.mp hfound
  obtain ⟨hfirst, hsize⟩ := Prod.mk.inj hfile
  have hlink : ∀ n, link s found n = 2 := by
    intro n
    unfold link
    rw [hfirst]
    exact Function.iterate_fixed hentry n
  have hchain : ChainLoops s found (2 : UInt32).toNat := by
    intro n
    rw [hlink n, hsize]
    exact ⟨by decide, by decide, Or.inr (Or.inl (by decide))⟩
  obtain ⟨d, hrun⟩ := read_found hready hfind (fun _ => 0) 2
  obtain ⟨fuel, r, hok⟩ := hall loopImage s hinit (some fileA) (some fun _ => 0) 2
  have hhang := (chain_loops_iff d found (fun _ => 0) 2).mpr hchain fuel
  rw [hrun fuel, hhang] at hok
  cases hok

end BaSic.Proofs.UntrustedDisk
