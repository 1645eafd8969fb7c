import BaSic.Fs.Ramfs
import BaSic.Kernel.Syscall
import BaSic.Proofs.FdTable

namespace BaSic.Proofs.RamfsBounds
open Fs Kernel Lib FdTable

variable {H : Type}

/-- The buffer of a file, empty where it has none; its capacity is the length. -/
def contents (fs : Ramfs H) (i : Nat) : List UInt8 := (fs.node i).buf.getD []

/-- The capacity fits in 32 bits, and the file in its buffer. -/
structure WellSized (fs : Ramfs H) (i : Nat) : Prop where
  capacity : (contents fs i).length < 4294967296
  length : (fs.node i).length.toNat ≤ (contents fs i).length

/-- How many bytes a read should deliver. -/
def readCount (fs : Ramfs H) (i : Nat) (offset size : UInt32) : Nat :=
  if offset < (fs.node i).length then min size.toNat ((fs.node i).length.toNat - offset.toNat) else 0

/-- The bytes of the file from `offset` on are read, up to its end and not beyond. -/
def ReadsClamped (fs : Ramfs H) (i : Nat) (offset size : UInt32) : Prop :=
  ramfsRead fs i offset size = .ok (((contents fs i).drop offset.toNat).take (readCount fs i offset size)) ∧
    (((contents fs i).drop offset.toNat).take (readCount fs i offset size)).length = readCount fs i offset size

/-- The sum of offset and size does not wrap, or is not looked at. -/
def NoWrap (fs : Ramfs H) (i : Nat) (offset size : UInt32) : Prop :=
  (fs.node i).length ≤ offset ∨ offset.toNat + size.toNat < 4294967296

/-- How many bytes a write should take. -/
def writeCount (fs : Ramfs H) (i : Nat) (offset : UInt32) (src : List UInt8) : Nat :=
  min src.length ((contents fs i).length - min offset.toNat (contents fs i).length)

/-- The bytes are written from `offset` on, up to the end of the buffer, and the length covers
what has been written. -/
def WritesClamped (fs : Ramfs H) (i : Nat) (offset : UInt32) (src : List UInt8) : Prop :=
  let n := writeCount fs i offset src
  ∃ (buf : List UInt8) (length : UInt32),
    ramfsWrite fs i offset src = .ok (UInt32.ofNat n,
      fs.setNode i { fs.node i with buf := (fs.node i).buf.map (fun _ => buf), length := length }) ∧
      buf.length = (contents fs i).length ∧
      (∀ k, buf[k]? = if offset.toNat ≤ k ∧ k < offset.toNat + n then src[k - offset.toNat]?
        else (contents fs i)[k]?) ∧
      length.toNat = if 0 < n then max (fs.node i).length.toNat (offset.toNat + n) else (fs.node i).length.toNat

variable {fs : Ramfs H} {i : Nat} {offset size : UInt32} {buf src : List UInt8}

theorem contents_some (hbuf : (fs.node i).buf = some buf) : contents fs i = buf := by
  simp [contents, hbuf]

theorem contents_none (hbuf : (fs.node i).buf = none) : contents fs i = [] := by
  simp [contents, hbuf]

/-- Below its end a file is read up to its end, unless offset and size wrap round: then the
clamp is passed by and the read runs out of the buffer. -/
theorem ramfs_read_eq (hbuf : (fs.node i).buf = some buf) (h : WellSized fs i) (offset size : UInt32) :
    ((fs.node i).length ≤ offset → ramfsRead fs i offset size = .ok []) ∧
      (offset < (fs.node i).length → offset.toNat + size.toNat < 4294967296 → ramfsRead fs i offset size =
        .ok ((buf.drop offset.toNat).take (min size.toNat ((fs.node i).length.toNat - offset.toNat)))) ∧
      (offset < (fs.node i).length → 4294967296 ≤ offset.toNat + size.toNat → ramfsRead fs i offset size =
        .error (.outOfBounds (offset.toNat + size.toNat))) := by
  obtain ⟨hcap, hlen⟩ := h
  rw [contents_some hbuf] at hcap hlen
  have hcapacity : (UInt32.ofNat buf.length).toNat = buf.length := UInt32.toNat_ofNat_of_lt' hcap
  have hinside : offset < (fs.node i).length → ¬ offset ≥ UInt32.ofNat buf.length := by
    intro hin
    have hend := UInt32.lt_iff_toNat_lt.mp hin
    rw [ge_iff_le, UInt32.le_iff_toNat_le]
    omega
  unfold ramfsRead
  simp only [hbuf]
  refine ⟨fun hpast => ?_, fun hin hfit => ?_, fun hin hwrap => ?_⟩
  · rw [if_pos (show offset ≥ (fs.node i).length from hpast), ite_self]
  · have hend := UInt32.lt_iff_toNat_lt.mp hin
    have hclamp := clamp_to_nat (UInt32.le_of_lt hin) hfit
    rw [if_neg (hinside hin), if_neg (UInt32.not_le.mpr hin), hclamp, if_pos (by omega)]
  · have hpassed := clamp_passed_by (UInt32.le_of_lt hin) hwrap
    rw [if_neg (hinside hin), if_neg (UInt32.not_le.mpr hin), if_neg hpassed, if_neg (by omega)]

/-- The same for a write: an offset beyond the buffer, or a sum that wraps round, makes it run
out of the buffer. -/
theorem ramfs_write_eq (hbuf : (fs.node i).buf = some buf) (h : WellSized fs i) (offset : UInt32)
    (hsrc : src.length < 4294967296) :
    (offset.toNat ≤ buf.length → offset.toNat + src.length < 4294967296 → ramfsWrite fs i offset src =
      let n := min src.length (buf.length - offset.toNat)
      .ok (UInt32.ofNat n, fs.setNode i { fs.node i with
        buf := some (buf.take offset.toNat ++ src.take n ++ buf.drop (offset.toNat + n))
        length := .ofNat (max (fs.node i).length.toNat (offset.toNat + n)) })) ∧
      (¬ (offset.toNat ≤ buf.length ∧ offset.toNat + src.length < 4294967296) →
        ∃ e, ramfsWrite fs i offset src = .error e) := by
  obtain ⟨hcap, hlen⟩ := h
  rw [contents_some hbuf] at hcap hlen
  have hcapacity : (UInt32.ofNat buf.length).toNat = buf.length := UInt32.toNat_ofNat_of_lt' hcap
  have hsize : (UInt32.ofNat src.length).toNat = src.length := UInt32.toNat_ofNat_of_lt' hsrc
  unfold ramfsWrite
  simp only [hbuf]
  constructor
  · intro hin hfit
    have hle : offset ≤ UInt32.ofNat buf.length := by
      rw [UInt32.le_iff_toNat_le]
      omega
    have hclamp := clamp_to_nat hle (show offset.toNat + (UInt32.ofNat src.length).toNat < 4294967296 by omega)
    rw [hcapacity, hsize] at hclamp
    generalize (if offset + UInt32.ofNat src.length > UInt32.ofNat buf.length then
      UInt32.ofNat buf.length - offset else UInt32.ofNat src.length) = size at hclamp ⊢
    have hend : (offset + size).toNat = offset.toNat + size.toNat := by
      rw [UInt32.toNat_add]
      omega
    have hlength := larger_to_nat (offset + size) (fs.node i).length
    rw [hend, hclamp] at hlength
    have hlength' := congrArg UInt32.ofNat hlength
    have hsize' := congrArg UInt32.ofNat hclamp
    rw [UInt32.ofNat_toNat] at hlength' hsize'
    rw [if_pos (by omega), hlength', hclamp, ← hsize']
  · intro hout
    refine ⟨_, if_neg (fun hroom => hout ?_)⟩
    obtain ⟨hroom, -⟩ := hroom
    have hin : offset.toNat ≤ buf.length := by omega
    refine ⟨hin, ?_⟩
    -- had the sum wrapped, the clamp would not have been used
    by_contra hwrap
    have hle : offset ≤ UInt32.ofNat buf.length := by
      rw [UInt32.le_iff_toNat_le]
      omega
    rw [if_neg (clamp_passed_by hle (by omega))] at hroom
    omega

/-- Bytes put over part of a list, read back by position. -/
theorem splice_get {α : Type} (l src : List α) (a n k : Nat) (ha : a + n ≤ l.length) (hn : n ≤ src.length) :
    (l.take a ++ src.take n ++ l.drop (a + n))[k]? = if a ≤ k ∧ k < a + n then src[k - a]? else l[k]? := by
  have htake : (l.take a).length = a := by
    rw [List.length_take]
    omega
  have hmid : (src.take n).length = n := by
    rw [List.length_take]
    omega
  rw [List.append_assoc]
  rcases Nat.lt_or_ge k a with hk | hk
  · rw [List.getElem?_append_left (by omega), List.getElem?_take_of_lt hk, if_neg (by omega)]
  · rw [List.getElem?_append_right (by omega), htake]
    rcases Nat.lt_or_ge (k - a) n with hk' | hk'
    · rw [List.getElem?_append_left (by omega), List.getElem?_take_of_lt hk', if_pos (by omega)]
    · rw [List.getElem?_append_right (by omega), hmid, List.getElem?_drop, if_neg (by omega)]
      congr 1
      omega

/-- A node without a buffer takes no bytes. -/
theorem write_no_buffer (hbuf : (fs.node i).buf = none) (offset : UInt32) (src : List UInt8) :
    WritesClamped fs i offset src := by
  have hcontents := contents_none hbuf
  have hcount : writeCount fs i offset src = 0 := by
    simp [writeCount, hcontents]
  have hsame : fs.setNode i { fs.node i with buf := (fs.node i).buf.map (fun _ => []), length := (fs.node i).length } =
      fs := by
    unfold Ramfs.setNode
    rw [hbuf, Option.map_none, ← hbuf, Function.update_eq_self]
  unfold WritesClamped
  simp only [hcount]
  refine ⟨[], (fs.node i).length, ?_, ?_, fun k => ?_, rfl⟩
  · rw [hsame]
    unfold ramfsWrite
    simp only [hbuf]
    rfl
  · rw [hcontents]
  · rw [hcontents, if_neg (by omega)]

theorem boot_buffer : (bootRamfs.node 3).buf = some (motdText ++ List.replicate 4054 0) := by
  rw [boot_ramfs_eq]
  rfl

theorem boot_length : (bootRamfs.node 3).length = 42 := by
  rw [boot_ramfs_eq]
  rfl

theorem boot_capacity : (motdText ++ List.replicate 4054 0).length = 4096 := by
  rw [List.length_append, List.length_replicate, motd_length]

theorem boot_well_sized : WellSized bootRamfs 3 where
  capacity := by
    rw [contents_some boot_buffer, boot_capacity]
    decide
  length := by
    rw [contents_some boot_buffer, boot_capacity, boot_length]
    decide

/-- A write is clamped to the buffer if and only if offset and size do not wrap round, and
the offset lies within the file, or within the buffer with something to write there. -/
theorem writes_clamped_iff (h : WellSized fs i) (offset : UInt32) (hsrc : src.length < 4294967296) :
    WritesClamped fs i offset src ↔ (fs.node i).buf = none ∨
      offset.toNat + src.length < 4294967296 ∧
        (offset ≤ (fs.node i).length ∨ 0 < src.length ∧ offset.toNat < (contents fs i).length) := by
  cases hbuf : (fs.node i).buf with
  | none => exact iff_of_true (write_no_buffer hbuf offset src) (Or.inl rfl)
  | some buf =>
    obtain ⟨hok, hfail⟩ := ramfs_write_eq hbuf h offset hsrc
    obtain ⟨hcap, hlen⟩ := h
    have hcontents := contents_some hbuf
    rw [hcontents] at hcap hlen
    rw [or_iff_right nofun, hcontents, UInt32.le_iff_toNat_le]
    unfold WritesClamped writeCount
    simp only [hcontents, hbuf, Option.map_some]
    by_cases hin : offset.toNat ≤ buf.length ∧ offset.toNat + src.length < 4294967296
    · obtain ⟨hoff, hfit⟩ := hin
      have hrun := hok hoff hfit
      simp only at hrun
      rw [hrun, Nat.min_eq_left hoff]
      generalize hn : min src.length (buf.length - offset.toNat) = n
      constructor
      · rintro ⟨buf', length, heq, -, -, hlength⟩
        have hnode := congrArg (fun x => (x.2.node i).length) (Except.ok.inj heq)
        simp only [Ramfs.setNode, Function.update_self] at hnode
        rw [← hnode, UInt32.toNat_ofNat', Nat.mod_eq_of_lt (by omega)] at hlength
        refine ⟨hfit, ?_⟩
        split at hlength
        · omega
        · omega
      · rintro ⟨-, hwhere⟩
        refine ⟨_, _, rfl, ?_, fun k => splice_get buf src offset.toNat n k (by omega) (by omega), ?_⟩
        · simp only [List.length_append, List.length_take, List.length_drop]
          omega
        · rw [UInt32.toNat_ofNat', Nat.mod_eq_of_lt (by omega)]
          split
          · rfl
          · omega
    · obtain ⟨e, he⟩ := hfail hin
      rw [he]
      refine iff_of_false ?_ ?_
      · rintro ⟨_, _, hrun, _⟩
        cases hrun
      · rintro ⟨hfit, hwhere⟩
        exact hin ⟨by omega, hfit⟩

/-- Bytes 10 to 13 of `/etc/motd`. -/
theorem write_in_buffer : WritesClamped bootRamfs 3 10 [1, 2, 3, 4] :=
  (writes_clamped_iff boot_well_sized 10 (by decide)).mpr (Or.inr ⟨by decide, Or.inl (by rw [boot_length]; decide)⟩)

/-- The capacity less the offset is negative, so the clamp leaves a size near 2^32. -/
theorem write_behind (hbuf : (fs.node i).buf = some buf) (hlen : buf.length = 4096) :
    ramfsWrite fs i 4097 [1] = .error (.outOfBounds 4294971392) := by
  unfold ramfsWrite
  simp only [hbuf, hlen]
  exact if_neg (by decide)

/-- A byte written right behind the buffer is not refused: the write runs out of the buffer. -/
theorem write_past_buffer :
    ramfsWrite bootRamfs 3 4097 [1] = .error (.outOfBounds 4294971392) ∧ ¬ WritesClamped bootRamfs 3 4097 [1] := by
  have herror := write_behind boot_buffer boot_capacity
  refine ⟨herror, ?_⟩
  rintro ⟨_, _, hok, _⟩
  rw [herror] at hok
  cases hok

/-- `sys_read` on the descriptor delivers as much and advances its offset by as much. -/
def SysReadsClamped (s : SysState (Ramfs H) Nat) (j : Fin fdMax) (i : Nat) (size : UInt32) : Prop :=
  let e := s.fds.table j
  let n := readCount s.fds.fs i e.offset size
  sysRead ramfsOps s j.val size =
    .ok ((signedInt (UInt32.ofNat n), ((contents s.fds.fs i).drop e.offset.toNat).take n),
      { s with fds := s.fds.setEntry j { e with offset := e.offset + UInt32.ofNat n } })

/-- A read either delivers what it should or runs out of the buffer. -/
theorem read_cases (h : WellSized fs i) (offset size : UInt32) :
    (NoWrap fs i offset size ∧ ReadsClamped fs i offset size) ∨
      (¬ NoWrap fs i offset size ∧ ∃ e, ramfsRead fs i offset size = .error e) := by
  have hlen := h.length
  unfold NoWrap ReadsClamped readCount
  cases hbuf : (fs.node i).buf with
  | none =>
    rw [contents_none hbuf] at hlen ⊢
    have hle : (fs.node i).length ≤ offset := by
      rw [UInt32.le_iff_toNat_le]
      exact Nat.le_trans hlen (Nat.zero_le _)
    rw [if_neg (UInt32.not_lt.mpr hle)]
    unfold ramfsRead
    simp only [hbuf]
    exact Or.inl ⟨Or.inl hle, rfl, rfl⟩
  | some buf =>
    obtain ⟨hpast, hfit, hwrap⟩ := ramfs_read_eq hbuf h offset size
    rw [contents_some hbuf] at hlen ⊢
    by_cases hin : offset < (fs.node i).length
    · rw [if_pos hin, or_iff_right (UInt32.not_le.mpr hin)]
      rw [UInt32.lt_iff_toNat_lt] at hin
      by_cases hsum : offset.toNat + size.toNat < 4294967296
      · refine Or.inl ⟨hsum, hfit (UInt32.lt_iff_toNat_lt.mpr hin) hsum, ?_⟩
        rw [List.length_take, List.length_drop]
        omega
      · exact Or.inr ⟨hsum, _, hwrap (UInt32.lt_iff_toNat_lt.mpr hin) (by omega)⟩
    · rw [if_neg hin]
      exact Or.inl ⟨Or.inl (UInt32.not_lt.mp hin), hpast (UInt32.not_lt.mp hin), rfl⟩

theorem sys_read_file {s : SysState (Ramfs H) Nat} {j : Fin fdMax} (hopen : (s.fds.table j).opened = true)
    (hfile : (s.fds.table j).isPipe = false) (hnode : (s.fds.table j).node = some i) (size : UInt32) :
    sysRead ramfsOps s j.val size = (ramfsRead s.fds.fs i (s.fds.table j).offset size).map (fun buf =>
      let e := s.fds.table j
      ((signedInt (UInt32.ofNat buf.length), buf),
        { s with fds := s.fds.setEntry j { e with offset := e.offset + UInt32.ofNat buf.length } })) := by
  unfold sysRead
  rw [read_file size hopen hfile, hnode]
  change (Except.map _ (ramfsRead s.fds.fs i (s.fds.table j).offset size) >>= _) = _
  cases ramfsRead s.fds.fs i (s.fds.table j).offset size with
  | error e => rfl
  | ok buf => rfl

/-- A read is clamped to the file if and only if it starts at or behind its end or offset and
size do not wrap round; so is `sys_read` on a descriptor with that offset. -/
theorem reads_clamped_iff (h : WellSized fs i) (offset size : UInt32) :
    (ReadsClamped fs i offset size ↔ NoWrap fs i offset size) ∧
      ∀ (s : SysState (Ramfs H) Nat) (j : Fin fdMax), s.fds.fs = fs → (s.fds.table j).opened = true →
        (s.fds.table j).isPipe = false → (s.fds.table j).node = some i → (s.fds.table j).offset = offset →
          (SysReadsClamped s j i size ↔ NoWrap fs i offset size) := by
  constructor
  · rcases read_cases h offset size with ⟨hno, hread⟩ | ⟨hwrap, e, he⟩
    · exact iff_of_true hread hno
    · refine iff_of_false ?_ hwrap
      rintro ⟨hread, -⟩
      rw [he] at hread
      cases hread
  · intro s j hfs hopen hfile hnode hoff
    subst hfs hoff
    unfold SysReadsClamped
    simp only
    rw [sys_read_file hopen hfile hnode]
    rcases read_cases h (s.fds.table j).offset size with ⟨hno, hread, hcount⟩ | ⟨hwrap, e, he⟩
    · refine iff_of_true ?_ hno
      rw [hread]
      simp only [Except.map, hcount]
    · refine iff_of_false ?_ hwrap
      rw [he]
      intro hread
      cases hread

/-- The largest count there is, from the start of the file. -/
theorem read_everything : ReadsClamped bootRamfs 3 0 0xFFFFFFFF :=
  (reads_clamped_iff boot_well_sized 0 0xFFFFFFFF).1.mpr (Or.inr (by decide))

/-- `/etc/motd` opened as descriptor 0. -/
def motdOpened : SysState (Ramfs Unit) Nat :=
  (sysOpen ramfsOps ⟨fdInit bootRamfs, some 0, []⟩ (bytes "/etc/motd")).2

/-- The same count after one byte has been read runs out of the buffer. -/
theorem read_everything_else :
    (sysRead ramfsOps motdOpened 0 1).map (fun r => (sysRead ramfsOps r.2 0 0xFFFFFFFF).map Prod.fst) =
        .ok (.error (.outOfBounds 4294967296)) ∧ ¬ ReadsClamped bootRamfs 3 1 0xFFFFFFFF := by
  refine ⟨by rw [motdOpened, boot_ramfs_eq]; decide +kernel, ?_⟩
  rintro ⟨hread, -⟩
  have hlong : 4294967296 ≤ (1 : UInt32).toNat + (0xFFFFFFFF : UInt32).toNat := by decide
  rw [(ramfs_read_eq boot_buffer boot_well_sized 1 0xFFFFFFFF).2.2 (by rw [boot_length]; decide) hlong] at hread
  cases hread

end BaSic.Proofs.RamfsBounds
