import BaSic.Kernel.Fat12
import BaSic.Kernel.Fat83

namespace BaSic.Kernel

def entryAt (sector : Sector) (idx : Nat) : Entry := fun j => sector (Fin.ofNat 512 (idx * 32 + j.val))

def setEntry (sector : Sector) (idx : Nat) (e : Entry) : Sector := fun i =>
  if i.val / 32 = idx then e ⟨i.val % 32, by omega⟩ else sector i

def setByte (sector : Sector) (offset : Nat) (v : UInt8) : Sector :=
  Function.update sector (Fin.ofNat 512 offset) v

def firstCluster (e : Entry) : Nat := (readU16 (e 26) (e 27)).toNat

def fileSize (e : Entry) : Nat := (readU32 (e 28) (e 29) (e 30) (e 31)).toNat

/-- What a directory loop decides at one entry. -/
inductive Verdict where
  | next
  | stop
  | hit

/-- The loop over the entries `idx`, `idx + 1`, … of one sector. -/
def scanSector (verdict : Entry → Verdict) (sector : Sector) : (count idx : Nat) → Verdict × Nat
  | 0, idx => (.next, idx)
  | count + 1, idx =>
    match verdict (entryAt sector idx) with
    | .next => scanSector verdict sector count (idx + 1)
    | .stop => (.stop, idx)
    | .hit => (.hit, idx)

/-- A directory entry that was found: where it is and what it holds. -/
structure Found where
  lba : Nat
  idx : Nat
  entry : Entry

/-- The loop over the root directory shared by `find_entry` and
`alloc_root_entry`; every round takes at least one entry off `left`. -/
def scanRoot (verdict : Entry → Verdict) :
    (fuel : Nat) → Disk → Sector → (lba left : Nat) → Option Found × Disk
  | 0, d, _, _, _ => (none, d)
  | fuel + 1, d, buf, lba, left =>
    if left = 0 then (none, d)
    else
      let (sector, d) := readInto d lba buf
      let per := min 16 left
      match scanSector verdict sector per 0 with
      | (.stop, _) => (none, d)
      | (.hit, idx) => (some ⟨lba, idx, entryAt sector idx⟩, d)
      | (.next, _) => scanRoot verdict fuel d sector (lba + 1) (left - per)

def findVerdict (name : CString) (e : Entry) : Verdict :=
  if e 0 = 0x00 then .stop
  else if e 0 = 0xE5 ∨ e 11 &&& 0x08 ≠ 0 then .next
  else if namesMatch (entryName e) name then .hit
  else .next

def findEntry (s : Fat12) (name : CString) : Option Found × Fat12 :=
  let left := s.geo.rootEntryCount.toNat
  let (found, d) := scanRoot (findVerdict name) left s.disk s.stack s.geo.rootStartLba left
  (found, { s with disk := d })

def allocVerdict (e : Entry) : Verdict := if e 0 = 0x00 ∨ e 0 = 0xE5 then .hit else .next

def allocRootEntry (s : Fat12) : Option Found × Fat12 :=
  let left := s.geo.rootEntryCount.toNat
  let (found, d) := scanRoot allocVerdict left s.disk s.stack s.geo.rootStartLba left
  (found, { s with disk := d })

/-- A `u32` result returned as `int`. -/
def asInt (n : Nat) : Int := if n < 2147483648 then n else (n : Int) - 4294967296

def fat12Exists (s : Fat12) (path : CString) : Int × Fat12 :=
  if !s.ready then (0, s)
  else
    match findEntry s path.skipSlash with
    | (some _, s) => (1, s)
    | (none, s) => (0, s)

/-- `fat12_dirent_t`. -/
structure Dirent where
  name : CString
  isDir : Bool
  size : Nat
  firstCluster : Nat

def direntOf (e : Entry) : Dirent where
  name := entryName e
  isDir := decide (e 11 &&& 0x10 ≠ 0)
  size := fileSize e
  firstCluster := firstCluster e

/-- The loop of `fat12_list` over the entries of one sector; `true` is its early return. The
caller's array is the list of the entries stored so far, and `found` its length. -/
def listSector (max : Int) (sector : Sector) : (count idx : Nat) → List Dirent → Bool × List Dirent
  | 0, _, out => (false, out)
  | count + 1, idx, out =>
    if (out.length : Int) < max then
      let e := entryAt sector idx
      if e 0 = 0x00 then (true, out)
      else if e 0 = 0xE5 ∨ e 11 &&& 0x08 ≠ 0 then listSector max sector count (idx + 1) out
      else listSector max sector count (idx + 1) (out ++ [direntOf e])
    else (false, out)

def listRoot (max : Int) : (fuel : Nat) → Disk → Sector → (lba left : Nat) → List Dirent → List Dirent × Disk
  | 0, d, _, _, _, out => (out, d)
  | fuel + 1, d, buf, lba, left, out =>
    if 0 < left ∧ (out.length : Int) < max then
      let (sector, d) := readInto d lba buf
      let per := min 16 left
      match listSector max sector per 0 out with
      | (true, out) => (out, d)
      | (false, out) => listRoot max fuel d sector (lba + 1) (left - per) out
    else (out, d)

/-- The entries stored in `out`, as many as are returned. The path is not looked at. -/
def fat12List (s : Fat12) (_path : Option CString) (max : Int) : List Dirent × Fat12 :=
  if !s.ready then ([], s)
  else
    let left := s.geo.rootEntryCount.toNat
    let (out, d) := listRoot max left s.disk s.stack s.geo.rootStartLba left []
    (out, { s with disk := d })

/-- Bytes a caller's buffer holds, by offset. -/
abbrev Bytes := Nat → UInt8

/-- `memcpy(buf + at, sector, count)` for `count` at most 512. -/
def copyInto (buf : Bytes) (start : Nat) (sector : Sector) (count : Nat) : Bytes := fun i =>
  if start ≤ i ∧ i < start + count then sector (Fin.ofNat 512 (i - start)) else buf i

/-- The sector loop of `fat12_read` inside one cluster, with `count` sectors to go. -/
def readCluster (stack : Sector) (size bufSize : Nat) : (count : Nat) → Disk → Bytes →
    (lba written : Nat) → Nat × Bytes × Disk
  | 0, d, buf, _, written => (written, buf, d)
  | count + 1, d, buf, lba, written =>
    if written < bufSize then
      let (sector, d) := readInto d lba stack
      let toCopy := 512
      let toCopy := if bufSize < u32 (written + toCopy) then sub32 bufSize written else toCopy
      let toCopy := if size < u32 (written + toCopy) then sub32 size written else toCopy
      readCluster stack size bufSize count d (copyInto buf written sector toCopy) (lba + 1)
        (u32 (written + toCopy))
    else (written, buf, d)

/-- The cluster loop of `fat12_read`. It has no bound of its own: a run of the
code that goes on for ever is a run that exhausts every fuel. -/
def readChain (stack : Sector) (g : Geometry) (f : FatCache) (size bufSize : Nat) : (fuel : Nat) →
    Disk → Bytes → (cluster written : Nat) → Except Fault (Nat × Bytes × Disk)
  | fuel, d, buf, cluster, written =>
    if InChain cluster ∧ written < bufSize then
      match fuel with
      | 0 => .error .timeout
      | fuel + 1 => do
        let (written, buf, d) := readCluster stack size bufSize g.sectorsPerCluster.toNat d buf
          (g.clusterLba cluster) written
        let next ← fat12Get f cluster
        readChain stack g f size bufSize fuel d buf next written
    else .ok (written, buf, d)

/-- The result, the caller's buffer afterwards, and the new state. -/
def fat12Read (fuel : Nat) (s : Fat12) (path : Option CString) (buf : Option Bytes)
    (bufSize : UInt32) : Except Fault (Int × Option Bytes × Fat12) :=
  match s.ready, path, buf with
  | true, some path, some out =>
    match findEntry s path.skipSlash with
    | (none, s) => .ok (0, some out, s)
    | (some found, s) => do
      let (written, out, d) ← readChain s.stack s.geo s.fat (fileSize found.entry) bufSize.toNat
        fuel s.disk out (firstCluster found.entry) 0
      return (asInt written, some out, { s with disk := d })
  | _, _, _ => .ok (0, buf, s)

def clustersNeeded (g : Geometry) (size : Nat) : Nat :=
  let needed := u32 (size + 511) / 512 / g.sectorsPerCluster.toNat
  if needed = 0 then 1 else needed

/-- The sector that goes to disk for the bytes from `written` on, padded with 0. -/
def dataSector (buf : Bytes) (written toWrite : Nat) : Sector := fun i =>
  if i.val < toWrite then buf (written + i.val) else 0

/-- The sector loop of `fat12_write` inside one cluster. -/
def writeCluster (buf : Bytes) (size : Nat) : (count : Nat) → Disk → (lba written : Nat) → Nat × Disk
  | 0, d, _, written => (written, d)
  | count + 1, d, lba, written =>
    if written < size then
      let toWrite := if size < u32 (written + 512) then sub32 size written else 512
      let d := writeFrom d lba (dataSector buf written toWrite)
      writeCluster buf size count d (lba + 1) (u32 (written + toWrite))
    else (written, d)

def writeChain (g : Geometry) (f : FatCache) (buf : Bytes) (size : Nat) : (fuel : Nat) → Disk →
    (cluster written : Nat) → Except Fault (Nat × Disk)
  | fuel, d, cluster, written =>
    if InChain cluster ∧ written < size then
      match fuel with
      | 0 => .error .timeout
      | fuel + 1 => do
        let (written, d) := writeCluster buf size g.sectorsPerCluster.toNat d
          (g.clusterLba cluster) written
        let next ← fat12Get f cluster
        writeChain g f buf size fuel d next written
    else .ok (written, d)

/-- The entry `fat12_write` stores: zeroes but for the name, the archive
attribute, the first cluster and the size. -/
def newEntry (name : CString) (first size : Nat) : Entry := fun j =>
  if h : j.val < 11 then strToFat83 name ⟨j.val, h⟩
  else if j = 11 then 0x20
  else if j = 26 then .ofNat first
  else if j = 27 then .ofNat (first >>> 8)
  else if j = 28 then .ofNat size
  else if j = 29 then .ofNat (size >>> 8)
  else if j = 30 then .ofNat (size >>> 16)
  else if j = 31 then .ofNat (size >>> 24)
  else 0

/-- Free the chain of a file and mark its directory entry as deleted. -/
def removeFile (s : Fat12) (found : Found) : Except Fault Fat12 := do
  let f ← freeChain s.fat (firstCluster found.entry)
  let (sector, d) := readInto s.disk found.lba s.stack
  let d := writeFrom d found.lba (setByte sector (found.idx * 32) 0xE5)
  return { s with fat := f, disk := d }

/-- From the allocation loop of `fat12_write` on. -/
def storeFile (s : Fat12) (path : CString) (buf : Bytes) (size : Nat) :
    Except Fault (Int × Fat12) := do
  if s.geo.sectorsPerCluster = 0 then throw .divideByZero
  match ← allocChain s.geo (clustersNeeded s.geo size) s.fat 0 0 with
  | (none, f) => return (0, { s with fat := f, printed := .diskFull :: s.printed })
  | (some first, f) =>
    let (written, d) ← writeChain s.geo f buf size chainFuel s.disk first 0
    let s := { s with fat := f, disk := d }
    match allocRootEntry s with
    | (none, s) =>
      let f ← freeChain s.fat first
      return (0, { s with fat := f, printed := .rootDirFull :: s.printed })
    | (some slot, s) =>
      let (sector, d) := readInto s.disk slot.lba s.stack
      let d := writeFrom d slot.lba (setEntry sector slot.idx (newEntry path first size))
      let s := fatFlush { s with disk := d }
      return (asInt written, { s with disk := diskCacheFlush s.disk })

def fat12Write (s : Fat12) (path : Option CString) (buf : Option Bytes) (size : UInt32) :
    Except Fault (Int × Fat12) :=
  match s.ready, path, buf with
  | true, some path, some data =>
    match findEntry s path.skipSlash with
    | (none, s) => storeFile s path.skipSlash data size.toNat
    | (some old, s) => do storeFile (← removeFile s old) path.skipSlash data size.toNat
  | _, _, _ => .ok (0, s)

def fat12Delete (s : Fat12) (path : Option CString) : Except Fault (Int × Fat12) :=
  match s.ready, path with
  | true, some path =>
    match findEntry s path.skipSlash with
    | (none, s) => .ok (0, s)
    | (some found, s) => do
      let s := fatFlush (← removeFile s found)
      return (1, { s with disk := diskCacheFlush s.disk })
  | _, _ => .ok (0, s)

end BaSic.Kernel
