import BaSic.Kernel.Disk
import BaSic.Machine

namespace BaSic.Kernel

/-- The fields of the BPB the driver keeps. -/
structure Geometry where
  bytesPerSector : UInt16
  sectorsPerCluster : UInt8
  reservedSectors : UInt16
  numFats : UInt8
  rootEntryCount : UInt16
  totalSectors : UInt32
  sectorsPerFat : UInt16

namespace Geometry

def fatStartLba (g : Geometry) : Nat := g.reservedSectors.toNat

/-- The widths of the fields keep this and `dataStartLba` far below 2^32. -/
def rootStartLba (g : Geometry) : Nat :=
  g.fatStartLba + g.numFats.toNat * g.sectorsPerFat.toNat

def dataStartLba (g : Geometry) : Nat := g.rootStartLba + (g.rootEntryCount.toNat * 32 + 511) / 512

/-- The subtraction wraps when the volume is smaller than its own header. -/
def totalClusters (g : Geometry) : Nat :=
  sub32 g.totalSectors.toNat g.dataStartLba / g.sectorsPerCluster.toNat

/-- The first sector of a cluster. -/
def clusterLba (g : Geometry) (cluster : Nat) : Nat :=
  g.dataStartLba + (cluster - 2) * g.sectorsPerCluster.toNat

end Geometry

def fatBytes : Nat := 1024

structure FatCache where
  data : Fin fatBytes → UInt8
  dirty : Bool

inductive Fat12Message where
  | bootSectorReadFailed
  | noBootSignature
  | mounted (clusters root data : Nat)
  | diskFull
  | rootDirFull

/-- The statics of the driver, over the disk layer they sit on. `stack` is what
an uninitialised sector buffer holds; it is only seen after a failed read. -/
structure Fat12 where
  disk : Disk
  geo : Geometry
  fat : FatCache
  ready : Bool
  printed : List Fat12Message
  stack : Sector

def readU16 (lo hi : UInt8) : UInt16 := lo.toUInt16 ||| (hi.toUInt16 <<< 8)

def readU32 (b₀ b₁ b₂ b₃ : UInt8) : UInt32 :=
  b₀.toUInt32 ||| (b₁.toUInt32 <<< 8) ||| (b₂.toUInt32 <<< 16) ||| (b₃.toUInt32 <<< 24)

/-- `disk_read_sector` into a buffer, with the return value dropped. -/
def readInto (d : Disk) (lba : Nat) (buf : Sector) : Sector × Disk :=
  match diskReadSector d lba with
  | (some sector, d) => (sector, d)
  | (none, d) => (buf, d)

def writeFrom (d : Disk) (lba : Nat) (buf : Sector) : Disk := (diskWriteSector d lba buf).2

def bpb (sector : Sector) : Geometry where
  bytesPerSector := readU16 (sector 11) (sector 12)
  sectorsPerCluster := sector 13
  reservedSectors := readU16 (sector 14) (sector 15)
  numFats := sector 16
  rootEntryCount := readU16 (sector 17) (sector 18)
  totalSectors :=
    let total := (readU16 (sector 19) (sector 20)).toUInt32
    if total = 0 then readU32 (sector 32) (sector 33) (sector 34) (sector 35) else total
  sectorsPerFat := readU16 (sector 22) (sector 23)

/-- The half of `fat_data` from byte 0 or byte 512 on, as one sector. -/
def FatCache.half (f : FatCache) (upper : Bool) : Sector := fun i =>
  f.data ⟨(if upper then 512 else 0) + i.val, by unfold fatBytes; split <;> omega⟩

def FatCache.setHalf (f : FatCache) (upper : Bool) (sector : Sector) : FatCache :=
  { f with data := fun i => if i.val / 512 = (if upper then 1 else 0) then
      sector (Fin.ofNat 512 i.val) else f.data i }

def fat12Init (s : Fat12) : Except Fault (Int × Fat12) :=
  match diskReadSector s.disk 0 with
  | (none, d) => .ok (0, { s with disk := d, printed := .bootSectorReadFailed :: s.printed })
  | (some sector, d) =>
    let s := { s with disk := d }
    if sector 510 ≠ 0x55 ∨ sector 511 ≠ 0xAA then
      .ok (0, { s with printed := .noBootSignature :: s.printed })
    else
      let g := bpb sector
      let s := { s with geo := g }
      if g.sectorsPerCluster = 0 then .error .divideByZero
      else
        let (first, d) := readInto s.disk g.fatStartLba (s.fat.half false)
        let s := { s with disk := d, fat := s.fat.setHalf false first }
        let s :=
          if 1 < g.sectorsPerFat then
            let (second, d) := readInto s.disk (g.fatStartLba + 1) (s.fat.half true)
            { s with disk := d, fat := s.fat.setHalf true second }
          else s
        .ok (1, { s with
          fat.dirty := false
          ready := true
          printed := .mounted g.totalClusters g.rootStartLba g.dataStartLba :: s.printed })

def fatByte (f : FatCache) (offset : Nat) : Except Fault UInt8 :=
  if h : offset < fatBytes then .ok (f.data ⟨offset, h⟩) else .error (.outOfBounds offset)

def setFatByte (f : FatCache) (offset : Nat) (v : UInt8) : Except Fault FatCache :=
  if h : offset < fatBytes then .ok { f with data := Function.update f.data ⟨offset, h⟩ v }
  else .error (.outOfBounds offset)

def fat12Get (f : FatCache) (cluster : Nat) : Except Fault Nat := do
  let offset := cluster + cluster / 2
  let lo ← fatByte f offset
  let hi ← fatByte f (offset + 1)
  let val :=
    if cluster % 2 = 1 then (lo.toNat >>> 4) ||| (hi.toNat <<< 4)
    else lo.toNat ||| ((hi.toNat &&& 0x0F) <<< 8)
  return val &&& 0x0FFF

def fat12Set (f : FatCache) (cluster value : Nat) : Except Fault FatCache := do
  let offset := cluster + cluster / 2
  let lo ← fatByte f offset
  let hi ← fatByte f (offset + 1)
  let f ←
    if cluster % 2 = 1 then do
      let f ← setFatByte f offset (.ofNat ((lo.toNat &&& 0x0F) ||| (value <<< 4)))
      setFatByte f (offset + 1) (.ofNat (value >>> 4))
    else do
      let f ← setFatByte f offset (.ofNat (value &&& 0xFF))
      setFatByte f (offset + 1) (.ofNat ((hi.toNat &&& 0xF0) ||| ((value >>> 8) &&& 0x0F)))
  return { f with dirty := true }

def fatFlush (s : Fat12) : Fat12 :=
  if !s.fat.dirty then s
  else
    let g := s.geo
    let d := writeFrom s.disk g.fatStartLba (s.fat.half false)
    let d := if 1 < g.sectorsPerFat then writeFrom d (g.fatStartLba + 1) (s.fat.half true) else d
    let d :=
      if 1 < g.numFats then
        let copy := g.fatStartLba + g.sectorsPerFat.toNat
        let d := writeFrom d copy (s.fat.half false)
        if 1 < g.sectorsPerFat then writeFrom d (copy + 1) (s.fat.half true) else d
      else d
    { s with disk := d, fat.dirty := false }

/-- `(u16)(total_clusters + 2)`, the first cluster number the allocator never tries. -/
def clusterLimit (g : Geometry) : Nat := (g.totalClusters + 2) % 65536

/-- The first of `count` clusters from `c` on whose entry is 0, or 0. -/
def allocFrom (f : FatCache) : (count c : Nat) → Except Fault Nat
  | 0, _ => .ok 0
  | count + 1, c => do
    if (← fat12Get f c) = 0 then return c
    allocFrom f count (c + 1)

def fat12AllocCluster (g : Geometry) (f : FatCache) : Except Fault Nat :=
  allocFrom f (clusterLimit g - 2) 2

/-- The cluster numbers at which the chain loops of the driver keep going. -/
abbrev InChain (cluster : Nat) : Prop := 2 ≤ cluster ∧ cluster ≤ 0xFEF

/-- More rounds than there are cluster numbers in a 12-bit entry. -/
def chainFuel : Nat := 4096

def freeChainFrom : Nat → FatCache → Nat → Except Fault FatCache
  | fuel, f, cluster =>
    if InChain cluster then
      match fuel with
      | 0 => .error .timeout
      | fuel + 1 => do
        let next ← fat12Get f cluster
        let f ← fat12Set f cluster 0
        freeChainFrom fuel f next
    else .ok f

def freeChain (f : FatCache) (cluster : Nat) : Except Fault FatCache :=
  freeChainFrom chainFuel f cluster

/-- The allocation loop of `fat12_write` with `count` clusters to go. No cluster
left over gives `none`, with the clusters taken so far freed again. -/
def allocChain (g : Geometry) : (count : Nat) → FatCache → (first prev : Nat) →
    Except Fault (Option Nat × FatCache)
  | 0, f, first, _ => .ok (some first, f)
  | count + 1, f, first, prev => do
    let nc ← fat12AllocCluster g f
    if nc = 0 then
      let f ← if first ≠ 0 then freeChain f first else pure f
      return (none, f)
    let f ← fat12Set f nc 0xFFF
    if prev ≠ 0 then
      let f ← fat12Set f prev nc
      allocChain g count f first nc
    else allocChain g count f nc nc

end BaSic.Kernel
