import Mathlib

namespace BaSic.Kernel

/-- One 512-byte sector. -/
abbrev Sector := Fin 512 → UInt8

instance sector_nonempty : NeZero 512 := ⟨by decide⟩

abbrev diskCacheSlots : Nat := 16

instance slots_nonempty : NeZero diskCacheSlots := ⟨by decide⟩

/-- The drive behind `ata_read` and `ata_write` for single-sector transfers: its
sectors, and whether each transfer in turn succeeds. -/
structure Ata where
  sectors : Nat → Sector
  succeeds : Nat → Bool
  transfers : Nat := 0

/-- A failed read returns 0 before any word has arrived. -/
def ataRead (a : Ata) (lba : Nat) : Option Sector × Ata :=
  (if a.succeeds a.transfers then some (a.sectors lba) else none,
    { a with transfers := a.transfers + 1 })

def ataWrite (a : Ata) (lba : Nat) (data : Sector) : Bool × Ata :=
  if a.succeeds a.transfers then
    (true, { a with sectors := Function.update a.sectors lba data, transfers := a.transfers + 1 })
  else (false, { a with transfers := a.transfers + 1 })

structure CacheSlot where
  lba : Nat
  data : Sector
  valid : Bool
  dirty : Bool

/-- The statics of the disk layer, with the drive they talk to. -/
structure Disk where
  cache : Fin diskCacheSlots → CacheSlot
  diskPresent : Bool
  ata : Ata

def zeroSlot : CacheSlot := ⟨0, fun _ => 0, false, false⟩

/-- `present` is what `ata_init` answers. -/
def diskInit (ata : Ata) (present : Bool) : Disk := ⟨fun _ => zeroSlot, present, ata⟩

def cacheFind (d : Disk) (lba : Nat) : Option (Fin diskCacheSlots) :=
  (List.finRange diskCacheSlots).find? (fun i => (d.cache i).valid && (d.cache i).lba == lba)

def Disk.setSlot (d : Disk) (i : Fin diskCacheSlots) (s : CacheSlot) : Disk :=
  { d with cache := Function.update d.cache i s }

/-- The slot claimed for `lba`: the first invalid one, or else slot 0, written
back first when it is dirty. The answer of that write-back is not looked at. -/
def cacheEvict (d : Disk) (lba : Nat) : Fin diskCacheSlots × Disk :=
  match (List.finRange diskCacheSlots).find? (fun i => !(d.cache i).valid) with
  | some i => (i, d.setSlot i { d.cache i with lba := lba, valid := true, dirty := false })
  | none =>
    let i : Fin diskCacheSlots := 0
    let s := d.cache i
    let ata := if s.dirty && d.diskPresent then (ataWrite d.ata s.lba s.data).2 else d.ata
    (i, { d with ata := ata }.setSlot i { s with lba := lba, valid := true, dirty := false })

/-- `none` is the return value 0: the caller's buffer keeps what it held. -/
def diskReadSector (d : Disk) (lba : Nat) : Option Sector × Disk :=
  match cacheFind d lba with
  | some i => (some (d.cache i).data, d)
  | none =>
    if !d.diskPresent then (none, d)
    else
      let (i, d) := cacheEvict d lba
      match ataRead d.ata lba with
      | (none, ata) =>
        (none, { d with ata := ata }.setSlot i { d.cache i with valid := false })
      | (some data, ata) =>
        (some data, { d with ata := ata }.setSlot i { d.cache i with data := data })

/-- The slot a write goes to: cached already, or claimed now. -/
def slotFor (d : Disk) (lba : Nat) : Fin diskCacheSlots × Disk :=
  match cacheFind d lba with
  | some i => (i, d)
  | none => cacheEvict d lba

def diskWriteSector (d : Disk) (lba : Nat) (buf : Sector) : Bool × Disk :=
  let (i, d) := slotFor d lba
  let d := d.setSlot i { d.cache i with data := buf, dirty := true }
  if !d.diskPresent then (false, d)
  else
    match ataWrite d.ata lba (d.cache i).data with
    | (false, ata) => (false, { d with ata := ata })
    | (true, ata) =>
      (true, { d with ata := ata }.setSlot i { d.cache i with dirty := false })

/-- One round of the flush loop: the dirty bit is cleared whatever `ata_write`
answers. -/
def flushSlot (d : Disk) (i : Fin diskCacheSlots) : Disk :=
  if (d.cache i).valid && (d.cache i).dirty then
    { d with ata := (ataWrite d.ata (d.cache i).lba (d.cache i).data).2 }.setSlot i
      { d.cache i with dirty := false }
  else d

def diskCacheFlush (d : Disk) : Disk :=
  if !d.diskPresent then d else (List.finRange diskCacheSlots).foldl flushSlot d

end BaSic.Kernel
