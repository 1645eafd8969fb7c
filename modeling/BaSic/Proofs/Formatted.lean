import BaSic.Proofs.FatInvariant
import BaSic.Proofs.FatWrite

namespace BaSic.Proofs.Formatted
open Kernel Lib FatTable Directory DiskRefinement FileOps Volume FatInvariant FatWrite

/-- A boot sector with the given BPB fields and the boot signature. -/
def bootSector (g : Geometry) : Sector := fun i =>
  match i.val with
  | 11 => .ofNat g.bytesPerSector.toNat
  | 12 => .ofNat (g.bytesPerSector.toNat / 256)
  | 13 => g.sectorsPerCluster
  | 14 => .ofNat g.reservedSectors.toNat
  | 15 => .ofNat (g.reservedSectors.toNat / 256)
  | 16 => g.numFats
  | 17 => .ofNat g.rootEntryCount.toNat
  | 18 => .ofNat (g.rootEntryCount.toNat / 256)
  | 22 => .ofNat g.sectorsPerFat.toNat
  | 23 => .ofNat (g.sectorsPerFat.toNat / 256)
  | 32 => .ofNat g.totalSectors.toNat
  | 33 => .ofNat (g.totalSectors.toNat / 256)
  | 34 => .ofNat (g.totalSectors.toNat / 65536)
  | 35 => .ofNat (g.totalSectors.toNat / 16777216)
  | 510 => 0x55
  | 511 => 0xAA
  | _ => 0

/-- An empty volume: the boot sector, and zeroes for the FAT, the root directory
and the data. -/
def formatImage (g : Geometry) : Nat → Sector := fun lba => if lba = 0 then bootSector g else fun _ => 0

def zeroGeometry : Geometry := ⟨0, 0, 0, 0, 0, 0, 0⟩

/-- The driver before the first mount, on a present disk that never fails. -/
def unmounted (image : Nat → Sector) : Fat12 where
  disk := diskInit ⟨image, fun _ => true, 0⟩ true
  geo := zeroGeometry
  fat := ⟨fun _ => 0, false⟩
  ready := false
  printed := []
  stack := fun _ => 0

/-- The driver with an empty FAT mounted on an empty volume. -/
def formatted (g : Geometry) : Fat12 := { unmounted (formatImage g) with geo := g, ready := true }

variable {g : Geometry}

/-- Reading the fields back gives the geometry that was written. -/
theorem bpb_boot_sector (g : Geometry) : bpb (bootSector g) = g := by
  have h16 : ∀ x : UInt16, readU16 (.ofNat x.toNat) (.ofNat (x.toNat / 256)) = x := by
    intro x
    have hx := x.toNat_lt
    apply UInt16.toNat_inj.mp
    rw [read_u16_to_nat, UInt8.toNat_ofNat', UInt8.toNat_ofNat']
    omega
  have h32 : ∀ x : UInt32, readU32 (.ofNat x.toNat) (.ofNat (x.toNat / 256))
      (.ofNat (x.toNat / 65536)) (.ofNat (x.toNat / 16777216)) = x := by
    intro x
    have hx := x.toNat_lt
    apply UInt32.toNat_inj.mp
    rw [read_u32_to_nat]
    simp only [UInt8.toNat_ofNat']
    omega
  obtain ⟨bps, spc, res, nf, root, total, spf⟩ := g
  have e0 := h16 bps
  have e1 := h16 res
  have e2 := h16 root
  have e3 := h16 spf
  have e4 := h32 total
  have hzero : (readU16 0 0).toUInt32 = 0 := by decide
  unfold bpb
  simp only [Geometry.mk.injEq]
  exact ⟨e0, rfl, e1, rfl, e2, (if_pos hzero).trans e4, e3⟩

theorem unmounted_shows (image : Nat → Sector) : Shows (unmounted image).disk image :=
  ⟨init_coherent image (fun _ => true) 0 (fun _ => rfl), rfl⟩

/-- The root directory of an empty volume holds nothing. -/
theorem formatted_unused (hg : FatFits g) (k : Nat) : ¬ Used (slotAt g (formatImage g) k) := by
  have hfirst := hg.regions.first_copy
  have hsec := hg.regions.fatSectors
  have hslot : slotAt g (formatImage g) k = fun _ => 0 := by
    funext j
    unfold slotAt entryAt formatImage
    rw [if_neg (by omega)]
  rw [hslot]
  exact fun hu => hu.1 rfl

/-- An empty volume is in order, with no file and no chain. -/
theorem formatted_well_formed (hg : FatFits g) :
    WellFormed (formatted g) (formatImage g) (fun _ => []) (fun _ => False) := by
  have hdead : ∀ k, ¬ Live g (slotAt g (formatImage g)) k := fun k hk => formatted_unused hg k hk.2.1
  have hentry : ∀ c, fatEntry (formatted g).fat.data c = 0 := by
    intro c
    have hbyte : ∀ i, byteAt (formatted g).fat.data i = 0 := by
      intro i
      unfold byteAt
      split <;> rfl
    unfold fatEntry
    simp only [hbyte]
    split <;> rfl
  refine ⟨⟨rfl, unmounted_shows _⟩, hg, ⟨?_, ?_, ?_, ?_, ?_, ?_⟩⟩
  · exact fun k hk => absurd hk (hdead k)
  · exact fun k hk => absurd hk (hdead k)
  · exact fun k hk => absurd hk (hdead k)
  · exact fun k _ hk => absurd hk (hdead k)
  · exact fun k hk => absurd hk (hdead k)
  · intro c _
    exact ⟨fun h => absurd (hentry c) h, fun h => h.elim False.elim (fun ⟨k, hk, _⟩ => absurd hk (hdead k))⟩

end BaSic.Proofs.Formatted
