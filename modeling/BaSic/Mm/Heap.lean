import BaSic.Lib.Words
import BaSic.Machine

namespace BaSic.Mm
open Lib

def heapStart : Nat := 0x300000

def heapSize : Nat := 0x100000

def heapMagic : Nat := 0xB451C000

/-- `sizeof(block_hdr_t)`: magic at 0, size at 4, the free byte at 8, next at 12. -/
def hdrSize : Nat := 16

def magicOf (m : Mem) (b : Nat) : Nat := read32 m b

def sizeOfBlock (m : Mem) (b : Nat) : Nat := read32 m (b + 4)

def freeOf (m : Mem) (b : Nat) : UInt8 := m (b + 8)

def nextOf (m : Mem) (b : Nat) : Nat := read32 m (b + 12)

def setMagic (m : Mem) (b v : Nat) : Mem := write32 m b v

def setSize (m : Mem) (b v : Nat) : Mem := write32 m (b + 4) v

def setFree (m : Mem) (b : Nat) (v : UInt8) : Mem := fun i => if i = b + 8 then v else m i

def setNext (m : Mem) (b v : Nat) : Mem := write32 m (b + 12) v

inductive HeapMessage where
  | ready
  | outOfMemory
  | badPointer (ptr : Nat)

/-- The memory the allocator lives in, its one static, and what it printed. -/
structure Heap where
  mem : Mem
  heapHead : Nat
  printed : List HeapMessage

def heapInit (m : Mem) : Heap :=
  let m := setMagic m heapStart heapMagic
  let m := setSize m heapStart (heapSize - hdrSize)
  let m := setFree m heapStart 1
  let m := setNext m heapStart 0
  ⟨m, heapStart, [.ready]⟩

/-- More loop rounds than the heap has room for headers. -/
def heapFuel : Nat := heapSize / hdrSize

def mergeFrom : Nat → Mem → Nat → Except Fault Mem
  | fuel, m, cur =>
    if cur = 0 ∨ nextOf m cur = 0 then .ok m
    else match fuel with
      | 0 => .error .timeout
      | fuel + 1 =>
        if freeOf m cur ≠ 0 ∧ freeOf m (nextOf m cur) ≠ 0 then
          let m := setSize m cur (sizeOfBlock m cur + (hdrSize + sizeOfBlock m (nextOf m cur)))
          let m := setNext m cur (nextOf m (nextOf m cur))
          mergeFrom fuel m cur
        else mergeFrom fuel m (nextOf m cur)

def mergeFreeBlocks (h : Heap) : Except Fault Heap := do
  let m ← mergeFrom heapFuel h.mem h.heapHead
  return { h with mem := m }

/-- The size rounded up to 8, in 32-bit arithmetic. -/
def align8 (size : UInt32) : Nat := ((size + 7) &&& ~~~7).toNat

/-- Split the block when there is room for a new header and at least 8 bytes. -/
def splitBlock (m : Mem) (cur size : Nat) : Mem :=
  if u32 (size + hdrSize + 8) ≤ sizeOfBlock m cur then
    let split := cur + hdrSize + size
    let m := setMagic m split heapMagic
    let m := setSize m split (sub32 (sub32 (sizeOfBlock m cur) size) hdrSize)
    let m := setFree m split 1
    let m := setNext m split (nextOf m cur)
    let m := setNext m cur split
    setSize m cur size
  else m

/-- First fit from `cur` on; the pointer returned is 0 when nothing fits. -/
def kmallocFrom : Nat → Mem → Nat → Nat → Except Fault (Nat × Mem)
  | fuel, m, size, cur =>
    if cur = 0 then .ok (0, m)
    else if freeOf m cur ≠ 0 ∧ size ≤ sizeOfBlock m cur then
      .ok (cur + hdrSize, setFree (splitBlock m cur size) cur 0)
    else match fuel with
      | 0 => .error .timeout
      | fuel + 1 => kmallocFrom fuel m size (nextOf m cur)

def kmalloc (h : Heap) (size : UInt32) : Except Fault (Nat × Heap) :=
  if size = 0 then .ok (0, h)
  else do
    let (p, m) ← kmallocFrom heapFuel h.mem (align8 size) h.heapHead
    if p = 0 then return (0, { h with printed := .outOfMemory :: h.printed })
    return (p, { h with mem := m })

def kfree (h : Heap) (ptr : Nat) : Except Fault Heap :=
  if ptr = 0 then .ok h
  else
    let hdr := sub32 ptr hdrSize
    if magicOf h.mem hdr ≠ heapMagic then
      .ok { h with printed := .badPointer ptr :: h.printed }
    else mergeFreeBlocks { h with mem := setFree h.mem hdr 1 }

end BaSic.Mm
