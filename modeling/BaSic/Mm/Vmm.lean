import BaSic.Mm.Pmm

namespace BaSic.Mm

def pageSize : Nat := 4096

def pagePresent : Nat := 1 <<< 0

def pageWrite : Nat := 1 <<< 1

def pageUser : Nat := 1 <<< 2

/-- `~0xFFF` in 32 bits. -/
def pageMask : Nat := 0xFFFFF000

/-- Physical memory as 32-bit words (word `i` at address `4 * i`), the frame that `page_dir`
is aligned to, whether CR0 has paging on, and the frame allocator. -/
structure Vmm where
  pmm : Pmm
  mem : Nat → Nat
  dirFrame : Nat
  paging : Bool

/-- `page_dir[i]` -/
def dirEntry (v : Vmm) (i : Nat) : Nat := v.mem (v.dirFrame * 1024 + i)

/-- The walk of the x86 from CR3 on: the directory and table entries it goes through. -/
def walk (v : Vmm) (virt : UInt32) : Option (Nat × Nat) :=
  let pde := dirEntry v (virt.toNat >>> 22)
  if pde &&& pagePresent = 0 then none
  else
    let pte := v.mem ((pde &&& pageMask) / 4 + ((virt.toNat >>> 12) &&& 0x3FF))
    if pte &&& pagePresent = 0 then none else some (pde, pte)

/-- The frame an address maps to, and the flags of its table entry. -/
def translateAddr (v : Vmm) (virt : UInt32) : Option (Nat × Nat) :=
  (walk v virt).map (fun e => (e.2 &&& pageMask, e.2 &&& 0xFFF))

/-- Where the kernel's accesses to an address go; `none` is a page fault. CR0.WP is clear, so
that its stores do not ask for the write bit. -/
def physOf (v : Vmm) (addr : UInt32) : Option Nat :=
  if v.paging then (translateAddr v addr).map (fun e => e.1 + addr.toNat % 4096) else some addr.toNat

def load (v : Vmm) (addr : UInt32) : Option Nat := (physOf v addr).map (fun a => v.mem (a / 4))

def store (v : Vmm) (addr : UInt32) (x : Nat) : Option Vmm :=
  (physOf v addr).map (fun a => { v with mem := Function.update v.mem (a / 4) x })

def zeroPage (mem : Nat → Nat) (phys : Nat) : Nat → Nat := fun i =>
  if phys / 4 ≤ i ∧ i < phys / 4 + pageSize / 4 then 0 else mem i

/-- `memset((void *)addr, 0, PAGE_SIZE)` -/
def clearPage (v : Vmm) (addr : UInt32) : Option Vmm :=
  (physOf v addr).map (fun a => { v with mem := zeroPage v.mem a })

/-- `&page_dir[pdi]` for an address. -/
def dirSlot (v : Vmm) (virt : UInt32) : UInt32 := .ofNat (v.dirFrame * 4096 + 4 * (virt.toNat >>> 22))

/-- `&table[pti]` for an address. -/
def tableSlot (table : Nat) (virt : UInt32) : UInt32 := .ofNat (table + 4 * ((virt.toNat >>> 12) &&& 0x3FF))

/-- The table for an address, 0 when there is none and none can be allocated. -/
def getTable (v : Vmm) (virt flags : UInt32) : Option (Nat × Vmm) := do
  let entry ← load v (dirSlot v virt)
  if entry &&& pagePresent ≠ 0 then
    return (entry &&& pageMask, v)
  else
    let (phys, pmm) := pmmAlloc v.pmm
    let v := { v with pmm := pmm }
    if phys = 0 then
      return (0, v)
    else
      let v ← clearPage v (.ofNat phys)
      let v ← store v (dirSlot v virt) (phys ||| flags.toNat ||| pagePresent)
      return (phys, v)

def vmmMap (v : Vmm) (virt phys flags : UInt32) : Option Vmm := do
  let (table, v) ← getTable v virt flags
  if table = 0 then
    return v
  else
    store v (tableSlot table virt) ((phys.toNat &&& pageMask) ||| flags.toNat ||| pagePresent)

def vmmUnmap (v : Vmm) (virt : UInt32) : Option Vmm := do
  let (table, v) ← getTable v virt 0
  if table = 0 then
    return v
  else
    store v (tableSlot table virt) 0

/-- The loop of `vmm_init` from `addr` on, over the last `left` pages of the first 8 MB. -/
def identityMap (v : Vmm) (addr : Nat) : Nat → Option Vmm
  | 0 => some v
  | left + 1 => do
    let v ← vmmMap v (.ofNat addr) (.ofNat addr) (.ofNat pageWrite)
    identityMap v (addr + pageSize) left

/-- `vmm_init`, after which CR3 has `page_dir` and CR0 the paging bit. -/
def vmmInit (v : Vmm) : Option Vmm := do
  let v ← clearPage v (.ofNat (v.dirFrame * 4096))
  let v ← identityMap v 0 (0x800000 / pageSize)
  return { v with paging := true }

end BaSic.Mm
