import BaSic.MemCopy

namespace BaSic.Kernel
open Lib

def elfMagic : Nat := 0x464C457F
def etExec : Nat := 2
def em386 : Nat := 3
def ptLoad : Nat := 1

/-- `sizeof(elf32_ehdr_t)` -/
def ehdrSize : Nat := 52

/-- What `elf_load` reports. -/
inductive ElfResult where
  | tooSmall
  | badMagic
  | notExecutable
  | outOfBounds
  | loaded (entry : Nat)
  deriving DecidableEq, Repr

/-- What it returns. -/
def ElfResult.value : ElfResult → Nat
  | .loaded entry => entry
  | _ => 0

/-- `data + ehdr->e_phoff + i * ehdr->e_phentsize`, whose product wraps as the sums do. -/
def phdrAt (m : Mem) (data : UInt32) (i : Nat) : Reading Nat := do
  let phoff ← readWord m (data.toNat + 28)
  let phentsize ← readHalf m (data.toNat + 42)
  pure (u32 (data.toNat + phoff + i * phentsize))

/-- The bytes of the segment that are not in the file. -/
def zeroFill (m : Mem) (phdr : Nat) : Reading Mem := do
  let memsz ← readWord m (phdr + 20)
  let filesz ← readWord m (phdr + 16)
  if memsz > filesz then
    let vaddr ← readWord m (phdr + 8)
    pure (memset m (vaddr + filesz) 0 (memsz - filesz))
  else pure m

/-- A turn of the loop; `none` for a segment out of bounds. What has been copied may be
among what is read next. -/
def elfTurn (data size : UInt32) (i : Nat) (m : Mem) : Reading (Option Mem) := do
  let phdr ← phdrAt m data i
  let type ← readWord m phdr
  if type ≠ ptLoad then return some m
  let offset ← readWord m (phdr + 4)
  let filesz ← readWord m (phdr + 16)
  if u32 (offset + filesz) > size.toNat then return none
  let vaddr ← readWord m (phdr + 8)
  let m ← memcpy m vaddr (data.toNat + offset) filesz
  let m ← zeroFill m phdr
  return some m

def ePhnum (m : Mem) (data : UInt32) : Reading Nat := readHalf m (data.toNat + 44)

def eEntry (m : Mem) (data : UInt32) : Reading Nat := readWord m (data.toNat + 24)

/-- The loop from `i` on, which has 65535 turns at most. -/
def elfLoop (data size : UInt32) : (left : Nat) → Nat → Mem → Reading (ElfResult × Mem)
  | 0, _, m => do
    let _ ← ePhnum m data
    let entry ← eEntry m data
    return (.loaded entry, m)
  | left + 1, i, m => do
    let phnum ← ePhnum m data
    if i < phnum then
      match ← elfTurn data size i m with
      | some m => elfLoop data size left (i + 1) m
      | none => return (.outOfBounds, m)
    else
      let entry ← eEntry m data
      return (.loaded entry, m)

/-- The result and the memory after it. -/
def elfLoad (m : Mem) (data size : UInt32) : Reading (ElfResult × Mem) := do
  if size.toNat < ehdrSize then return (.tooSmall, m)
  let magic ← readWord m data.toNat
  if magic ≠ elfMagic then return (.badMagic, m)
  let type ← readHalf m (data.toNat + 16)
  if type ≠ etExec then return (.notExecutable, m)
  let machine ← readHalf m (data.toNat + 18)
  if machine ≠ em386 then return (.notExecutable, m)
  elfLoop data size 65535 0 m

end BaSic.Kernel
