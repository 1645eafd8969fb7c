import BaSic.Machine

namespace BaSic.Mm

def kernelEnd : Nat := 0x200000

def pmmFrameSize : Nat := 4096

inductive PmmMessage where
  | ready (mb frames : Nat)

/-- The statics of the frame allocator; the bitmap is the memory at `BITMAP_ADDR`. -/
structure Pmm where
  bitmap : Nat → BitVec 32
  totalFrames : Nat
  freeFrames : Nat
  bitmapWords : Nat
  printed : List PmmMessage

def bitmapSet (bitmap : Nat → BitVec 32) (frame : Nat) : Nat → BitVec 32 :=
  Function.update bitmap (frame / 32) (bitmap (frame / 32) ||| (1#32 <<< (frame % 32)))

def bitmapClear (bitmap : Nat → BitVec 32) (frame : Nat) : Nat → BitVec 32 :=
  Function.update bitmap (frame / 32) (bitmap (frame / 32) &&& ~~~(1#32 <<< (frame % 32)))

def bitmapTest (bitmap : Nat → BitVec 32) (frame : Nat) : BitVec 32 :=
  (bitmap (frame / 32) >>> (frame % 32)) &&& 1

/-- The loop of `pmm_init` over the frames above the kernel. -/
def freeFrom (p : Pmm) (f : Nat) : Nat → Pmm
  | 0 => p
  | left + 1 =>
    freeFrom { p with bitmap := bitmapClear p.bitmap f, freeFrames := u32 (p.freeFrames + 1) } (f + 1) left

/-- `pmm_init` over whatever the bitmap's memory held. -/
def pmmInit (bitmap : Nat → BitVec 32) (memKb : Nat) : Pmm :=
  let totalFrames := u32 (memKb * 1024) / pmmFrameSize
  let bitmapWords := (totalFrames + 31) / 32
  let bitmap := fun i => if i < bitmapWords then 0xFFFFFFFF else bitmap i
  let firstFree := kernelEnd / pmmFrameSize
  let p := freeFrom ⟨bitmap, totalFrames, 0, bitmapWords, []⟩ firstFree (totalFrames - firstFree)
  { p with printed := [.ready (memKb / 1024) p.freeFrames] }

/-- The loop of `pmm_alloc` over the bits of word `i`, `left` of which are to come. -/
def allocBits (p : Pmm) (i : Nat) : Nat → Option (Nat × Pmm)
  | 0 => none
  | left + 1 =>
    let frame := i * 32 + (31 - left)
    if frame ≥ p.totalFrames then some (0, p)
    else if bitmapTest p.bitmap frame = 0 then
      some (u32 (frame * pmmFrameSize),
        { p with bitmap := bitmapSet p.bitmap frame, freeFrames := sub32 p.freeFrames 1 })
    else allocBits p i left

/-- The loop of `pmm_alloc` over the last `left` words. -/
def allocWords (p : Pmm) : Nat → Nat × Pmm
  | 0 => (0, p)
  | left + 1 =>
    let i := p.bitmapWords - (left + 1)
    if p.bitmap i = 0xFFFFFFFF then allocWords p left
    else match allocBits p i 32 with
      | some result => result
      | none => allocWords p left

def pmmAlloc (p : Pmm) : Nat × Pmm := allocWords p p.bitmapWords

def pmmFree (p : Pmm) (addr : Nat) : Pmm :=
  let frame := addr / pmmFrameSize
  if frame ≥ p.totalFrames then p
  else { p with bitmap := bitmapClear p.bitmap frame, freeFrames := u32 (p.freeFrames + 1) }

def pmmFreeFrames (p : Pmm) : Nat := p.freeFrames

def pmmTotalFrames (p : Pmm) : Nat := p.totalFrames

end BaSic.Mm
