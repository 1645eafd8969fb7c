import Mathlib

namespace BaSic.Kernel

def pipeBufSize : Nat := 512

instance pipe_cells_nonempty : NeZero pipeBufSize := ⟨by decide⟩

structure Pipe where
  buf : Fin pipeBufSize → UInt8
  readPos : Fin pipeBufSize
  writePos : Fin pipeBufSize
  count : Nat

def pipeInit : Pipe := ⟨fun _ => 0, 0, 0, 0⟩

def pipeWrite (p : Pipe) : List UInt8 → Nat × Pipe
  | [] => (0, p)
  | byte :: data =>
    if p.count < pipeBufSize then
      let p := { p with
        buf := Function.update p.buf p.writePos byte, writePos := p.writePos + 1, count := p.count + 1 }
      let (written, p) := pipeWrite p data
      (written + 1, p)
    else (0, p)

/-- The bytes stored in `out`, as many as `pipe_read` returns. -/
def pipeRead (p : Pipe) : Nat → List UInt8 × Pipe
  | 0 => ([], p)
  | max + 1 =>
    if p.count > 0 then
      let byte := p.buf p.readPos
      let (out, p) := pipeRead { p with readPos := p.readPos + 1, count := p.count - 1 } max
      (byte :: out, p)
    else ([], p)

end BaSic.Kernel
