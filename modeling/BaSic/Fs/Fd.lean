import BaSic.Fs.Vfs
import BaSic.Kernel.Pipe

namespace BaSic.Fs
open Kernel

def fdMax : Nat := 16

instance descriptors_nonempty : NeZero fdMax := ⟨by decide⟩

def pipeMax : Nat := 8

instance pipes_nonempty : NeZero pipeMax := ⟨by decide⟩

structure FdEntry (N : Type) where
  node : Option N
  offset : UInt32
  opened : Bool
  isPipe : Bool
  pipe : Option (Fin pipeMax)
  pipeWriteEnd : Bool

/-- The statics of `fd.c`, over the state of the file system. -/
structure FdState (F N : Type) where
  table : Fin fdMax → FdEntry N
  pool : Fin pipeMax → Pipe
  used : Fin pipeMax → Bool
  fs : F

variable {F N : Type}

def fdInit (fs : F) : FdState F N := ⟨fun _ => ⟨none, 0, false, false, none, false⟩, fun _ => pipeInit, fun _ => false, fs⟩

/-- The slot of a descriptor in range. -/
def fdSlot (fd : Int) : Option (Fin fdMax) :=
  if h : 0 ≤ fd ∧ fd.toNat < fdMax then some ⟨fd.toNat, h.2⟩ else none

/-- The slot of a descriptor in range and open. -/
def openSlot (s : FdState F N) (fd : Int) : Option (Fin fdMax) := (fdSlot fd).filter (fun i => (s.table i).opened)

def FdState.setEntry (s : FdState F N) (i : Fin fdMax) (e : FdEntry N) : FdState F N :=
  { s with table := Function.update s.table i e }

/-- The slot the loops of `fd_open` and `fd_open_pipe` stop at. -/
def freeSlot (s : FdState F N) : Option (Fin fdMax) := (List.finRange fdMax).find? (fun i => !(s.table i).opened)

def fdOpenPipe (s : FdState F N) (p : Fin pipeMax) (writeEnd : Bool) : Int × FdState F N :=
  match freeSlot s with
  | none => (-1, s)
  | some i => (i.val, s.setEntry i ⟨none, 0, true, true, some p, writeEnd⟩)

def pipeAlloc (s : FdState F N) : Option (Fin pipeMax) × FdState F N :=
  match (List.finRange pipeMax).find? (fun p => !s.used p) with
  | none => (none, s)
  | some p => (some p, { s with used := Function.update s.used p true, pool := Function.update s.pool p pipeInit })

/-- `fd_open` leaves `is_pipe`, `pipe` and `pipe_write_end` of the slot as they are. -/
def fdOpen (s : FdState F N) (node : Option N) : Int × FdState F N :=
  match freeSlot s with
  | none => (-1, s)
  | some i => (i.val, s.setEntry i { s.table i with node := node, offset := 0, opened := true })

def fdClose (s : FdState F N) (fd : Int) : FdState F N :=
  match fdSlot fd with
  | none => s
  | some i => s.setEntry i { s.table i with opened := false, node := none, offset := 0 }

def fdDup2 (s : FdState F N) (oldfd newfd : Int) : Int × FdState F N :=
  match openSlot s oldfd, fdSlot newfd with
  | some old, some new =>
    let s := if (s.table new).opened then fdClose s newfd else s
    (newfd, s.setEntry new (s.table old))
  | _, _ => (-1, s)

variable (ops : VfsOps F N)

/-- `(int)n` -/
def signedInt (n : UInt32) : Int := n.toBitVec.toInt

/-- The number returned, and the bytes read. -/
def fdRead (s : FdState F N) (fd : Int) (size : UInt32) : Except Fault ((Int × List UInt8) × FdState F N) :=
  match openSlot s fd with
  | none => .ok ((-1, []), s)
  | some i =>
    let e := s.table i
    if e.isPipe then
      match e.pipe with
      | none => .error (.outOfBounds 0)
      | some p =>
        let (out, pipe) := pipeRead (s.pool p) size.toNat
        .ok ((out.length, out), { s with pool := Function.update s.pool p pipe })
    else do
      let buf ← vfsRead ops s.fs e.node e.offset size
      let n := UInt32.ofNat buf.length
      .ok ((signedInt n, buf), s.setEntry i { e with offset := e.offset + n })

def fdWrite (s : FdState F N) (fd : Int) (buf : List UInt8) : Except Fault (Int × FdState F N) :=
  match openSlot s fd with
  | none => .ok (-1, s)
  | some i =>
    let e := s.table i
    if e.isPipe then
      match e.pipe with
      | none => .error (.outOfBounds 0)
      | some p =>
        let (written, pipe) := pipeWrite (s.pool p) buf
        .ok (written, { s with pool := Function.update s.pool p pipe })
    else do
      let (n, fs) ← vfsWrite ops s.fs e.node e.offset buf
      .ok (signedInt n, { s with fs := fs }.setEntry i { e with offset := e.offset + n })

end BaSic.Fs
