import BaSic.Fs.Fd

namespace BaSic.Kernel
open Fs

/-- What the file system calls work on: the descriptors, the root of the tree, and the bytes
put on the screen so far. -/
structure SysState (F N : Type) where
  fds : FdState F N
  fsRoot : Option N
  screen : List UInt8

variable {F N : Type} (ops : VfsOps F N)

def sysWrite (s : SysState F N) (fd : Int) (buf : List UInt8) : Except Fault (Int × SysState F N) :=
  if fd = 1 ∨ fd = 2 then .ok (signedInt (UInt32.ofNat buf.length), { s with screen := s.screen ++ buf })
  else do
    let (n, fds) ← fdWrite ops s.fds fd buf
    .ok (n, { s with fds := fds })

def sysRead (s : SysState F N) (fd : Int) (count : UInt32) : Except Fault ((Int × List UInt8) × SysState F N) := do
  let (r, fds) ← fdRead ops s.fds fd count
  .ok (r, { s with fds := fds })

/-- `sys_open`; the flags are not looked at. -/
def sysOpen (s : SysState F N) (path : List UInt8) : Int × SysState F N :=
  match vfsResolve ops s.fds.fs s.fsRoot path with
  | none => (-1, s)
  | some node =>
    let (fd, fds) := fdOpen s.fds (some node)
    (fd, { s with fds := fds })

def sysClose (s : SysState F N) (fd : Int) : Int × SysState F N := (0, { s with fds := fdClose s.fds fd })

/-- `sys_pipe`: what it returns, and the two descriptors it stores when it succeeds. -/
def sysPipe (s : SysState F N) : (Int × Option (Int × Int)) × SysState F N :=
  match pipeAlloc s.fds with
  | (none, _) => ((-1, none), s)
  | (some p, fds) =>
    let (rfd, fds) := fdOpenPipe fds p false
    let (wfd, fds) := fdOpenPipe fds p true
    if rfd < 0 ∨ wfd < 0 then ((-1, none), { s with fds := fds })
    else ((0, some (rfd, wfd)), { s with fds := fds })

def sysDup2 (s : SysState F N) (oldfd newfd : Int) : Int × SysState F N :=
  let (fd, fds) := fdDup2 s.fds oldfd newfd
  (fd, { s with fds := fds })

def usrHeapBase : UInt32 := 0x700000

def usrHeapMax : UInt32 := 0x800000

/-- `sys_sbrk` on `usr_brk`. -/
def sysSbrk (usrBrk : UInt32) (increment : Int32) : Int × UInt32 :=
  if increment = 0 then (signedInt usrBrk, usrBrk)
  else
    let newBrk := usrBrk + increment.toUInt32
    if newBrk > usrHeapMax then (-1, usrBrk) else (signedInt usrBrk, newBrk)

end BaSic.Kernel
