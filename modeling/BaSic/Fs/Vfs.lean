import BaSic.Machine

namespace BaSic.Fs

def vfsNameMax : Nat := 64

/-- `VFS_FILE` or `VFS_DIR` -/
inductive NodeKind where
  | file
  | dir
  deriving DecidableEq, Repr

/-- The functions a file system with state `F` hangs on its nodes. -/
structure VfsOps (F N : Type) where
  read : F → N → UInt32 → UInt32 → Except Fault (List UInt8)
  write : F → N → UInt32 → List UInt8 → Except Fault (UInt32 × F)
  finddir : F → N → List UInt8 → Option N

variable {F N : Type} (ops : VfsOps F N) (fs : F)

def vfsRead (node : Option N) (offset size : UInt32) : Except Fault (List UInt8) :=
  match node with
  | none => .ok []
  | some node => ops.read fs node offset size

def vfsWrite (node : Option N) (offset : UInt32) (buf : List UInt8) : Except Fault (UInt32 × F) :=
  match node with
  | none => .ok (0, fs)
  | some node => ops.write fs node offset buf

def vfsFinddir (dir : Option N) (name : List UInt8) : Option N :=
  dir.bind (fun dir => ops.finddir fs dir name)

/-- The character `/`. -/
def slash : UInt8 := 47

/-- The loop of `vfs_resolve`; each round takes at least one character of the path, so its
length is fuel enough. -/
def resolveFrom : Nat → Option N → List UInt8 → Option N
  | 0, cur, _ => cur
  | fuel + 1, cur, path =>
    if path = [] ∨ cur.isNone then cur
    else
      let part := (path.takeWhile (· ≠ slash)).take (vfsNameMax - 1)
      let path := path.drop part.length
      let path := if path.head? = some slash then path.tail else path
      resolveFrom fuel (vfsFinddir ops fs cur part) path

def vfsResolve (fsRoot : Option N) (path : List UInt8) : Option N :=
  if path.head? ≠ some slash then none
  else resolveFrom ops fs path.tail.length fsRoot path.tail

end BaSic.Fs
