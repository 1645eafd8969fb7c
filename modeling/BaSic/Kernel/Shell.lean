import BaSic.Fs.Ramfs

namespace BaSic.Kernel
open Fs

variable {H : Type}

/-- The file system the shell works on: `fs_root` and the nodes. -/
structure ShellFs (H : Type) where
  fs : Ramfs H
  fsRoot : Option Nat

/-- `vfs_init`, `ramfs_init` and `vfs_set_root` -/
def mountRamfs (kmalloc : Kmalloc H) (heap : H) : ShellFs H :=
  let (root, fs) := ramfsInit kmalloc (emptyRamfs heap)
  ⟨fs, root⟩

theorem mount_eq : mountRamfs everyBlock () = ⟨⟨bootNode, 4, ()⟩, some 0⟩ := by
  simp only [mountRamfs, init_every_block]

/-- `/etc/motd` is node 3, a file with a whole buffer. -/
theorem motd_resolves :
    vfsResolve ramfsOps (mountRamfs everyBlock ()).fs (mountRamfs everyBlock ()).fsRoot (bytes "/etc/motd") = some 3 := by
  rw [mount_eq, motd_path]
  decide

theorem motd_flags : ((mountRamfs everyBlock ()).fs.node 3).flags = .file := by
  rw [mount_eq]
  decide

theorem motd_buffer : ∃ buf, ((mountRamfs everyBlock ()).fs.node 3).buf = some buf ∧ buf.length = ramfsMaxFilesize := by
  rw [mount_eq]
  exact ⟨_, rfl, by rw [List.length_append, List.length_replicate, motd_length]; rfl⟩

/-- `vfs_resolve(cwd)` -/
def cwdNode (s : ShellFs H) (cwd : List UInt8) : Option Nat := vfsResolve ramfsOps s.fs s.fsRoot cwd

/-- The loop of `cmd_rm` and `cmd_mv` that shifts the later children down over one. -/
def unlinkChild (fs : Ramfs H) (parent node : Nat) : Ramfs H :=
  fs.setNode parent { fs.node parent with children := (fs.node parent).children.erase node }

variable (kmalloc : Kmalloc H)

def cmdMkdir (s : ShellFs H) (cwd name : List UInt8) : String × ShellFs H :=
  if name = [] then ("usage: mkdir <n>", s)
  else
    match cwdNode s cwd with
    | none => ("mkdir: bad cwd", s)
    | some parent =>
      match ramfsMkdir kmalloc s.fs (some parent) name with
      | (none, fs) => ("mkdir: failed", { s with fs := fs })
      | (some _, fs) => ("OK", { s with fs := fs })

def cmdTouch (s : ShellFs H) (cwd name : List UInt8) : String × ShellFs H :=
  if name = [] then ("usage: touch <file>", s)
  else
    match cwdNode s cwd with
    | none => ("touch: bad cwd", s)
    | some parent =>
      match ramfsFinddir s.fs parent name with
      | some _ => ("touch: already exists", s)
      | none =>
        match ramfsMkfile kmalloc s.fs (some parent) name with
        | (none, fs) => ("touch: failed", { s with fs := fs })
        | (some _, fs) => ("OK", { s with fs := fs })

/-- A node of the name in the directory, or a new file. -/
def findOrMake (fs : Ramfs H) (dir : Nat) (name : List UInt8) : Option Nat × Ramfs H :=
  match ramfsFinddir fs dir name with
  | some node => (some node, fs)
  | none => ramfsMkfile kmalloc fs (some dir) name

def cmdWrite (s : ShellFs H) (cwd fname data : List UInt8) : Except Fault String × ShellFs H :=
  if fname = [] then (.ok "usage: write <n> <text>", s)
  else
    match cwdNode s cwd with
    | none => (.ok "write: bad cwd", s)
    | some parent =>
      match findOrMake kmalloc s.fs parent fname with
      | (none, fs) => (.ok "write: failed", { s with fs := fs })
      | (some node, fs) =>
        match vfsWrite ramfsOps fs (some node) 0 data with
        | .error e => (.error e, { s with fs := fs })
        | .ok (_, fs) => (.ok "OK", { s with fs := fs })

def cmdRm (s : ShellFs H) (cwd name : List UInt8) : String × ShellFs H :=
  if name = [] then ("usage: rm <file>", s)
  else
    match cwdNode s cwd with
    | none => ("rm: bad cwd", s)
    | some parent =>
      match ramfsFinddir s.fs parent name with
      | none => ("rm: not found", s)
      | some node =>
        if (s.fs.node node).flags = .dir then ("rm: is a directory", s)
        else ("OK", { s with fs := unlinkChild s.fs parent node })

/-- The second half of `cmd_mv` into a directory, the node being unlinked already. -/
def linkInto (fs : Ramfs H) (node dstdir : Nat) : Ramfs H :=
  let fs := fs.setNode dstdir { fs.node dstdir with children := (fs.node dstdir).children ++ [node] }
  fs.setNode node { fs.node node with parent := some dstdir }

def cmdMv (s : ShellFs H) (cwd src dst : List UInt8) : String × ShellFs H :=
  if src = [] ∨ dst = [] then ("usage: mv <src> <dst>", s)
  else
    match cwdNode s cwd with
    | none => ("mv: bad cwd", s)
    | some parent =>
      match ramfsFinddir s.fs parent src with
      | none => ("mv: src not found", s)
      | some node =>
        match (ramfsFinddir s.fs parent dst).filter (fun d => (s.fs.node d).flags = .dir) with
        | some dstdir =>
          let fs := unlinkChild s.fs parent node
          if (fs.node dstdir).children.length < maxChildren then ("OK", { s with fs := linkInto fs node dstdir })
          else ("mv: dst dir full", { s with fs := fs })
        | none => ("OK", { s with fs := s.fs.setNode node { s.fs.node node with name := storedName dst } })

/-- The loop of `cmd_cp`: blocks of 128 bytes until one is empty. -/
def copyLoop (snode dnode : Nat) : Nat → Ramfs H → UInt32 → Except Fault Unit × Ramfs H
  | 0, fs, _ => (.error .timeout, fs)
  | fuel + 1, fs, off =>
    match vfsRead ramfsOps fs (some snode) off 128 with
    | .error e => (.error e, fs)
    | .ok [] => (.ok (), fs)
    | .ok tmp =>
      match vfsWrite ramfsOps fs (some dnode) off tmp with
      | .error e => (.error e, fs)
      | .ok (_, fs) => copyLoop snode dnode fuel fs (off + UInt32.ofNat tmp.length)

/-- Each round but the last copies at least one byte, so the length of the source is fuel enough. -/
def copyFile (fs : Ramfs H) (snode dnode : Nat) : Except Fault Unit × Ramfs H :=
  let fs := fs.setNode dnode { fs.node dnode with length := 0 }
  copyLoop snode dnode ((fs.node snode).length.toNat + 1) fs 0

/-- The second half of `cmd_cp`, once the node to copy to has been looked for and made. -/
def cpInto (s : ShellFs H) (snode : Nat) (dnode : Option Nat) (fs : Ramfs H) : Except Fault String × ShellFs H :=
  match dnode with
  | none => (.ok "cp: failed to create dst", { s with fs := fs })
  | some dnode =>
    match copyFile fs snode dnode with
    | (.error e, fs) => (.error e, { s with fs := fs })
    | (.ok _, fs) => (.ok "OK", { s with fs := fs })

def cmdCp (s : ShellFs H) (cwd src dst : List UInt8) : Except Fault String × ShellFs H :=
  if src = [] ∨ dst = [] then (.ok "usage: cp <src> <dst>", s)
  else
    match cwdNode s cwd with
    | none => (.ok "cp: bad cwd", s)
    | some parent =>
      match (ramfsFinddir s.fs parent src).filter (fun n => (s.fs.node n).flags = .file) with
      | none => (.ok "cp: src not found", s)
      | some snode =>
        let (dnode, fs) :=
          match (ramfsFinddir s.fs parent dst).filter (fun d => (s.fs.node d).flags = .dir) with
          | some dstdir => findOrMake kmalloc s.fs dstdir src
          | none => findOrMake kmalloc s.fs parent dst
        cpInto s snode dnode fs

/-- The loop of `cmd_cat`: blocks of 127 bytes until one is empty, so that a NUL goes behind each. -/
def catLoop (fs : Ramfs H) (node : Nat) : Nat → UInt32 → Except Fault (List UInt8)
  | 0, _ => .error .timeout
  | fuel + 1, off => do
    let buf ← vfsRead ramfsOps fs (some node) off 127
    if buf = [] then .ok []
    else do
      let rest ← catLoop fs node fuel (off + UInt32.ofNat buf.length)
      .ok (buf ++ rest)

/-- Each round but the last reads at least one byte, so the length of the file is fuel enough. -/
def catFile (fs : Ramfs H) (node : Nat) : Except Fault (List UInt8) :=
  catLoop fs node ((fs.node node).length.toNat + 1) 0

def vfsPathMax : Nat := 256

/-- What an array of `VFS_PATH_MAX` characters holds. -/
structure PathStr where
  chars : List UInt8
  fits : chars.length < vfsPathMax

/-- `strncpy(out, path, VFS_PATH_MAX - 1); out[VFS_PATH_MAX - 1] = '\0'` -/
def cutPath (path : List UInt8) : PathStr :=
  ⟨path.take (vfsPathMax - 1), Nat.lt_of_le_of_lt (List.length_take_le _ _) (by decide)⟩

def rootPath : PathStr := ⟨[slash], by decide⟩

def emptyPath : PathStr := ⟨[], by decide⟩

/-- A slash goes between the two unless there is one, or no space for it. -/
def withSlash (out : PathStr) (last : UInt8) : PathStr :=
  if h : out.chars.length < vfsPathMax - 2 ∧ last ≠ slash then
    ⟨out.chars ++ [slash], by
      rw [List.length_append, List.length_singleton]
      exact Nat.lt_of_le_of_lt h.1 (by decide)⟩
  else out

/-- The second `strncpy` of `make_full`, which has what is left of the array. -/
def appendPath (out : PathStr) (path : List UInt8) : PathStr :=
  ⟨out.chars ++ path.take (vfsPathMax - out.chars.length - 1), by
    have hfits := out.fits
    rw [List.length_append, List.length_take]
    omega⟩

/-- The last character of an empty working directory is looked for before the array. -/
def makeFull (cwd : PathStr) (path : List UInt8) : Except Fault PathStr :=
  if path.head? = some slash then .ok (cutPath path)
  else
    match cwd.chars.getLast? with
    | none => .error (.outOfBounds 0)
    | some last => .ok (appendPath (withSlash cwd last) path)

/-- The shell with `cwd` and `prev_cwd`. -/
structure Shell (H : Type) where
  files : ShellFs H
  cwd : PathStr
  prevCwd : PathStr

/-- The directory a path leads to. -/
def dirAt (s : ShellFs H) (path : List UInt8) : Option Nat :=
  (cwdNode s path).filter (fun node => (s.fs.node node).flags = .dir)

/-- The file a path leads to. -/
def fileAt (s : ShellFs H) (path : List UInt8) : Option Nat :=
  (cwdNode s path).filter (fun node => (s.fs.node node).flags = .file)

/-- The `-` that `cd` takes for the previous directory. -/
def minus : UInt8 := 45

/-- `strncpy(cwd, "/", VFS_PATH_MAX)` pads one character too far, which is the first of
`prev_cwd` if that array comes next. -/
def cmdCd (prevNext : Bool) (s : Shell H) (path : List UInt8) : Except Fault (List UInt8) × Shell H :=
  if path = [] then (.ok [slash], { s with cwd := rootPath, prevCwd := if prevNext then emptyPath else s.prevCwd })
  else if path = [minus] then (.ok s.prevCwd.chars, { s with cwd := s.prevCwd, prevCwd := s.cwd })
  else
    match makeFull s.cwd path with
    | .error e => (.error e, s)
    | .ok full =>
      match dirAt s.files full.chars with
      | none => (.ok (bytes "cd: no such directory"), s)
      | some _ => (.ok [], { s with prevCwd := s.cwd, cwd := full })

end BaSic.Kernel
