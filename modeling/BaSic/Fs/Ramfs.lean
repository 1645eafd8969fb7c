import BaSic.Fs.Vfs

namespace BaSic.Fs

def maxChildren : Nat := 32

def ramfsMaxFilesize : Nat := 4096

/-- `sizeof(vfs_node_t)` -/
def nodeSize : Nat := 92

/-- `sizeof(ramfs_data_t)` -/
def dataSize : Nat := 140

/-- A node together with the data its `inode` points to; the capacity is the length of `buf`. -/
structure Node where
  name : List UInt8
  flags : NodeKind
  length : UInt32
  buf : Option (List UInt8)
  children : List Nat
  parent : Option Nat

/-- Nodes are never freed, so each has a number of its own, in the order of creation. -/
structure Ramfs (H : Type) where
  node : Nat → Node
  next : Nat
  heap : H

variable {H : Type}

/-- The file system before any node is made. -/
def emptyRamfs (heap : H) : Ramfs H := ⟨fun _ => ⟨[], .file, 0, none, [], none⟩, 0, heap⟩

def Ramfs.setNode (fs : Ramfs H) (i : Nat) (node : Node) : Ramfs H :=
  { fs with node := Function.update fs.node i node }

def ramfsRead (fs : Ramfs H) (i : Nat) (offset size : UInt32) : Except Fault (List UInt8) :=
  match (fs.node i).buf with
  | none => .ok []
  | some buf =>
    if offset ≥ UInt32.ofNat buf.length then .ok []
    else if offset ≥ (fs.node i).length then .ok []
    else
      let size := if offset + size > (fs.node i).length then (fs.node i).length - offset else size
      if offset.toNat + size.toNat ≤ buf.length then .ok ((buf.drop offset.toNat).take size.toNat)
      else .error (.outOfBounds (offset.toNat + size.toNat))

def ramfsWrite (fs : Ramfs H) (i : Nat) (offset : UInt32) (src : List UInt8) : Except Fault (UInt32 × Ramfs H) :=
  match (fs.node i).buf with
  | none => .ok (0, fs)
  | some buf =>
    let capacity := UInt32.ofNat buf.length
    let size := UInt32.ofNat src.length
    let size := if offset + size > capacity then capacity - offset else size
    if offset.toNat + size.toNat ≤ buf.length ∧ size.toNat ≤ src.length then
      let buf := buf.take offset.toNat ++ src.take size.toNat ++ buf.drop (offset.toNat + size.toNat)
      let length := if offset + size > (fs.node i).length then offset + size else (fs.node i).length
      .ok (size, fs.setNode i { fs.node i with buf := some buf, length := length })
    else .error (.outOfBounds (offset.toNat + size.toNat))

def ramfsFinddir (fs : Ramfs H) (dir : Nat) (name : List UInt8) : Option Nat :=
  (fs.node dir).children.find? (fun i => (fs.node i).name == name)

def ramfsOps : VfsOps (Ramfs H) Nat := ⟨ramfsRead, ramfsWrite, ramfsFinddir⟩

/-- What `strncpy` with `VFS_NAME_MAX - 1` leaves of a name in a node. -/
def storedName (name : List UInt8) : List UInt8 := name.take (vfsNameMax - 1)

/-- Whether there was a block of the size left, and the heap afterwards. -/
abbrev Kmalloc (H : Type) := H → Nat → Bool × H

variable (kmalloc : Kmalloc H)

def makeNode (fs : Ramfs H) (name : List UInt8) (flags : NodeKind) : Option Nat × Ramfs H :=
  let (node, heap) := kmalloc fs.heap nodeSize
  let (data, heap) := kmalloc heap dataSize
  if !node || !data then (none, { fs with heap := heap })
  else
    match flags with
    | .dir =>
      let fs := { fs with next := fs.next + 1, heap := heap }
      (some (fs.next - 1), fs.setNode (fs.next - 1) ⟨storedName name, .dir, 0, none, [], none⟩)
    | .file =>
      let (ok, heap) := kmalloc heap ramfsMaxFilesize
      let buf : Option (List UInt8) := if ok then some (List.replicate ramfsMaxFilesize 0) else none
      let fs := { fs with next := fs.next + 1, heap := heap }
      (some (fs.next - 1), fs.setNode (fs.next - 1) ⟨storedName name, .file, 0, buf, [], none⟩)

def addChild (fs : Ramfs H) (parent child : Nat) : Ramfs H :=
  if (fs.node parent).children.length ≥ maxChildren then fs
  else
    let fs := fs.setNode child { fs.node child with parent := some parent }
    fs.setNode parent { fs.node parent with children := (fs.node parent).children ++ [child] }

/-- `ramfs_mkdir` and `ramfs_mkfile`, which differ in the flags alone. -/
def ramfsMake (fs : Ramfs H) (parent : Option Nat) (name : List UInt8) (flags : NodeKind) :
    Option Nat × Ramfs H :=
  match makeNode kmalloc fs name flags, parent with
  | (some node, fs), some parent => (some node, addChild fs parent node)
  | (node, fs), _ => (node, fs)

def ramfsMkdir (fs : Ramfs H) (parent : Option Nat) (name : List UInt8) : Option Nat × Ramfs H :=
  ramfsMake kmalloc fs parent name .dir

def ramfsMkfile (fs : Ramfs H) (parent : Option Nat) (name : List UInt8) : Option Nat × Ramfs H :=
  ramfsMake kmalloc fs parent name .file

/-- The bytes of a string literal. -/
def bytes (s : String) : List UInt8 := s.toUTF8.toList

def motdText : List UInt8 := bytes "welcome to baSic_ v1.0\nby Shahriar Dhrubo\n"

/-- The text goes into `/etc/motd`; it is short and the file new, so the write succeeds. -/
def writeMotd (fs : Ramfs H) (motd : Option Nat) : Ramfs H :=
  match motd with
  | none => fs
  | some motd =>
    match ramfsWrite fs motd 0 motdText with
    | .ok (_, fs) => fs
    | .error _ => fs

def ramfsInit (fs : Ramfs H) : Option Nat × Ramfs H :=
  match makeNode kmalloc fs (bytes "/") .dir with
  | (none, fs) => (none, fs)
  | (some root, fs) =>
    let (etc, fs) := ramfsMkdir kmalloc fs (some root) (bytes "etc")
    let (_, fs) := ramfsMkdir kmalloc fs (some root) (bytes "dev")
    let (motd, fs) := ramfsMkfile kmalloc fs etc (bytes "motd")
    (some root, writeMotd fs motd)

/-- A heap that always has a block left. -/
def everyBlock : Kmalloc Unit := fun heap _ => (true, heap)

def bootRamfs : Ramfs Unit := (ramfsInit everyBlock (emptyRamfs ())).2

/-- The nodes after the start: `/` with `etc` and `dev`, and `motd` with its text in `etc`. -/
def bootNode : Nat → Node
  | 0 => ⟨[47], .dir, 0, none, [1, 2], none⟩
  | 1 => ⟨[101, 116, 99], .dir, 0, none, [3], some 0⟩
  | 2 => ⟨[100, 101, 118], .dir, 0, none, [], some 0⟩
  | 3 => ⟨[109, 111, 116, 100], .file, 42, some (motdText ++ List.replicate 4054 0), [], some 1⟩
  | _ => ⟨[], .file, 0, none, [], none⟩

theorem motd_length : motdText.length = 42 := congrArg List.length (utf8_of_chars _)

theorem motd_path : bytes "/etc/motd" = [47, 101, 116, 99, 47, 109, 111, 116, 100] := utf8_of_chars _

/-- Stated once, because an evaluation of `ramfsInit` fills the buffer of 4096 bytes anew each time. -/
theorem init_every_block : ramfsInit everyBlock (emptyRamfs ()) = (some 0, ⟨bootNode, 4, ()⟩) := by
  have hroot : bytes "/" = [47] := utf8_of_chars _
  have hetc : bytes "etc" = [101, 116, 99] := utf8_of_chars _
  have hdev : bytes "dev" = [100, 101, 118] := utf8_of_chars _
  have hmotd : bytes "motd" = [109, 111, 116, 100] := utf8_of_chars _
  have htake : motdText.take 42 = motdText := List.take_of_length_le (Nat.le_of_eq motd_length)
  simp [ramfsInit, makeNode, everyBlock, ramfsMkdir, ramfsMkfile, ramfsMake, addChild, emptyRamfs, Ramfs.setNode,
    storedName, vfsNameMax, ramfsMaxFilesize, maxChildren, writeMotd, ramfsWrite, hroot, hetc, hdev, hmotd, htake,
    motd_length, -List.reduceReplicate]
  funext i
  rcases i with _ | _ | _ | _ | i <;> simp [bootNode, Function.update, -List.reduceReplicate]

theorem boot_ramfs_eq : bootRamfs = ⟨bootNode, 4, ()⟩ := congrArg Prod.snd init_every_block

end BaSic.Fs
