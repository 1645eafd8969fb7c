import BaSic.Kernel.Editor
import BaSic.Kernel.Shell

namespace BaSic.Kernel
open Fs

variable {H : Type}

/-- The characters of one block read, from column `col` of a line on. -/
def loadChunk (s : Editor) (line col : Int) : List UInt8 → Except Fault (Editor × Int × Int)
  | [] => .ok (s, line, col)
  | c :: tmp =>
    if c = 10 then do
      let s ← s.setChar line col 0
      let s ← s.setLen line col
      if line + 1 ≥ edMaxLines then .ok (s, line + 1, 0) else loadChunk s (line + 1) 0 tmp
    else if col < edLineMax then do
      let s ← s.setChar line col c
      loadChunk s line (col + 1) tmp
    else loadChunk s line col tmp

def loadLoop (fs : Ramfs H) (node : Nat) :
    Nat → Editor → Int → Int → UInt32 → Except Fault (Editor × Int × Int)
  | 0, _, _, _, _ => .error .timeout
  | fuel + 1, s, line, col, off => do
    let tmp ← vfsRead ramfsOps fs (some node) off 128
    if tmp = [] ∨ line ≥ edMaxLines then .ok (s, line, col)
    else do
      let (s, line, col) ← loadChunk s line col tmp
      loadLoop fs node fuel s line col (off + UInt32.ofNat tmp.length)

/-- Each round but the last reads at least one byte, so the length of the file is fuel enough. -/
def loadFile (fs : ShellFs H) (path : List UInt8) (s : Editor) : Except Fault Editor :=
  match (vfsResolve ramfsOps fs.fs fs.fsRoot path).filter (fun n => (fs.fs.node n).flags = .file) with
  | none => .ok s
  | some node => do
    let (s, line, _) ← loadLoop fs.fs node ((fs.fs.node node).length.toNat + 1) s 0 0 0
    let len ← s.lenAt line
    let numLines := if len = 0 ∧ line < edMaxLines then (if line = 0 then 1 else line) else line + 1
    .ok { s with numLines := if numLines < 1 then 1 else numLines }

/-- `editor_open` up to its first screen. -/
def editorStart (fs : ShellFs H) (path : List UInt8) (s : Editor) : Except Fault Editor := do
  let s := { bufInit s with filename := path.take 127 }
  let s ← loadFile fs path s
  renderAll s

/-- `last` of `save_file`; it stays at the first character where there is no slash. -/
def lastSlash (path : List UInt8) : Nat :=
  path.zipIdx.foldl (fun last c => if c.1 = slash then c.2 else last) 0

variable (kmalloc : Kmalloc H)

/-- The node of the file, made if there is none; otherwise the message. -/
def saveTarget (fs : ShellFs H) (filename : List UInt8) : Except String Nat × ShellFs H :=
  match vfsResolve ramfsOps fs.fs fs.fsRoot filename with
  | some node => (.ok node, fs)
  | none =>
    let last := lastSlash filename
    let (parent, base) :=
      if last = 0 then (fs.fsRoot, filename.tail)
      else (vfsResolve ramfsOps fs.fs fs.fsRoot (filename.take last), filename.drop (last + 1))
    match parent with
    | none => (.error "save failed: no parent dir", fs)
    | some parent =>
      match ramfsMkfile kmalloc fs.fs (some parent) base with
      | (none, new) => (.error "save failed: could not create file", { fs with fs := new })
      | (some node, new) => (.ok node, { fs with fs := new })

/-- The loop of `save_file`. -/
def saveLines (s : Editor) (node : Nat) : Nat → Ramfs H → Int → UInt32 → Except Fault (Ramfs H)
  | 0, fs, _, _ => .ok fs
  | k + 1, fs, i, off => do
    let len ← s.lenAt i
    let text ← lineText s i 0 len.toNat
    let (n, fs) ← vfsWrite ramfsOps fs (some node) off text
    let off := off + n
    let (_, fs) ← vfsWrite ramfsOps fs (some node) off [10]
    saveLines s node k fs (i + 1) (off + 1)

def saveFile (s : Editor) (fs : ShellFs H) : Except Fault (Editor × ShellFs H) :=
  match saveTarget kmalloc fs s.filename with
  | (.error msg, fs) => .ok ({ s with msg := msg }, fs)
  | (.ok node, fs) => do
    let new := fs.fs.setNode node { fs.fs.node node with length := 0 }
    let new ← saveLines s node s.numLines.toNat new 0 0
    .ok ({ s with modified := false, msg := "file saved." }, { fs with fs := new })

/-- A key, Ctrl-S included. -/
def editorKey (s : Editor × ShellFs H) (key : EdKey) : Except Fault (Editor × ShellFs H) :=
  if key.code = 19 then do
    let s ← saveFile kmalloc s.1 s.2
    let _ ← renderAll s.1
    .ok s
  else do
    let ed ← edKey s.1 key
    .ok (ed, s.2)

/-- The keys up to Ctrl-Q. -/
def editorLoop : Editor × ShellFs H → List EdKey → Except Fault (Editor × ShellFs H)
  | s, [] => .ok s
  | s, key :: keys =>
    if key.code = 17 then .ok s
    else do
      let s ← editorKey kmalloc s key
      editorLoop s keys

end BaSic.Kernel
