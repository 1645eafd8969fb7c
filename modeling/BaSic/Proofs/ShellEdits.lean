import BaSic.Kernel.Shell
import BaSic.Lib.Forest

namespace BaSic.Proofs.ShellEdits
open Kernel Fs Lib

inductive ShellCmd where
  | mkdir (name : List UInt8)
  | touch (name : List UInt8)
  | write (fname data : List UInt8)
  | cp (src dst : List UInt8)
  | mv (src dst : List UInt8)
  | rm (name : List UInt8)

variable {H : Type}

/-- A command given in a working directory, with what the shell prints. -/
def shellStep (kmalloc : Kmalloc H) (s : ShellFs H) (cwd : List UInt8) :
    ShellCmd → Except Fault String × ShellFs H
  | .mkdir name => (.ok (cmdMkdir kmalloc s cwd name).1, (cmdMkdir kmalloc s cwd name).2)
  | .touch name => (.ok (cmdTouch kmalloc s cwd name).1, (cmdTouch kmalloc s cwd name).2)
  | .write fname data => cmdWrite kmalloc s cwd fname data
  | .cp src dst => cmdCp kmalloc s cwd src dst
  | .mv src dst => (.ok (cmdMv s cwd src dst).1, (cmdMv s cwd src dst).2)
  | .rm name => (.ok (cmdRm s cwd name).1, (cmdRm s cwd name).2)

/-- What a command does to the tree, if there is memory and space in the directory for it. -/
inductive Edit where
  | none
  | make (parent : Nat) (name : List UInt8) (flags : NodeKind)
  | unlink (parent node : Nat)
  | rename (parent node : Nat) (name : List UInt8)
  | move (parent node dstdir : Nat)

/-- The directory of the name in the directory. -/
def subdir (fs : Ramfs H) (dir : Nat) (name : List UInt8) : Option Nat :=
  (ramfsFinddir fs dir name).filter (fun d => (fs.node d).flags = .dir)

/-- Making a file of a name unless it is there. -/
def makeIfNew (fs : Ramfs H) (dir : Nat) (name : List UInt8) : Edit :=
  match ramfsFinddir fs dir name with
  | some _ => .none
  | none => .make dir name .file

def copyEdit (fs : Ramfs H) (parent : Nat) (src dst : List UInt8) : Edit :=
  match (ramfsFinddir fs parent src).filter (fun n => (fs.node n).flags = .file) with
  | none => .none
  | some _ =>
    match subdir fs parent dst with
    | some dstdir => makeIfNew fs dstdir src
    | none => makeIfNew fs parent dst

def moveEdit (fs : Ramfs H) (parent : Nat) (src dst : List UInt8) : Edit :=
  match ramfsFinddir fs parent src with
  | none => .none
  | some node =>
    match subdir fs parent dst with
    | some dstdir => .move parent node dstdir
    | none => .rename parent node dst

def removeEdit (fs : Ramfs H) (parent : Nat) (name : List UInt8) : Edit :=
  match ramfsFinddir fs parent name with
  | none => .none
  | some node => if (fs.node node).flags = .dir then .none else .unlink parent node

/-- The edit a command asks for in the directory it is given in. -/
def editIn (fs : Ramfs H) (parent : Nat) : ShellCmd → Edit
  | .mkdir name => if name = [] then .none else .make parent name .dir
  | .touch name => if name = [] then .none else makeIfNew fs parent name
  | .write fname _ => if fname = [] then .none else makeIfNew fs parent fname
  | .cp src dst => if src = [] ∨ dst = [] then .none else copyEdit fs parent src dst
  | .mv src dst => if src = [] ∨ dst = [] then .none else moveEdit fs parent src dst
  | .rm name => if name = [] then .none else removeEdit fs parent name

def editOf (s : ShellFs H) (cwd : List UInt8) (cmd : ShellCmd) : Edit :=
  match cwdNode s cwd with
  | none => .none
  | some parent => editIn s.fs parent cmd

/-- The file system after an edit. -/
def applyEdit (kmalloc : Kmalloc H) (fs : Ramfs H) : Edit → Ramfs H
  | .none => fs
  | .make parent name flags => (ramfsMake kmalloc fs (some parent) name flags).2
  | .unlink parent node => unlinkChild fs parent node
  | .rename _ node name => fs.setNode node { fs.node node with name := storedName name }
  | .move parent node dstdir =>
    if ((unlinkChild fs parent node).node dstdir).children.length < maxChildren then
      linkInto (unlinkChild fs parent node) node dstdir
    else unlinkChild fs parent node

/-- The two agree on everything but the contents of files. -/
structure SameTree (fs gs : Ramfs H) : Prop where
  next : gs.next = fs.next
  name : ∀ n, (gs.node n).name = (fs.node n).name
  children : ∀ n, (gs.node n).children = (fs.node n).children
  parent : ∀ n, (gs.node n).parent = (fs.node n).parent

/-- Also, the heap is the same, and the nodes have the same blocks. -/
structure OnlyContents (fs gs : Ramfs H) : Prop extends SameTree fs gs where
  heap : gs.heap = fs.heap
  flags : ∀ n, (gs.node n).flags = (fs.node n).flags
  buf : ∀ n, (gs.node n).buf.isSome = (fs.node n).buf.isSome

variable {kmalloc : Kmalloc H} {fs gs hs : Ramfs H} {s : ShellFs H} {n : Nat} {cwd : List UInt8}

theorem same_tree (fs : Ramfs H) : SameTree fs fs := ⟨rfl, fun _ => rfl, fun _ => rfl, fun _ => rfl⟩

theorem SameTree.trans (h : SameTree fs gs) (h' : SameTree gs hs) : SameTree fs hs :=
  ⟨h'.next.trans h.next, fun n => (h'.name n).trans (h.name n), fun n => (h'.children n).trans (h.children n),
    fun n => (h'.parent n).trans (h.parent n)⟩

theorem only_contents (fs : Ramfs H) : OnlyContents fs fs := ⟨same_tree fs, rfl, fun _ => rfl, fun _ => rfl⟩

theorem only_contents_of_eq (h : gs = fs) : OnlyContents fs gs := h ▸ only_contents fs

theorem OnlyContents.trans (h : OnlyContents fs gs) (h' : OnlyContents gs hs) : OnlyContents fs hs :=
  ⟨h.toSameTree.trans h'.toSameTree, h'.heap.trans h.heap, fun n => (h'.flags n).trans (h.flags n),
    fun n => (h'.buf n).trans (h.buf n)⟩

@[simp] theorem set_node_self (fs : Ramfs H) (n : Nat) (node : Node) : (fs.setNode n node).node n = node :=
  Function.update_self ..

theorem set_node_ne (fs : Ramfs H) (node : Node) {m : Nat} (h : m ≠ n) :
    (fs.setNode n node).node m = fs.node m := Function.update_of_ne h ..

/-- What the new node has in common with the old one is as before everywhere. -/
theorem set_node_congr {β : Type} (f : Node → β) (node : Node) (hf : f node = f (fs.node n)) (m : Nat) :
    f ((fs.setNode n node).node m) = f (fs.node m) := by
  by_cases hm : m = n
  · rw [hm, set_node_self]
    exact hf
  · rw [set_node_ne fs node hm]

/-- Adding a child changes the links of two nodes alone. -/
theorem add_child_congr {β : Type} (f : Node → β)
    (hf : ∀ node children parent, f { node with children := children, parent := parent } = f node)
    (fs : Ramfs H) (p c m : Nat) : f ((addChild fs p c).node m) = f (fs.node m) := by
  unfold addChild
  split
  · rfl
  · exact (set_node_congr f _ (hf _ _ _) m).trans (set_node_congr f _ (hf _ _ _) m)

theorem add_child_rest (fs : Ramfs H) (p c : Nat) :
    (addChild fs p c).heap = fs.heap ∧ (addChild fs p c).next = fs.next := by
  unfold addChild
  split
  · exact ⟨rfl, rfl⟩
  · exact ⟨rfl, rfl⟩

/-- What a new node comes with, and adding a child keeps, the two functions that make a node leave. -/
theorem ramfs_make_rule {P : Option Nat → Ramfs H → Prop} {parent : Option Nat} {name : List UInt8} {flags : NodeKind}
    (hnode : P (makeNode kmalloc fs name flags).1 (makeNode kmalloc fs name flags).2)
    (hchild : ∀ gs p node, P (some node) gs → P (some node) (addChild gs p node)) :
    P (ramfsMake kmalloc fs parent name flags).1 (ramfsMake kmalloc fs parent name flags).2 := by
  unfold ramfsMake
  cases hmake : makeNode kmalloc fs name flags with
  | mk node gs =>
    rw [hmake] at hnode
    cases node with
    | none => exact hnode
    | some node =>
      cases parent with
      | none => exact hnode
      | some p => exact hchild gs p node hnode

/-- Changing the contents of a node leaves the tree as it is. -/
theorem same_tree_set (node : Node) (hname : node.name = (fs.node n).name)
    (hchildren : node.children = (fs.node n).children) (hparent : node.parent = (fs.node n).parent) :
    SameTree fs (fs.setNode n node) :=
  ⟨rfl, set_node_congr Node.name node hname, set_node_congr Node.children node hchildren,
    set_node_congr Node.parent node hparent⟩

theorem only_contents_set (node : Node) (h : SameTree fs (fs.setNode n node)) (hflags : node.flags = (fs.node n).flags)
    (hbuf : node.buf.isSome = (fs.node n).buf.isSome) : OnlyContents fs (fs.setNode n node) :=
  ⟨h, rfl, set_node_congr Node.flags node hflags, set_node_congr (fun m => m.buf.isSome) node hbuf⟩

theorem write_only_contents {offset k : UInt32} {src : List UInt8}
    (h : vfsWrite ramfsOps fs (some n) offset src = .ok (k, gs)) : OnlyContents fs gs := by
  unfold vfsWrite ramfsOps ramfsWrite at h
  dsimp only at h
  cases hb : (fs.node n).buf with
  | none =>
    rw [hb] at h
    cases h
    exact only_contents fs
  | some buf =>
    rw [hb] at h
    dsimp only at h
    split_ifs at h
    all_goals
      cases h
      exact only_contents_set _ (same_tree_set _ rfl rfl rfl) rfl (congrArg Option.isSome hb).symm

theorem copy_loop_only_contents (snode dnode fuel : Nat) (fs : Ramfs H) (off : UInt32) :
    OnlyContents fs (copyLoop snode dnode fuel fs off).2 := by
  induction fuel generalizing fs off with
  | zero => exact only_contents fs
  | succ fuel ih =>
    unfold copyLoop
    cases vfsRead ramfsOps fs (some snode) off 128 with
    | error e => exact only_contents fs
    | ok tmp =>
      cases tmp with
      | nil => exact only_contents fs
      | cons b tmp =>
        dsimp only
        cases hw : vfsWrite ramfsOps fs (some dnode) off (b :: tmp) with
        | error e => exact only_contents fs
        | ok r => exact (write_only_contents hw).trans (ih r.2 _)

theorem copy_only_contents (snode dnode : Nat) (fs : Ramfs H) : OnlyContents fs (copyFile fs snode dnode).2 := by
  unfold copyFile
  refine OnlyContents.trans ?_ (copy_loop_only_contents snode dnode _ _ 0)
  exact only_contents_set _ (same_tree_set _ rfl rfl rfl) rfl rfl

theorem find_or_make_edit (kmalloc : Kmalloc H) (fs : Ramfs H) (dir : Nat) (name : List UInt8) :
    (findOrMake kmalloc fs dir name).2 = applyEdit kmalloc fs (makeIfNew fs dir name) := by
  unfold findOrMake makeIfNew
  cases ramfsFinddir fs dir name with
  | some node => rfl
  | none => rfl

theorem write_edit (kmalloc : Kmalloc H) (s : ShellFs H) (cwd fname data : List UInt8) :
    OnlyContents (applyEdit kmalloc s.fs (editOf s cwd (.write fname data)))
      (cmdWrite kmalloc s cwd fname data).2.fs := by
  unfold cmdWrite editOf
  cases cwdNode s cwd with
  | none =>
    dsimp only
    split
    · exact only_contents s.fs
    · exact only_contents s.fs
  | some parent =>
    unfold editIn
    dsimp only
    split
    · exact only_contents s.fs
    · rw [← find_or_make_edit]
      cases findOrMake kmalloc s.fs parent fname with
      | mk node fs =>
        cases node with
        | none => exact only_contents fs
        | some node =>
          dsimp only
          cases hw : vfsWrite ramfsOps fs (some node) 0 data with
          | error e => exact only_contents fs
          | ok r => exact write_only_contents hw

theorem cp_into_only_contents (s : ShellFs H) (snode : Nat) (dnode : Option Nat) (fs : Ramfs H) :
    OnlyContents fs (cpInto s snode dnode fs).2.fs := by
  unfold cpInto
  cases dnode with
  | none => exact only_contents fs
  | some dnode =>
    have hsame := copy_only_contents snode dnode fs
    dsimp only
    cases hc : copyFile fs snode dnode with
    | mk r gs =>
      rw [hc] at hsame
      cases r with
      | error e => exact hsame
      | ok u => exact hsame

theorem cp_edit (kmalloc : Kmalloc H) (s : ShellFs H) (cwd src dst : List UInt8) :
    OnlyContents (applyEdit kmalloc s.fs (editOf s cwd (.cp src dst))) (cmdCp kmalloc s cwd src dst).2.fs := by
  unfold cmdCp editOf
  cases cwdNode s cwd with
  | none =>
    dsimp only
    split
    · exact only_contents s.fs
    · exact only_contents s.fs
  | some parent =>
    unfold editIn
    dsimp only
    split
    · exact only_contents s.fs
    unfold copyEdit subdir
    cases (ramfsFinddir s.fs parent src).filter (fun n => (s.fs.node n).flags = .file) with
    | none => exact only_contents s.fs
    | some snode =>
      -- the file is made first, in one directory or the other
      cases (ramfsFinddir s.fs parent dst).filter (fun d => (s.fs.node d).flags = .dir) with
      | some dstdir =>
        dsimp only
        rw [← find_or_make_edit]
        exact cp_into_only_contents s snode _ _
      | none =>
        dsimp only
        rw [← find_or_make_edit]
        exact cp_into_only_contents s snode _ _

theorem mkdir_edit (kmalloc : Kmalloc H) (s : ShellFs H) (cwd name : List UInt8) :
    (cmdMkdir kmalloc s cwd name).2.fs = applyEdit kmalloc s.fs (editOf s cwd (.mkdir name)) := by
  unfold cmdMkdir editOf
  cases cwdNode s cwd with
  | none =>
    dsimp only
    split
    · rfl
    · rfl
  | some parent =>
    unfold editIn
    dsimp only
    split
    · rfl
    · unfold applyEdit ramfsMkdir
      dsimp only
      cases ramfsMake kmalloc s.fs (some parent) name .dir with
      | mk node fs =>
        cases node with
        | none => rfl
        | some node => rfl

theorem touch_edit (kmalloc : Kmalloc H) (s : ShellFs H) (cwd name : List UInt8) :
    (cmdTouch kmalloc s cwd name).2.fs = applyEdit kmalloc s.fs (editOf s cwd (.touch name)) := by
  unfold cmdTouch editOf
  cases cwdNode s cwd with
  | none =>
    dsimp only
    split
    · rfl
    · rfl
  | some parent =>
    unfold editIn makeIfNew
    dsimp only
    split
    · rfl
    · cases ramfsFinddir s.fs parent name with
      | some node => rfl
      | none =>
        unfold applyEdit ramfsMkfile
        dsimp only
        cases ramfsMake kmalloc s.fs (some parent) name .file with
        | mk node fs =>
          cases node with
          | none => rfl
          | some node => rfl

theorem rm_edit (kmalloc : Kmalloc H) (s : ShellFs H) (cwd name : List UInt8) :
    (cmdRm s cwd name).2.fs = applyEdit kmalloc s.fs (editOf s cwd (.rm name)) := by
  unfold cmdRm editOf
  cases cwdNode s cwd with
  | none =>
    dsimp only
    split
    · rfl
    · rfl
  | some parent =>
    unfold editIn removeEdit
    dsimp only
    split
    · rfl
    · cases ramfsFinddir s.fs parent name with
      | none => rfl
      | some node =>
        dsimp only
        split
        · rfl
        · rfl

theorem mv_edit (kmalloc : Kmalloc H) (s : ShellFs H) (cwd src dst : List UInt8) :
    (cmdMv s cwd src dst).2.fs = applyEdit kmalloc s.fs (editOf s cwd (.mv src dst)) := by
  unfold cmdMv editOf
  cases cwdNode s cwd with
  | none =>
    dsimp only
    split
    · rfl
    · rfl
  | some parent =>
    unfold editIn moveEdit subdir
    dsimp only
    split
    · rfl
    · cases ramfsFinddir s.fs parent src with
      | none => rfl
      | some node =>
        dsimp only
        cases (ramfsFinddir s.fs parent dst).filter (fun d => (s.fs.node d).flags = .dir) with
        | none => rfl
        | some dstdir =>
          unfold applyEdit
          dsimp only
          split
          · rfl
          · rfl

/-- Every command leaves the tree and the blocks of the nodes as the edit it asks for does. -/
theorem step_contents (kmalloc : Kmalloc H) (s : ShellFs H) (cwd : List UInt8) (cmd : ShellCmd) :
    OnlyContents (applyEdit kmalloc s.fs (editOf s cwd cmd)) (shellStep kmalloc s cwd cmd).2.fs := by
  cases cmd with
  | mkdir name => exact only_contents_of_eq (mkdir_edit kmalloc s cwd name)
  | touch name => exact only_contents_of_eq (touch_edit kmalloc s cwd name)
  | write fname data => exact write_edit kmalloc s cwd fname data
  | cp src dst => exact cp_edit kmalloc s cwd src dst
  | mv src dst => exact only_contents_of_eq (mv_edit kmalloc s cwd src dst)
  | rm name => exact only_contents_of_eq (rm_edit kmalloc s cwd name)

/-- Every command leaves the tree as the edit it asks for does. -/
theorem step_edit (kmalloc : Kmalloc H) (s : ShellFs H) (cwd : List UInt8) (cmd : ShellCmd) :
    SameTree (applyEdit kmalloc s.fs (editOf s cwd cmd)) (shellStep kmalloc s cwd cmd).2.fs :=
  (step_contents kmalloc s cwd cmd).toSameTree

/-- No command changes the root. -/
theorem step_root (kmalloc : Kmalloc H) (s : ShellFs H) (cwd : List UInt8) (cmd : ShellCmd) :
    (shellStep kmalloc s cwd cmd).2.fsRoot = s.fsRoot := by
  cases cmd with
  | mkdir name =>
    unfold shellStep cmdMkdir
    dsimp only
    repeat' split
    all_goals rfl
  | touch name =>
    unfold shellStep cmdTouch
    dsimp only
    repeat' split
    all_goals rfl
  | write fname data =>
    unfold shellStep cmdWrite
    dsimp only
    repeat' split
    all_goals rfl
  | cp src dst =>
    unfold shellStep cmdCp cpInto
    dsimp only
    repeat' split
    all_goals rfl
  | mv src dst =>
    unfold shellStep cmdMv
    dsimp only
    repeat' split
    all_goals rfl
  | rm name =>
    unfold shellStep cmdRm
    dsimp only
    repeat' split
    all_goals rfl

end BaSic.Proofs.ShellEdits
