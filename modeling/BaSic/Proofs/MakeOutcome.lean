import BaSic.Proofs.FileSizes
import BaSic.Proofs.HeapRoom
import BaSic.Proofs.MadeNodes

namespace BaSic.Proofs.MakeOutcome
open Lib Mm Kernel Fs ShellEdits RamfsTree SiblingNames FileSizes MadeNodes HeapSystem HeapRoom

/-- A node that is returned is in the directory, is found there by the name and, if it is a file,
has a buffer; if there is none, the directory and the amount of free heap are as before. -/
def Promised (fs : Ramfs HeapState) (p : Nat) (name : List UInt8) (flags : NodeKind) : Prop :=
  let gs := (ramfsMake heapKmalloc fs (some p) name flags).2
  match (ramfsMake heapKmalloc fs (some p) name flags).1 with
  | some n => n ∈ (gs.node p).children ∧ vfsFinddir ramfsOps gs (some p) name ≠ none ∧
      (flags = .file → (gs.node n).buf.map List.length = some ramfsMaxFilesize)
  | none => (gs.node p).children = (fs.node p).children ∧ freeBytes gs.heap.heap = freeBytes fs.heap.heap

/-- The sizes of the blocks that are asked for. -/
def blocksFor : NodeKind → List UInt32
  | .dir => [92, 140]
  | .file => [92, 140, 4096]

/-- The heap has the blocks, the directory has space, and the name can be stored whole. -/
structure Provided (fs : Ramfs HeapState) (bs : List Block) (p : Nat) (name : List UInt8) (flags : NodeKind) :
    Prop where
  served : Served (blocksFor flags) bs
  space : (fs.node p).children.length < maxChildren
  whole : name.length < vfsNameMax

variable {H : Type} {kmalloc : Kmalloc H} {fs : Ramfs H} {s : HeapState} {bs : List Block} {root p : Nat}
  {name : List UInt8} {flags : NodeKind}

/-- What first fit does for a node. -/
theorem memory_iff (h : Stores s bs) : HasMemory heapKmalloc s ↔ Served [92, 140] bs := by
  obtain ⟨hnode, ht⟩ := kmalloc_grant h nodeSize
  obtain ⟨hdata, -⟩ := kmalloc_grant ht dataSize
  simp only [HasMemory, Served, hnode, hdata, and_true]
  rfl

theorem served_iff (h : Stores s bs) : Served (blocksFor flags) bs ↔
    HasMemory heapKmalloc s ∧ (flags = .file → HasBuffer heapKmalloc s) := by
  rw [memory_iff h]
  cases flags with
  | dir => simp [blocksFor]
  | file =>
    obtain ⟨-, ht⟩ := kmalloc_grant h nodeSize
    obtain ⟨-, hu⟩ := kmalloc_grant ht dataSize
    obtain ⟨hbuf, -⟩ := kmalloc_grant hu ramfsMaxFilesize
    simp only [HasBuffer, hbuf, blocksFor, Served, forall_const, and_true, and_assoc]
    rfl

/-- A new node is found by its name, unless that had to be cut. -/
theorem found_iff (hs : Sound fs root) (hp : (tree fs root).Reach p) (hfit : NamesFit fs)
    (hmem : HasMemory kmalloc fs.heap) (hroom : (fs.node p).children.length < maxChildren) :
    vfsFinddir ramfsOps (ramfsMake kmalloc fs (some p) name flags).2 (some p) name ≠ none ↔
      name.length < vfsNameMax := by
  have hfind : vfsFinddir ramfsOps (ramfsMake kmalloc fs (some p) name flags).2 (some p) name =
      (ramfsFinddir fs p name).or (if name = storedName name ∧ p = p then some fs.next else none) :=
    finddir_linked hs hp hmem hroom hp
  rw [hfind]
  by_cases hlen : name.length < vfsNameMax
  · have hwhole : storedName name = name := List.take_of_length_le (Nat.le_sub_one_of_lt hlen)
    simp [hwhole, hlen]
  · have hcut : name ≠ storedName name := by
      intro heq
      have hshort := stored_fits name
      rw [← heq] at hshort
      exact hlen hshort
    have hnone : ramfsFinddir fs p name = none := by
      cases hfound : ramfsFinddir fs p name with
      | none => rfl
      | some c =>
        have hname := hfit c
        rw [(finddir_some hfound).2] at hname
        exact absurd hname hlen
    simp [hnone, hcut, hlen]

theorem buffer_iff (hmem : HasMemory kmalloc fs.heap) :
    (((ramfsMake kmalloc fs (some p) name .file).2.node fs.next).buf.map List.length = some ramfsMaxFilesize ↔
      HasBuffer kmalloc fs.heap) := by
  have hdata := add_child_data (withNode kmalloc fs name .file) p fs.next fs.next
  have hnode : (withNode kmalloc fs name .file).node fs.next = madeNode kmalloc fs.heap name .file :=
    set_node_self _ _ _
  rw [make_some hmem, hdata.1, hnode]
  by_cases hbuf : HasBuffer kmalloc fs.heap
  · simp [madeNode, hbuf]
  · simp [madeNode, hbuf]

/-- A node that was made is in the directory exactly when there was space. -/
theorem linked_iff (hs : Sound fs root) (hp : (tree fs root).Reach p) (hmem : HasMemory kmalloc fs.heap) :
    fs.next ∈ ((ramfsMake kmalloc fs (some p) name flags).2.node p).children ↔
      (fs.node p).children.length < maxChildren := by
  have hnew : fs.next ∉ (fs.node p).children := fun hc => Nat.lt_irrefl _ (hs.made _ (hp.child hc))
  rcases make_forest kmalloc hs hp name flags with ⟨hsame, -, hno⟩ | ⟨-, hroom, hlink, -⟩
  · have hkids : ((ramfsMake kmalloc fs (some p) name flags).2.node p).children = (fs.node p).children :=
      hsame.kids p hp
    have hfull := hno.resolve_left (made_iff.mpr hmem)
    simp [hkids, hnew, hfull]
  · have hkids : ((ramfsMake kmalloc fs (some p) name flags).2.node p).children = (fs.node p).children ++ [fs.next] :=
      hlink.at_parent
    simp [hkids, hroom]

/-- Where no node can be made, the heap keeps its free blocks exactly when not even the node
itself had one: what it got it does not give back. -/
theorem kept_iff (h : Stores s bs) (hno : ¬ HasMemory heapKmalloc s) :
    freeBytes (heapKmalloc (heapKmalloc s nodeSize).2 dataSize).2.heap = freeBytes s.heap ↔
      ∀ b ∈ bs, b.free = true → b.size < 96 := by
  obtain ⟨hnode, ht⟩ := kmalloc_grant h nodeSize
  obtain ⟨hdata, hu⟩ := kmalloc_grant ht dataSize
  have hsmall : (grant (UInt32.ofNat nodeSize) bs).1 = 0 ↔ ∀ b ∈ bs, b.free = true → b.size < 96 :=
    grant_zero_iff (by decide)
  rw [free_bytes_eq hu, free_bytes_eq h, ← hsmall]
  by_cases hz : (grant (UInt32.ofNat nodeSize) bs).1 = 0
  · have hlarge : (grant (UInt32.ofNat dataSize) bs).1 = 0 := by
      refine (grant_zero_iff (by decide)).mpr (fun b hb hfree => ?_)
      exact Nat.lt_trans (hsmall.mp hz b hb hfree) (by decide)
    simp [hz, grant_none hz, grant_none hlarge]
  · have hleak : (grant (UInt32.ofNat dataSize) (grant (UInt32.ofNat nodeSize) bs).2).1 = 0 := by
      by_contra hne
      exact hno ⟨hnode.mpr hz, hdata.mpr hne⟩
    have hlt : freeSum (grant (UInt32.ofNat nodeSize) bs).2 < freeSum bs := grant_free_sum (by decide) hz
    simp [hz, grant_none hleak, Nat.ne_of_lt hlt]

/-- The heap is laid out in blocks. -/
def Laid (s : HeapState) : Prop := ∃ bs, Stores s bs

theorem Laid.alloc (h : Laid s) (size : Nat) : Laid (heapKmalloc s size).2 := by
  obtain ⟨bs, hbs⟩ := h
  exact ⟨_, (kmalloc_grant hbs size).2⟩

theorem Laid.make_node {fs : Ramfs HeapState} (h : Laid fs.heap) (name : List UInt8) (flags : NodeKind) :
    Laid (makeNode heapKmalloc fs name flags).2.heap := by
  have htwo := (h.alloc nodeSize).alloc dataSize
  obtain ⟨hsome, hnone⟩ := make_node_eq heapKmalloc fs name flags
  by_cases hmem : HasMemory heapKmalloc fs.heap
  · rw [hsome hmem]
    cases flags with
    | dir => exact htwo
    | file => exact htwo.alloc ramfsMaxFilesize
  · rw [hnone hmem]
    exact htwo

theorem Laid.make {fs : Ramfs HeapState} (h : Laid fs.heap) (parent : Option Nat) (name : List UInt8)
    (flags : NodeKind) : Laid (ramfsMake heapKmalloc fs parent name flags).2.heap := by
  refine ramfs_make_rule (P := fun _ gs => Laid gs.heap) (h.make_node name flags) (fun gs p node hmade => ?_)
  rwa [(add_child_rest gs p node).1]

/-- The one edit that touches the heap is making a node. -/
theorem Laid.edit {fs : Ramfs HeapState} (h : Laid fs.heap) (e : Edit) : Laid (applyEdit heapKmalloc fs e).heap := by
  cases e with
  | none => exact h
  | make p name flags => exact h.make (some p) name flags
  | unlink p n => exact h
  | rename p n name => exact h
  | move p n d =>
    dsimp only [applyEdit]
    split_ifs
    · exact h
    · exact h

theorem Laid.step {s : ShellFs HeapState} (h : Laid s.fs.heap) (cwd : List UInt8) (cmd : ShellCmd) :
    Laid (shellStep heapKmalloc s cwd cmd).2.fs.heap := by
  rw [(step_contents heapKmalloc s cwd cmd).heap]
  exact h.edit _

theorem mount_laid (m : Mem) : Laid (mountRamfs heapKmalloc (startState m)).fs.heap := by
  have hempty : Laid (emptyRamfs (startState m)).heap := ⟨_, init_stores m⟩
  have hroot := hempty.make_node (bytes "/") .dir
  unfold mountRamfs ramfsInit
  cases hmake : makeNode heapKmalloc (emptyRamfs (startState m)) (bytes "/") .dir with
  | mk root fs =>
    rw [hmake] at hroot
    dsimp only at hroot
    cases root with
    | none => exact hroot
    | some root =>
      have hetc := hroot.make (some root) (bytes "etc") .dir
      have hdev := hetc.make (some root) (bytes "dev") .dir
      have hmotd := hdev.make (ramfsMake heapKmalloc fs (some root) (bytes "etc") .dir).1 (bytes "motd") .file
      dsimp only [ramfsMkdir, ramfsMkfile]
      rw [(motd_only_contents _ _).heap]
      exact hmotd

/-- After boot, in every state the shell comes to, the heap is laid out in blocks, the tree is
sound, and its names fit: what is promised of making a node is decided there. -/
theorem run_ready (m : Mem) (ops : List (List UInt8 × ShellCmd)) :
    let s := (run (shellCall heapKmalloc) (mountRamfs heapKmalloc (startState m)) ops).2
    Laid s.fs.heap ∧ Settled s :=
  run_invariant (Q := fun _ => True) (I := fun s : ShellFs HeapState => Laid s.fs.heap ∧ Settled s)
    (fun _ op _ h => ⟨h.1.step op.1 op.2, h.2.step⟩) (fun _ _ => trivial)
    ⟨mount_laid m, mount_settled heapKmalloc (startState m)⟩

variable {fs : Ramfs HeapState}

/-- What is promised of making a node holds exactly when there is no free block for the node
itself, or everything it needs is provided. -/
theorem make_promised_iff (hheap : Stores fs.heap bs) (hs : Sound fs root) (hp : (tree fs root).Reach p)
    (hfit : NamesFit fs) (name : List UInt8) (flags : NodeKind) : Promised fs p name flags ↔
      (∀ b ∈ bs, b.free = true → b.size < 96) ∨ Provided fs bs p name flags := by
  have hprovided : Provided fs bs p name flags ↔ Served (blocksFor flags) bs ∧
      (fs.node p).children.length < maxChildren ∧ name.length < vfsNameMax :=
    ⟨fun h => ⟨h.served, h.space, h.whole⟩, fun h => ⟨h.1, h.2.1, h.2.2⟩⟩
  rw [hprovided, served_iff hheap]
  by_cases hmem : HasMemory heapKmalloc fs.heap
  · have hblock : ¬ ∀ b ∈ bs, b.free = true → b.size < 96 := by
      obtain ⟨hnode, -⟩ := kmalloc_grant hheap nodeSize
      intro hsmall
      exact hnode.mp hmem.1 ((grant_zero_iff (by decide)).mpr hsmall)
    have hmade : (ramfsMake heapKmalloc fs (some p) name flags).1 = some fs.next := by rw [make_some hmem]
    have hbuf : (flags = .file → ((ramfsMake heapKmalloc fs (some p) name flags).2.node fs.next).buf.map List.length =
        some ramfsMaxFilesize) ↔ (flags = .file → HasBuffer heapKmalloc fs.heap) :=
      forall_congr' (fun hfile => hfile ▸ buffer_iff hmem)
    simp only [Promised, hmade, linked_iff hs hp hmem, hbuf, hblock, hmem, false_or, true_and]
    constructor
    · rintro ⟨hroom, hfound, hbuffer⟩
      exact ⟨hbuffer, hroom, (found_iff hs hp hfit hmem hroom).mp hfound⟩
    · rintro ⟨hbuffer, hroom, hwhole⟩
      exact ⟨hroom, (found_iff hs hp hfit hmem hroom).mpr hwhole, hbuffer⟩
  · simp only [Promised, make_none hmem, kept_iff hheap hmem, hmem, true_and, false_and, or_false]

/-- The root alone, on a new heap, and the blocks of this heap. -/
def rootFs : Ramfs HeapState := (makeNode heapKmalloc (emptyRamfs (startState fun _ => 0)) (bytes "/") .dir).2

def rootBlocks : List Block := (grant 140 (grant 92 [⟨heapSize - hdrSize, true⟩]).2).2

theorem root_fs_eq : rootFs = withNode heapKmalloc (emptyRamfs (startState fun _ => 0)) (bytes "/") .dir := by
  have hmem : HasMemory heapKmalloc (startState fun _ => 0) := by
    refine (memory_iff (init_stores _)).mpr ⟨?_, ?_, trivial⟩
    · decide
    · decide
  have hmade := (make_node_eq heapKmalloc (emptyRamfs (startState fun _ => 0)) (bytes "/") .dir).1 hmem
  exact congrArg Prod.snd hmade

theorem root_stores : Stores rootFs.heap rootBlocks := by
  rw [root_fs_eq]
  obtain ⟨-, ht⟩ := kmalloc_grant (init_stores fun _ => 0) nodeSize
  exact (kmalloc_grant ht dataSize).2

theorem root_alone : Sound rootFs 0 ∧ NamesFit rootFs := by
  rw [root_fs_eq]
  constructor
  · exact (@root_sound _ _ (startState fun _ => 0) _ rfl rfl rfl rfl).1
  · intro n
    by_cases hn : n = 0
    · subst hn
      exact stored_fits _
    · have hempty : ((withNode heapKmalloc (emptyRamfs (startState fun _ => 0)) (bytes "/") .dir).node n).name = [] :=
        congrArg Node.name (set_node_ne _ _ hn)
      rw [hempty]
      decide

/-- A file in the root. -/
theorem make_promised_motd : Promised rootFs 0 (bytes "motd") .file :=
  (make_promised_iff root_stores root_alone.1 (tree rootFs 0).reach_root root_alone.2 _ _).mpr
    (Or.inr ⟨by refine ⟨?_, ?_, ?_, trivial⟩ <;> decide +kernel, by decide +kernel, by decide +kernel⟩)

/-- A name of 64 characters is cut, and the file is not found by it. -/
theorem long_name_lost : let name := List.replicate 64 97
    (ramfsMkfile heapKmalloc rootFs (some 0) name).1 = some 1 ∧
      vfsFinddir ramfsOps (ramfsMkfile heapKmalloc rootFs (some 0) name).2 (some 0) name = none ∧
        ¬ Promised rootFs 0 name .file := by
  intro name
  have hmade : (ramfsMake heapKmalloc rootFs (some 0) name .file).1 = some 1 := by decide
  have hlost : vfsFinddir ramfsOps (ramfsMake heapKmalloc rootFs (some 0) name .file).2 (some 0) name = none := by
    decide
  refine ⟨hmade, hlost, ?_⟩
  simp [Promised, hmade, hlost]

end BaSic.Proofs.MakeOutcome
