import BaSic.Proofs.SiblingNames

namespace BaSic.Proofs.MadeNodes
open Kernel Fs ShellEdits RamfsTree SiblingNames

variable {H : Type}

/-- There is a block left for the buffer of a file, after those for the node and its data. -/
def HasBuffer (kmalloc : Kmalloc H) (heap : H) : Prop :=
  (kmalloc (kmalloc (kmalloc heap nodeSize).2 dataSize).2 ramfsMaxFilesize).1 = true

instance (kmalloc : Kmalloc H) (heap : H) : Decidable (HasBuffer kmalloc heap) := inferInstanceAs (Decidable (_ = _))

/-- The heap that a new node leaves. -/
def heapLeft (kmalloc : Kmalloc H) (heap : H) : NodeKind → H
  | .dir => (kmalloc (kmalloc heap nodeSize).2 dataSize).2
  | .file => (kmalloc (kmalloc (kmalloc heap nodeSize).2 dataSize).2 ramfsMaxFilesize).2

/-- A new node as `make_node` leaves it. -/
def madeNode (kmalloc : Kmalloc H) (heap : H) (name : List UInt8) (flags : NodeKind) : Node where
  name := storedName name
  flags := flags
  length := 0
  buf := if flags = .file ∧ HasBuffer kmalloc heap then some (List.replicate ramfsMaxFilesize 0) else none
  children := []
  parent := none

/-- The file system with the new node, before it is given a parent. -/
def withNode (kmalloc : Kmalloc H) (fs : Ramfs H) (name : List UInt8) (flags : NodeKind) : Ramfs H :=
  Ramfs.setNode { fs with next := fs.next + 1, heap := heapLeft kmalloc fs.heap flags } fs.next
    (madeNode kmalloc fs.heap name flags)

variable {kmalloc : Kmalloc H} {fs gs : Ramfs H} {root d n p : Nat} {name last : List UInt8} {flags : NodeKind}

theorem make_node_eq (kmalloc : Kmalloc H) (fs : Ramfs H) (name : List UInt8) (flags : NodeKind) :
    (HasMemory kmalloc fs.heap → makeNode kmalloc fs name flags = (some fs.next, withNode kmalloc fs name flags)) ∧
      (¬ HasMemory kmalloc fs.heap → makeNode kmalloc fs name flags =
        (none, { fs with heap := (kmalloc (kmalloc fs.heap nodeSize).2 dataSize).2 })) := by
  unfold makeNode HasMemory
  dsimp only
  constructor
  · rintro ⟨hnode, hdata⟩
    rw [if_neg (by simp [hnode, hdata])]
    cases flags with
    | dir => simp [withNode, madeNode, heapLeft]
    | file =>
      by_cases hbuf : HasBuffer kmalloc fs.heap
      · simp only [withNode, madeNode, heapLeft, hbuf, and_self, if_true]
        rw [HasBuffer] at hbuf
        simp [hbuf]
      · simp only [withNode, madeNode, heapLeft, hbuf, and_false, if_false]
        rw [HasBuffer] at hbuf
        simp [hbuf]
  · intro hno
    rw [if_pos]
    by_contra hall
    simp only [Bool.or_eq_true, Bool.not_eq_true', not_or, Bool.not_eq_false] at hall
    exact hno hall

/-- Where there is memory for it a node is made, and then added to the parent. -/
theorem make_some (hmem : HasMemory kmalloc fs.heap) (p : Nat) (name : List UInt8) (flags : NodeKind) :
    ramfsMake kmalloc fs (some p) name flags = (some fs.next, addChild (withNode kmalloc fs name flags) p fs.next) := by
  simp only [ramfsMake, (make_node_eq kmalloc fs name flags).1 hmem]

theorem make_none (hmem : ¬ HasMemory kmalloc fs.heap) (p : Nat) (name : List UInt8) (flags : NodeKind) :
    ramfsMake kmalloc fs (some p) name flags =
      (none, { fs with heap := (kmalloc (kmalloc fs.heap nodeSize).2 dataSize).2 }) := by
  simp only [ramfsMake, (make_node_eq kmalloc fs name flags).2 hmem]

theorem made_memory (h : (ramfsMake kmalloc fs (some p) name flags).1 = some n) :
    HasMemory kmalloc fs.heap ∧ n = fs.next := by
  by_cases hmem : HasMemory kmalloc fs.heap
  · rw [make_some hmem] at h
    exact ⟨hmem, (Option.some.inj h).symm⟩
  · rw [make_none hmem] at h
    cases h

theorem find_names (l : List Nat) (hname : ∀ c ∈ l, nameOf gs c = nameOf fs c) :
    l.find? (fun c => (gs.node c).name == last) = l.find? (fun c => (fs.node c).name == last) :=
  List.find?_congr (fun c hc => by rw [show (gs.node c).name = (fs.node c).name from hname c hc])

theorem finddir_congr (hkids : (gs.node d).children = (fs.node d).children)
    (hname : ∀ c ∈ (fs.node d).children, nameOf gs c = nameOf fs c) :
    ramfsFinddir gs d last = ramfsFinddir fs d last := by
  simp only [ramfsFinddir, hkids]
  exact find_names _ hname

/-- A directory that had no space for a new node looks as before, and so do the others. -/
theorem finddir_unlinked (hs : Sound fs root) (hp : (tree fs root).Reach p)
    (hfull : maxChildren ≤ (fs.node p).children.length) (hd : (tree fs root).Reach d) :
    ramfsFinddir (ramfsMake kmalloc fs (some p) name flags).2 d last = ramfsFinddir fs d last := by
  have hnames := (make_names kmalloc fs (some p) name flags).1
  rcases make_forest kmalloc hs hp name flags with ⟨hsame, -, -⟩ | ⟨-, hroom, -⟩
  · exact finddir_congr (hsame.kids d hd) (fun c hc => hnames c (Nat.ne_of_lt (hs.made c (hd.child hc))))
  · exact absurd hroom (Nat.not_lt.mpr hfull)

/-- A new node is the last that its directory looks at. -/
theorem finddir_linked (hs : Sound fs root) (hp : (tree fs root).Reach p) (hmem : HasMemory kmalloc fs.heap)
    (hroom : (fs.node p).children.length < maxChildren) (hd : (tree fs root).Reach d) :
    ramfsFinddir (ramfsMake kmalloc fs (some p) name flags).2 d last =
      (ramfsFinddir fs d last).or (if last = storedName name ∧ d = p then some fs.next else none) := by
  obtain ⟨hold, -, hnew⟩ := make_names kmalloc fs (some p) name flags
  have hnames : ∀ c ∈ (fs.node d).children, nameOf (ramfsMake kmalloc fs (some p) name flags).2 c = nameOf fs c :=
    fun c hc => hold c (Nat.ne_of_lt (hs.made c (hd.child hc)))
  have hmade : (ramfsMake kmalloc fs (some p) name flags).1 ≠ none := made_iff.mpr hmem
  rcases make_forest kmalloc hs hp name flags with ⟨-, -, hno⟩ | ⟨-, -, hlink, -⟩
  · rcases hno with hno | hfull
    · exact absurd hno hmade
    · exact absurd hroom (Nat.not_lt.mpr hfull)
  · by_cases hdp : d = p
    · subst hdp
      have hkids : ((ramfsMake kmalloc fs (some d) name flags).2.node d).children = (fs.node d).children ++ [fs.next] :=
        hlink.at_parent
      have hlast : ((ramfsMake kmalloc fs (some d) name flags).2.node fs.next).name = storedName name := hnew hmade
      simp only [ramfsFinddir, hkids, List.find?_append, find_names _ hnames, and_true]
      congr 1
      by_cases heq : last = storedName name
      · simp [hlast, heq]
      · simp [hlast, heq, Ne.symm heq]
    · rw [finddir_congr (hlink.kids d hdp (Nat.ne_of_lt (hs.made d hd))) hnames]
      simp [hdp]

end BaSic.Proofs.MadeNodes
