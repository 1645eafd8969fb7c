import BaSic.Proofs.RamfsTree

namespace BaSic.Proofs.RamfsBlocks
open Kernel Fs Lib ShellEdits RamfsTree

variable {H : Type}

/-- A heap that keeps the sizes of the blocks it gave, in their order. -/
structure Ledger (H : Type) where
  heap : H
  given : List Nat

def ledgerKmalloc (kmalloc : Kmalloc H) : Kmalloc (Ledger H) := fun ledger size =>
  let (ok, heap) := kmalloc ledger.heap size
  (ok, ⟨heap, if ok then ledger.given ++ [size] else ledger.given⟩)

/-- The node itself, its data, and the buffer of a file that got one. -/
def blockSizes (node : Node) : List Nat :=
  [nodeSize, dataSize] ++ if node.buf.isSome then [ramfsMaxFilesize] else []

/-- The blocks of a node, by their place in the ledger, where `first` says where they begin. -/
def blocksOf (fs : Ramfs (Ledger H)) (first : Nat → Nat) (n : Nat) : Set Nat :=
  {b | first n ≤ b ∧ b < first n + (blockSizes (fs.node n)).length}

/-- The next node to be made has the next blocks to be given. -/
def noteFirst (first : Nat → Nat) (fs : Ramfs (Ledger H)) : Nat → Nat :=
  fun n => if n < fs.next then first n else fs.heap.given.length

/-- The shell, with the place in the ledger of the first block of each node. -/
structure Books (H : Type) where
  shell : ShellFs (Ledger H)
  first : Nat → Nat

def bookStep (kmalloc : Kmalloc H) (w : Books H) (op : List UInt8 × ShellCmd) : Except Fault String × Books H :=
  let (r, shell) := shellStep (ledgerKmalloc kmalloc) w.shell op.1 op.2
  (r, ⟨shell, noteFirst w.first w.shell.fs⟩)

/-- The blocks given are those of the nodes in the tree. -/
def Exact (w : Books H) : Prop :=
  ∀ b, b < w.shell.fs.heap.given.length ↔ ∃ n, Reachable w.shell n ∧ b ∈ blocksOf w.shell.fs w.first n

section Boot
variable (kmalloc : Kmalloc H) (heap : H)

def rootMade : Option Nat × Ramfs (Ledger H) :=
  makeNode (ledgerKmalloc kmalloc) (emptyRamfs ⟨heap, []⟩) (bytes "/") .dir

def etcMade : Option Nat × Ramfs (Ledger H) :=
  ramfsMkdir (ledgerKmalloc kmalloc) (rootMade kmalloc heap).2 (rootMade kmalloc heap).1 (bytes "etc")

def devMade : Option Nat × Ramfs (Ledger H) :=
  ramfsMkdir (ledgerKmalloc kmalloc) (etcMade kmalloc heap).2 (rootMade kmalloc heap).1 (bytes "dev")

def motdMade : Option Nat × Ramfs (Ledger H) :=
  ramfsMkfile (ledgerKmalloc kmalloc) (devMade kmalloc heap).2 (etcMade kmalloc heap).1 (bytes "motd")

def bootBooks : Books H :=
  ⟨mountRamfs (ledgerKmalloc kmalloc) ⟨heap, []⟩,
    noteFirst (noteFirst (noteFirst (fun _ => 0) (rootMade kmalloc heap).2) (etcMade kmalloc heap).2)
      (devMade kmalloc heap).2⟩

end Boot

/-- Whether there is memory for a node and then for its data. -/
def grants (kmalloc : Kmalloc H) (heap : H) : Bool × Bool :=
  let (node, heap) := kmalloc heap nodeSize
  (node, (kmalloc heap dataSize).1)

/-- There is memory for both blocks and a directory with space, or memory for neither. -/
def MakePays (kmalloc : Kmalloc H) (fs : Ramfs (Ledger H)) (parent : Option Nat) : Prop :=
  grants kmalloc fs.heap.heap = (false, false) ∨
    grants kmalloc fs.heap.heap = (true, true) ∧ ∃ p, parent = some p ∧ (fs.node p).children.length < maxChildren

/-- No file is removed, and what is moved fits. -/
def EditPays (kmalloc : Kmalloc H) (fs : Ramfs (Ledger H)) : Edit → Prop
  | .make parent _ _ => MakePays kmalloc fs (some parent)
  | .unlink _ _ => False
  | .move _ n d => Fits fs n d
  | _ => True

def Pays (kmalloc : Kmalloc H) (w : Books H) (op : List UInt8 × ShellCmd) : Prop :=
  EditPays kmalloc w.shell.fs (editOf w.shell op.1 op.2)

/-- The root has both its blocks and what is made after it pays, or there is not one block. -/
def BootPays (kmalloc : Kmalloc H) (heap : H) : Prop :=
  grants kmalloc heap = (false, false) ∨
    grants kmalloc heap = (true, true) ∧ MakePays kmalloc (rootMade kmalloc heap).2 (rootMade kmalloc heap).1 ∧
      MakePays kmalloc (etcMade kmalloc heap).2 (rootMade kmalloc heap).1 ∧
        MakePays kmalloc (devMade kmalloc heap).2 (etcMade kmalloc heap).1

/-- The nodes made have blocks of their own, of the sizes they should have. -/
structure Booked (fs : Ramfs (Ledger H)) (first : Nat → Nat) : Prop where
  sizes : ∀ n, n < fs.next →
    (fs.heap.given.drop (first n)).take (blockSizes (fs.node n)).length = blockSizes (fs.node n)
  apart : ∀ m n, m < n → n < fs.next → first m + (blockSizes (fs.node m)).length ≤ first n

/-- Each block given is one of a node within reach. -/
def Covers (fs : Ramfs (Ledger H)) (first : Nat → Nat) (root : Nat) : Prop :=
  ∀ b, b < fs.heap.given.length → ∃ n, (tree fs root).Reach n ∧ b ∈ blocksOf fs first n

variable {kmalloc : Kmalloc H} {fs gs : Ramfs (Ledger H)} {first : Nat → Nat} {parent : Option Nat}
  {root n b : Nat} {name : List UInt8} {flags : NodeKind} {w : Books H}

theorem block_sizes_pos (node : Node) : 0 < (blockSizes node).length := by
  unfold blockSizes
  exact Nat.succ_pos _

theorem block_sizes_buf {node node' : Node} (h : node'.buf.isSome = node.buf.isSome) :
    blockSizes node' = blockSizes node := by
  unfold blockSizes
  rw [h]

theorem Booked.within (h : Booked fs first) (hn : n < fs.next) :
    first n + (blockSizes (fs.node n)).length ≤ fs.heap.given.length := by
  have hlength := congrArg List.length (h.sizes n hn)
  rw [List.length_take, List.length_drop] at hlength
  have hpos := block_sizes_pos (fs.node n)
  omega

theorem Booked.given (h : Booked fs first) (hn : n < fs.next) (hb : b ∈ blocksOf fs first n) :
    b < fs.heap.given.length := Nat.lt_of_lt_of_le hb.2 (h.within hn)

/-- A block belongs to one node. -/
theorem Booked.owner (h : Booked fs first) {m : Nat} (hm : m < fs.next) (hn : n < fs.next)
    (hbm : b ∈ blocksOf fs first m) (hbn : b ∈ blocksOf fs first n) : m = n := by
  obtain ⟨hmle, hmlt⟩ := hbm
  obtain ⟨hnle, hnlt⟩ := hbn
  rcases Nat.lt_trichotomy m n with hlt | heq | hlt
  · have hapart := h.apart m n hlt hn
    omega
  · exact heq
  · have hapart := h.apart n m hlt hm
    omega

/-- Keeping the books is a matter of the ledger and of which nodes there are. -/
theorem Booked.congr (h : Booked fs first) (hgiven : gs.heap.given = fs.heap.given) (hnext : gs.next = fs.next)
    (hbuf : ∀ n, (gs.node n).buf.isSome = (fs.node n).buf.isSome) : Booked gs first := by
  refine ⟨fun n hn => ?_, fun m n hmn hn => ?_⟩
  · rw [block_sizes_buf (hbuf n), hgiven]
    exact h.sizes n (hnext ▸ hn)
  · rw [block_sizes_buf (hbuf m)]
    exact h.apart m n hmn (hnext ▸ hn)

/-- What making a node does to the ledger. -/
structure Made (kmalloc : Kmalloc H) (fs gs : Ramfs (Ledger H)) (node : Option Nat) (more : List Nat) : Prop where
  given : gs.heap.given = fs.heap.given ++ more
  buf : ∀ n, n ≠ fs.next → (gs.node n).buf = (fs.node n).buf
  outcome : node = none ∧ gs.next = fs.next ∧ grants kmalloc fs.heap.heap ≠ (true, true) ∧
      (more = [] ↔ grants kmalloc fs.heap.heap = (false, false)) ∨
    node = some fs.next ∧ gs.next = fs.next + 1 ∧ grants kmalloc fs.heap.heap = (true, true) ∧
      more = blockSizes (gs.node fs.next)

theorem make_node_made (kmalloc : Kmalloc H) (fs : Ramfs (Ledger H)) (name : List UInt8) (flags : NodeKind) :
    ∃ more, Made kmalloc fs (makeNode (ledgerKmalloc kmalloc) fs name flags).2
      (makeNode (ledgerKmalloc kmalloc) fs name flags).1 more := by
  have hgrants : grants kmalloc fs.heap.heap =
      ((kmalloc fs.heap.heap nodeSize).1, (kmalloc (kmalloc fs.heap.heap nodeSize).2 dataSize).1) := rfl
  unfold makeNode ledgerKmalloc
  dsimp only
  cases hnode : (kmalloc fs.heap.heap nodeSize).1 with
  | false =>
    cases hdata : (kmalloc (kmalloc fs.heap.heap nodeSize).2 dataSize).1 with
    | false =>
      rw [hnode, hdata] at hgrants
      refine ⟨[], (List.append_nil _).symm, fun _ _ => rfl, Or.inl ⟨rfl, rfl, ?_, ?_⟩⟩
      · simp [hgrants]
      · simp [hgrants]
    | true =>
      rw [hnode, hdata] at hgrants
      refine ⟨[dataSize], rfl, fun _ _ => rfl, Or.inl ⟨rfl, rfl, ?_, ?_⟩⟩
      · simp [hgrants]
      · simp [hgrants]
  | true =>
    cases hdata : (kmalloc (kmalloc fs.heap.heap nodeSize).2 dataSize).1 with
    | false =>
      rw [hnode, hdata] at hgrants
      refine ⟨[nodeSize], rfl, fun _ _ => rfl, Or.inl ⟨rfl, rfl, ?_, ?_⟩⟩
      · simp [hgrants]
      · simp [hgrants]
    | true =>
      rw [hnode, hdata] at hgrants
      cases flags with
      | dir =>
        refine ⟨[nodeSize, dataSize], by simp [Ramfs.setNode], fun n hn => ?_, Or.inr ⟨rfl, rfl, hgrants, ?_⟩⟩
        · exact congrArg Node.buf (set_node_ne _ _ hn)
        · simp [blockSizes]
      | file =>
        cases hbuf : (kmalloc (kmalloc (kmalloc fs.heap.heap nodeSize).2 dataSize).2 ramfsMaxFilesize).1 with
        | false =>
          refine ⟨[nodeSize, dataSize], by simp [Ramfs.setNode], fun n hn => ?_,
            Or.inr ⟨rfl, rfl, hgrants, ?_⟩⟩
          · exact congrArg Node.buf (set_node_ne _ _ hn)
          · simp [blockSizes]
        | true =>
          refine ⟨[nodeSize, dataSize, ramfsMaxFilesize], by simp [Ramfs.setNode], fun n hn => ?_,
            Or.inr ⟨rfl, rfl, hgrants, ?_⟩⟩
          · exact congrArg Node.buf (set_node_ne _ _ hn)
          · simp [blockSizes]

/-- Adding a node to a directory is not a matter of blocks. -/
theorem add_child_buf (fs : Ramfs (Ledger H)) (p c : Nat) :
    (addChild fs p c).heap = fs.heap ∧ (addChild fs p c).next = fs.next ∧
      ∀ n, ((addChild fs p c).node n).buf = (fs.node n).buf :=
  ⟨(add_child_rest fs p c).1, (add_child_rest fs p c).2, add_child_congr Node.buf (fun _ _ _ => rfl) fs p c⟩

theorem make_made (kmalloc : Kmalloc H) (fs : Ramfs (Ledger H)) (parent : Option Nat) (name : List UInt8)
    (flags : NodeKind) :
    ∃ more, Made kmalloc fs (ramfsMake (ledgerKmalloc kmalloc) fs parent name flags).2
      (ramfsMake (ledgerKmalloc kmalloc) fs parent name flags).1 more := by
  obtain ⟨more, hmade⟩ := make_node_made kmalloc fs name flags
  refine ⟨more, ramfs_make_rule (P := fun node gs => Made kmalloc fs gs node more) hmade (fun gs p node hmade => ?_)⟩
  obtain ⟨hheap, hnext, hbuf⟩ := add_child_buf gs p node
  refine ⟨(congrArg Ledger.given hheap).trans hmade.given, fun n hn => (hbuf n).trans (hmade.buf n hn), ?_⟩
  rcases hmade.outcome with ⟨hnone, -⟩ | ⟨hsome, hcount, hgrants, hmore⟩
  · cases hnone
  · refine Or.inr ⟨hsome, hnext.trans hcount, hgrants, hmore.trans ?_⟩
    exact (block_sizes_buf (congrArg Option.isSome (hbuf fs.next))).symm

theorem Made.sizes {node : Option Nat} {more : List Nat} (h : Made kmalloc fs gs node more) (hn : n ≠ fs.next) :
    blockSizes (gs.node n) = blockSizes (fs.node n) := block_sizes_buf (congrArg Option.isSome (h.buf n hn))

/-- The node made last has its blocks at the end of the ledger. -/
theorem Booked.made {node : Option Nat} {more : List Nat} (h : Booked fs first) (hm : Made kmalloc fs gs node more) :
    Booked gs (noteFirst first fs) := by
  have hold : ∀ n, n < fs.next →
      noteFirst first fs n = first n ∧ blockSizes (gs.node n) = blockSizes (fs.node n) :=
    fun n hn => ⟨if_pos hn, hm.sizes (Nat.ne_of_lt hn)⟩
  have hnew : ∀ n, n < gs.next → ¬ n < fs.next → n = fs.next ∧ more = blockSizes (gs.node fs.next) := by
    intro n hn hno
    rcases hm.outcome with ⟨-, hnext, -⟩ | ⟨-, hnext, -, hmore⟩
    · omega
    · exact ⟨by omega, hmore⟩
  refine ⟨fun n hn => ?_, fun m n hmn hn => ?_⟩
  · by_cases hlt : n < fs.next
    · rw [(hold n hlt).1, (hold n hlt).2, hm.given, List.drop_append_of_le_length, List.take_append_of_le_length]
      · exact h.sizes n hlt
      · have hwithin := h.within hlt
        rw [List.length_drop]
        omega
      · have hwithin := h.within hlt
        omega
    · obtain ⟨rfl, hmore⟩ := hnew n hn hlt
      have hfirst : noteFirst first fs fs.next = fs.heap.given.length := if_neg hlt
      rw [hfirst, hm.given, List.drop_left, hmore, List.take_length]
  · have hmlt : m < fs.next := by
      rcases hm.outcome with ⟨-, hnext, -⟩ | ⟨-, hnext, -⟩
      · omega
      · omega
    rw [(hold m hmlt).1, (hold m hmlt).2]
    by_cases hlt : n < fs.next
    · rw [(hold n hlt).1]
      exact h.apart m n hmn hlt
    · have hfirst : noteFirst first fs n = fs.heap.given.length := if_neg hlt
      rw [hfirst]
      exact h.within hmlt

/-- The blocks of a node stay where they are while its buffer does. -/
theorem blocks_kept (hn : n < fs.next) (hsizes : blockSizes (gs.node n) = blockSizes (fs.node n)) :
    blocksOf gs (noteFirst first fs) n = blocksOf fs first n := by
  have hfirst : noteFirst first fs n = first n := if_pos hn
  unfold blocksOf
  rw [hfirst, hsizes]

theorem reached_blocks_kept {node : Option Nat} {more : List Nat} (hs : Sound fs root)
    (hm : Made kmalloc fs gs node more) (hn : (tree fs root).Reach n) :
    blocksOf gs (noteFirst first fs) n = blocksOf fs first n :=
  blocks_kept (hs.made n hn) (hm.sizes (Nat.ne_of_lt (hs.made n hn)))

/-- What is given without a node coming within reach belongs to none. -/
theorem covers_same_iff {node : Option Nat} {more : List Nat} (hb : Booked fs first) (hs : Sound fs root)
    (hm : Made kmalloc fs gs node more) (hsame : (tree fs root).Same (tree gs root)) :
    Covers gs (noteFirst first fs) root ↔ Covers fs first root ∧ more = [] := by
  unfold Covers
  rw [hm.given, List.length_append]
  constructor
  · intro h
    have hold : ∀ b, b < fs.heap.given.length + more.length →
        ∃ n, (tree fs root).Reach n ∧ b ∈ blocksOf fs first n := by
      intro b hlt
      obtain ⟨n, hn, hmem⟩ := h b hlt
      have hn := hsame.reach_iff.mp hn
      exact ⟨n, hn, reached_blocks_kept hs hm hn ▸ hmem⟩
    refine ⟨fun b hlt => hold b (Nat.lt_add_right _ hlt), ?_⟩
    by_contra hmore
    obtain ⟨n, hn, hmem⟩ := hold _ (Nat.lt_add_of_pos_right (List.length_pos_of_ne_nil hmore))
    exact Nat.lt_irrefl _ (hb.given (hs.made n hn) hmem)
  · rintro ⟨h, rfl⟩ b hlt
    obtain ⟨n, hn, hmem⟩ := h b hlt
    exact ⟨n, hsame.reach_iff.mpr hn, (reached_blocks_kept hs hm hn).symm ▸ hmem⟩

/-- The blocks of a node that comes within reach are the ones given for it. -/
theorem covers_link_iff {more : List Nat} {p : Nat} (hs : Sound fs root) (hm : Made kmalloc fs gs (some fs.next) more)
    (hp : (tree fs root).Reach p) (hlink : (tree fs root).Link (tree gs root) p fs.next) :
    Covers gs (noteFirst first fs) root ↔ Covers fs first root := by
  have hmore : more = blockSizes (gs.node fs.next) := by
    rcases hm.outcome with ⟨hnone, -⟩ | ⟨-, -, -, hmore⟩
    · cases hnone
    · exact hmore
  have hnew : noteFirst first fs fs.next = fs.heap.given.length := if_neg (Nat.lt_irrefl _)
  unfold Covers
  rw [hm.given, List.length_append]
  constructor
  · intro h b hlt
    obtain ⟨n, hn, hmem⟩ := h b (Nat.lt_add_right _ hlt)
    rcases (hlink.reach_iff hp hs.not_next).mp hn with hn | rfl
    · exact ⟨n, hn, reached_blocks_kept hs hm hn ▸ hmem⟩
    · have hle := hmem.1
      rw [hnew] at hle
      omega
  · intro h b hlt
    by_cases hold : b < fs.heap.given.length
    · obtain ⟨n, hn, hmem⟩ := h b hold
      exact ⟨n, (hlink.reach_iff hp hs.not_next).mpr (Or.inl hn), (reached_blocks_kept hs hm hn).symm ▸ hmem⟩
    · refine ⟨fs.next, (hlink.reach_iff hp hs.not_next).mpr (Or.inr rfl), ?_, ?_⟩
      · rw [hnew]
        omega
      · rw [hnew, ← hmore]
        exact hlt

/-- Where a node is made, all blocks belong to nodes within reach exactly when they did
before and what is made is paid for. -/
theorem covers_make_iff (hb : Booked fs first) (hs : Sound fs root)
    (hp : ∀ p, parent = some p → (tree fs root).Reach p) (name : List UInt8) (flags : NodeKind) :
    Covers (ramfsMake (ledgerKmalloc kmalloc) fs parent name flags).2 (noteFirst first fs) root ↔
      Covers fs first root ∧ MakePays kmalloc fs parent := by
  obtain ⟨more, hm⟩ := make_made kmalloc fs parent name flags
  have hlost : (tree fs root).Same (tree (ramfsMake (ledgerKmalloc kmalloc) fs parent name flags).2 root) →
      ((ramfsMake (ledgerKmalloc kmalloc) fs parent name flags).1 = none ∨
        ∀ p, parent = some p → maxChildren ≤ (fs.node p).children.length) →
      (Covers (ramfsMake (ledgerKmalloc kmalloc) fs parent name flags).2 (noteFirst first fs) root ↔
        Covers fs first root ∧ MakePays kmalloc fs parent) := by
    intro hsame hwhy
    rw [covers_same_iff hb hs hm hsame]
    refine and_congr_right (fun _ => ?_)
    unfold MakePays
    rcases hm.outcome with ⟨-, -, hgrants, hmore⟩ | ⟨hsome, -, hgrants, hmore⟩
    · rw [hmore]
      exact ⟨Or.inl, fun h => h.resolve_right (fun h => hgrants h.1)⟩
    · refine iff_of_false (fun hnil => ?_) ?_
      · have hpos := block_sizes_pos ((ramfsMake (ledgerKmalloc kmalloc) fs parent name flags).2.node fs.next)
        rw [← hmore, hnil] at hpos
        exact Nat.lt_irrefl _ hpos
      · rintro (hnone | ⟨-, p, hparent, hroom⟩)
        · cases hgrants.symm.trans hnone
        · rcases hwhy with hwhy | hwhy
          · cases hsome.symm.trans hwhy
          · exact absurd hroom (Nat.not_lt.mpr (hwhy p hparent))
  cases parent with
  | none => exact hlost (make_no_parent _ hs name flags).1 (Or.inr (fun p hp => by cases hp))
  | some p =>
    have hreach := hp p rfl
    rcases make_forest (ledgerKmalloc kmalloc) hs hreach name flags with
      ⟨hsame, -, hwhy⟩ | ⟨hsome, hroom, hlink, -⟩
    · exact hlost hsame (hwhy.imp id (fun hfull q hq => Option.some.inj hq ▸ hfull))
    · rw [hsome] at hm
      rw [covers_link_iff hs hm hreach hlink]
      refine (and_iff_left (Or.inr ⟨?_, p, rfl, hroom⟩)).symm
      rcases hm.outcome with ⟨hnone, -⟩ | ⟨-, -, hgrants, -⟩
      · cases hnone
      · exact hgrants

/-- The two have the same blocks and the same nodes to put them to. -/
structure SameBlocks (fs gs : Ramfs (Ledger H)) : Prop where
  given : gs.heap.given = fs.heap.given
  next : gs.next = fs.next
  buf : ∀ n, (gs.node n).buf.isSome = (fs.node n).buf.isSome

theorem same_blocks (fs : Ramfs (Ledger H)) : SameBlocks fs fs := ⟨rfl, rfl, fun _ => rfl⟩

theorem contents_same_blocks (h : OnlyContents fs gs) : SameBlocks fs gs :=
  ⟨congrArg Ledger.given h.heap, h.next, h.buf⟩

theorem set_same_blocks (fs : Ramfs (Ledger H)) (node : Node) (h : node.buf = (fs.node n).buf) :
    SameBlocks fs (fs.setNode n node) :=
  ⟨rfl, rfl, set_node_congr (fun m => m.buf.isSome) node (congrArg Option.isSome h)⟩

theorem SameBlocks.trans {hs : Ramfs (Ledger H)} (h : SameBlocks fs gs) (h' : SameBlocks gs hs) : SameBlocks fs hs :=
  ⟨h'.given.trans h.given, h'.next.trans h.next, fun n => (h'.buf n).trans (h.buf n)⟩

theorem unlink_same_blocks (fs : Ramfs (Ledger H)) (p n : Nat) : SameBlocks fs (unlinkChild fs p n) :=
  set_same_blocks fs _ rfl

theorem rename_same_blocks (fs : Ramfs (Ledger H)) (n : Nat) (name : List UInt8) :
    SameBlocks fs (fs.setNode n { fs.node n with name := name }) := set_same_blocks fs _ rfl

theorem move_same_blocks (kmalloc : Kmalloc (Ledger H)) (fs : Ramfs (Ledger H)) (p n d : Nat) :
    SameBlocks fs (applyEdit kmalloc fs (.move p n d)) := by
  have hunlink := unlink_same_blocks fs p n
  unfold applyEdit
  dsimp only
  split
  · refine hunlink.trans (SameBlocks.trans (set_same_blocks _ _ ?_) (set_same_blocks _ _ ?_))
    · rfl
    · rfl
  · exact hunlink

/-- Where no block is given, all belong to nodes within reach as long as no node is lost. -/
theorem covers_kept_iff (hb : Booked fs first) (hs : Sound fs root) (hc : Covers fs first root)
    (hsame : SameBlocks fs gs) (hreach : ∀ n, (tree gs root).Reach n → (tree fs root).Reach n) :
    Covers gs (noteFirst first fs) root ↔ ∀ n, (tree fs root).Reach n → (tree gs root).Reach n := by
  have hblocks : ∀ n, (tree fs root).Reach n → blocksOf gs (noteFirst first fs) n = blocksOf fs first n :=
    fun n hn => blocks_kept (hs.made n hn) (block_sizes_buf (hsame.buf n))
  unfold Covers
  rw [hsame.given]
  constructor
  · intro h n hn
    have hmem : first n ∈ blocksOf fs first n :=
      ⟨Nat.le_refl _, Nat.lt_add_of_pos_right (block_sizes_pos (fs.node n))⟩
    obtain ⟨m, hm, hmem'⟩ := h (first n) (hb.given (hs.made n hn) hmem)
    rw [hblocks m (hreach m hm)] at hmem'
    rw [hb.owner (hs.made n hn) (hs.made m (hreach m hm)) hmem hmem']
    exact hm
  · intro h b hlt
    obtain ⟨n, hn, hmem⟩ := hc b hlt
    exact ⟨n, h n hn, (hblocks n hn).symm ▸ hmem⟩

theorem covers_apply_iff (hb : Booked fs first) (hs : Sound fs root) (hc : Covers fs first root) {e : Edit}
    (h : Allowed (tree fs root) e) :
    Covers (applyEdit (ledgerKmalloc kmalloc) fs e) (noteFirst first fs) root ↔ EditPays kmalloc fs e := by
  cases e with
  | none =>
    refine (covers_kept_iff hb hs hc (same_blocks fs) (fun n hn => hn)).trans ?_
    exact iff_of_true (fun n hn => hn) trivial
  | make p name flags =>
    refine (covers_make_iff hb hs ?_ name flags).trans (and_iff_right hc)
    exact fun q hq => Option.some.inj hq ▸ h
  | unlink p n =>
    have hcut := unlink_forest fs root p n
    refine (covers_kept_iff hb hs hc (unlink_same_blocks fs p n) ?_).trans ?_
    · exact fun m hm => (hcut.reach hs.linked h.1 h.2 hm).1
    · refine iff_of_false (fun hall => ?_) id
      exact (hcut.reach hs.linked h.1 h.2 (hall n (h.1.child h.2))).2 rfl
  | rename p n name =>
    have hsame := rename_forest fs root n (storedName name)
    have hblocks := rename_same_blocks fs n (storedName name)
    refine (covers_kept_iff hb hs hc hblocks ?_).trans ?_
    · exact fun m hm => hsame.reach_iff.mp hm
    · exact iff_of_true (fun m hm => hsame.reach_iff.mpr hm) trivial
  | move p n d =>
    obtain ⟨hp, hn, hd⟩ := h
    have hblocks := move_same_blocks (ledgerKmalloc kmalloc) fs p n d
    rcases move_forest hs hp hn hd (ledgerKmalloc kmalloc) with ⟨hfit, hmove⟩ | ⟨hno, hcut⟩
    · refine (covers_kept_iff hb hs hc hblocks ?_).trans ?_
      · exact fun m hm => (hmove.reach_iff hs.linked hp hn hd hfit.1).mp hm
      · exact iff_of_true (fun m hm => (hmove.reach_iff hs.linked hp hn hd hfit.1).mpr hm) hfit
    · refine (covers_kept_iff hb hs hc hblocks ?_).trans ?_
      · exact fun m hm => (hcut.reach hs.linked hp hn hm).1
      · refine iff_of_false (fun hall => ?_) hno
        exact (hcut.reach hs.linked hp hn (hall n (hp.child hn))).2 rfl

theorem Booked.apply (hb : Booked fs first) (kmalloc : Kmalloc H) (e : Edit) :
    Booked (applyEdit (ledgerKmalloc kmalloc) fs e) (noteFirst first fs) := by
  have hkept : ∀ {gs}, SameBlocks fs gs → Booked gs (noteFirst first fs) := by
    intro gs hsame
    refine ⟨fun n hn => ?_, fun m n hmn hn => ?_⟩
    · have hlt : n < fs.next := hsame.next ▸ hn
      have hfirst : noteFirst first fs n = first n := if_pos hlt
      rw [hfirst, block_sizes_buf (hsame.buf n), hsame.given]
      exact hb.sizes n hlt
    · have hlt : n < fs.next := hsame.next ▸ hn
      have hfirst : noteFirst first fs n = first n := if_pos hlt
      have hfirst' : noteFirst first fs m = first m := if_pos (Nat.lt_trans hmn hlt)
      rw [hfirst, hfirst', block_sizes_buf (hsame.buf m)]
      exact hb.apart m n hmn hlt
  cases e with
  | none => exact hkept (same_blocks fs)
  | make p name flags =>
    obtain ⟨more, hm⟩ := make_made kmalloc fs (some p) name flags
    exact hb.made hm
  | unlink p n => exact hkept (unlink_same_blocks fs p n)
  | rename p n name => exact hkept (rename_same_blocks fs n (storedName name))
  | move p n d => exact hkept (move_same_blocks _ fs p n d)

theorem covers_contents (h : OnlyContents fs gs) : Covers gs first root ↔ Covers fs first root := by
  have hblocks : ∀ n, blocksOf gs first n = blocksOf fs first n := by
    intro n
    unfold blocksOf
    rw [block_sizes_buf (h.buf n)]
  unfold Covers
  simp only [h.heap, hblocks, (same_forest h.toSameTree root).reach_iff]

/-- The nodes within reach are linked, and the books are kept. -/
structure Kept (w : Books H) : Prop where
  sound : ∀ root, w.shell.fsRoot = some root → Sound w.shell.fs root
  booked : Booked w.shell.fs w.first

theorem exact_iff_covers (h : Kept w) (hroot : w.shell.fsRoot = some root) :
    Exact w ↔ Covers w.shell.fs w.first root := by
  unfold Exact Covers
  simp only [reachable_iff hroot]
  refine forall_congr' (fun b => ⟨fun hiff => hiff.mp, fun hsome => ⟨hsome, ?_⟩⟩)
  rintro ⟨n, hn, hmem⟩
  exact h.booked.given ((h.sound root hroot).made n hn) hmem

theorem exact_no_root (hroot : w.shell.fsRoot = none) : Exact w ↔ w.shell.fs.heap.given = [] := by
  have hno : ∀ b, ¬ ∃ n, Reachable w.shell n ∧ b ∈ blocksOf w.shell.fs w.first n := by
    rintro b ⟨n, hn, -⟩
    exact not_reachable hroot hn
  unfold Exact
  constructor
  · intro h
    exact List.eq_nil_of_length_eq_zero (Nat.eq_zero_of_not_pos (fun hpos => hno 0 ((h 0).mp hpos)))
  · intro hnil b
    rw [hnil]
    exact iff_of_false (Nat.not_lt_zero _) (hno b)

variable {op : List UInt8 × ShellCmd} {heap : H}

theorem Kept.step (h : Kept w) : Kept (bookStep kmalloc w op).2 := by
  have hcontents := contents_same_blocks (step_contents (ledgerKmalloc kmalloc) w.shell op.1 op.2)
  refine ⟨fun root hroot => ?_, ?_⟩
  · have hroot := (step_root (ledgerKmalloc kmalloc) w.shell op.1 op.2).symm.trans hroot
    exact step_sound hroot (h.sound root hroot) op.1 op.2
  · exact (h.booked.apply kmalloc _).congr hcontents.given hcontents.next hcontents.buf

theorem apply_given (kmalloc : Kmalloc H) (fs : Ramfs (Ledger H)) (e : Edit) :
    fs.heap.given <+: (applyEdit (ledgerKmalloc kmalloc) fs e).heap.given := by
  cases e with
  | make p name flags =>
    obtain ⟨more, hm⟩ := make_made kmalloc fs (some p) name flags
    exact ⟨more, hm.given.symm⟩
  | move p n d =>
    rw [(move_same_blocks _ fs p n d).given]
  | none => exact List.prefix_rfl
  | unlink p n => exact List.prefix_rfl
  | rename p n name => exact List.prefix_rfl

/-- Nothing is ever given back. -/
theorem given_grows (kmalloc : Kmalloc H) (w : Books H) (ops : List (List UInt8 × ShellCmd)) :
    w.shell.fs.heap.given <+: (run (bookStep kmalloc) w ops).2.shell.fs.heap.given := by
  refine run_invariant (Q := fun _ => True) (I := fun u : Books H => w.shell.fs.heap.given <+: u.shell.fs.heap.given)
    (fun u op _ h => ?_) (fun _ _ => trivial) List.prefix_rfl
  refine h.trans ?_
  have hstep : (bookStep kmalloc u op).2.shell.fs.heap.given = _ :=
    (contents_same_blocks (step_contents (ledgerKmalloc kmalloc) u.shell op.1 op.2)).given
  rw [hstep]
  exact apply_given kmalloc u.shell.fs _

/-- A command leaves all blocks to the nodes in the tree exactly when it pays. -/
theorem exact_step_iff (h : Kept w) (he : Exact w) : Exact (bookStep kmalloc w op).2 ↔ Pays kmalloc w op := by
  have hcontents := step_contents (ledgerKmalloc kmalloc) w.shell op.1 op.2
  have hstep_root := step_root (ledgerKmalloc kmalloc) w.shell op.1 op.2
  cases hroot : w.shell.fsRoot with
  | none =>
    have hnone : (bookStep kmalloc w op).2.shell.fsRoot = none := hstep_root.trans hroot
    rw [exact_no_root hroot] at he
    unfold Pays
    rw [no_edit hroot] at hcontents ⊢
    exact iff_of_true ((exact_no_root hnone).mpr ((contents_same_blocks hcontents).given.trans he)) trivial
  | some root =>
    have hsome : (bookStep kmalloc w op).2.shell.fsRoot = some root := hstep_root.trans hroot
    rw [exact_iff_covers h hroot] at he
    rw [exact_iff_covers h.step hsome]
    refine (covers_contents hcontents).trans ?_
    exact covers_apply_iff h.booked (h.sound root hroot) he (edit_allowed hroot op.1 op.2)

theorem note_start (heap : H) : noteFirst (fun _ => 0) (emptyRamfs (⟨heap, []⟩ : Ledger H)) = fun _ => 0 :=
  funext (fun _ => ite_self 0)

theorem start_booked (heap : H) : Booked (emptyRamfs (⟨heap, []⟩ : Ledger H)) (fun _ => 0) :=
  ⟨fun _ hn => absurd hn (Nat.not_lt_zero _), fun _ _ _ hn => absurd hn (Nat.not_lt_zero _)⟩

/-- Mounting comes to nothing, and what was given is lost. -/
structure NoRoot (kmalloc : Kmalloc H) (heap : H) : Prop where
  shell : (bootBooks kmalloc heap).shell = ⟨(rootMade kmalloc heap).2, none⟩
  next : (rootMade kmalloc heap).2.next = 0
  grants : grants kmalloc heap ≠ (true, true)
  given : (rootMade kmalloc heap).2.heap.given = [] ↔ RamfsBlocks.grants kmalloc heap = (false, false)

/-- The root is there, and what is made after it can be. -/
structure HasRoot (kmalloc : Kmalloc H) (heap : H) : Prop where
  fsRoot : (bootBooks kmalloc heap).shell.fsRoot = some 0
  made : (rootMade kmalloc heap).1 = some 0
  contents : OnlyContents (motdMade kmalloc heap).2 (bootBooks kmalloc heap).shell.fs
  grants : grants kmalloc heap = (true, true)
  sound : Sound (rootMade kmalloc heap).2 0
  kids : ((rootMade kmalloc heap).2.node 0).children = []
  booked : Booked (rootMade kmalloc heap).2 (fun _ => 0)
  covers : Covers (rootMade kmalloc heap).2 (fun _ => 0) 0

theorem boot_cases (kmalloc : Kmalloc H) (heap : H) : NoRoot kmalloc heap ∨ HasRoot kmalloc heap := by
  obtain ⟨more, hm⟩ := make_node_made kmalloc (emptyRamfs (⟨heap, []⟩ : Ledger H)) (bytes "/") .dir
  have hbooked := (start_booked heap).made hm
  rw [note_start] at hbooked
  rcases make_node_cases (ledgerKmalloc kmalloc) (emptyRamfs ⟨heap, []⟩) (bytes "/") .dir with
    ⟨ledger, hmake⟩ | ⟨node, gs, hmake, hnext, hnode, -, hleaf, hup⟩
  · have hshell : (bootBooks kmalloc heap).shell = ⟨(rootMade kmalloc heap).2, none⟩ := by
      unfold bootBooks mountRamfs ramfsInit rootMade
      dsimp only
      rw [hmake]
    rw [hmake] at hm
    rcases hm.outcome with ⟨-, hcount, hgrants, hmore⟩ | ⟨hsome, -⟩
    · have hroot : rootMade kmalloc heap =
          (none, { emptyRamfs (⟨heap, []⟩ : Ledger H) with heap := ledger }) := hmake
      refine Or.inl ⟨hshell, ?_, hgrants, ?_⟩
      · rw [hroot]
        exact hcount
      · rw [hroot, hm.given]
        exact hmore
    · cases hsome
  · have hroot : rootMade kmalloc heap = (some 0, gs) := hmake
    rw [hmake] at hm hbooked
    obtain ⟨hsound, hkids⟩ := root_sound hnode hnext hleaf hup
    rcases hm.outcome with ⟨hnone, -⟩ | ⟨-, -, hgrants, hmore⟩
    · cases hnone
    · have hgiven : gs.heap.given = blockSizes (gs.node 0) := hm.given.trans hmore
      refine Or.inr ⟨?_, ?_, ?_, hgrants, ?_, ?_, ?_, ?_⟩
      · unfold bootBooks mountRamfs ramfsInit
        dsimp only
        rw [hmake]
        rfl
      · rw [hroot]
      · unfold bootBooks mountRamfs ramfsInit motdMade devMade etcMade
        dsimp only
        rw [hroot, hmake]
        exact motd_only_contents _ _
      all_goals rw [hroot]
      · exact hsound
      · exact hkids
      · exact hbooked
      · intro b hb
        rw [hgiven] at hb
        exact ⟨0, (tree gs 0).reach_root, Nat.zero_le _, (Nat.zero_add _).symm ▸ hb⟩

theorem etc_reach (h : HasRoot kmalloc heap) {etc : Nat} (hetc : (etcMade kmalloc heap).1 = some etc) :
    (tree (devMade kmalloc heap).2 0).Reach etc := by
  have hroot : (tree (rootMade kmalloc heap).2 0).Reach 0 := (tree _ 0).reach_root
  have hroom : ((rootMade kmalloc heap).2.node 0).children.length < maxChildren := by
    rw [h.kids]
    decide
  unfold etcMade ramfsMkdir at hetc
  unfold devMade etcMade ramfsMkdir
  rw [h.made] at hetc ⊢
  obtain ⟨-, hreach, -⟩ := make_given h.sound hroot hroom hetc
  exact make_keeps _ (h.sound.make hroot _ _ _) (tree _ 0).reach_root _ _ hreach

theorem etc_sound (h : HasRoot kmalloc heap) : Sound (etcMade kmalloc heap).2 0 := by
  unfold etcMade ramfsMkdir
  rw [h.made]
  exact h.sound.make (tree _ 0).reach_root _ _ _

theorem dev_sound (h : HasRoot kmalloc heap) : Sound (devMade kmalloc heap).2 0 := by
  unfold devMade ramfsMkdir
  rw [h.made]
  exact (etc_sound h).make (tree _ 0).reach_root _ _ _

theorem etc_booked (h : HasRoot kmalloc heap) :
    Booked (etcMade kmalloc heap).2 (noteFirst (fun _ => 0) (rootMade kmalloc heap).2) := by
  obtain ⟨more, hm⟩ := make_made kmalloc (rootMade kmalloc heap).2 (rootMade kmalloc heap).1 (bytes "etc") .dir
  exact h.booked.made hm

theorem dev_booked (h : HasRoot kmalloc heap) : Booked (devMade kmalloc heap).2
    (noteFirst (noteFirst (fun _ => 0) (rootMade kmalloc heap).2) (etcMade kmalloc heap).2) := by
  obtain ⟨more, hm⟩ := make_made kmalloc (etcMade kmalloc heap).2 (rootMade kmalloc heap).1 (bytes "dev") .dir
  exact (etc_booked h).made hm

theorem boot_kept (kmalloc : Kmalloc H) (heap : H) : Kept (bootBooks kmalloc heap) := by
  refine ⟨fun root hroot => mount_sound _ _ hroot, ?_⟩
  rcases boot_cases kmalloc heap with h | h
  · rw [h.shell]
    refine ⟨fun n hn => ?_, fun m n hmn hn => ?_⟩
    · exact absurd (h.next ▸ hn) (Nat.not_lt_zero _)
    · exact absurd (h.next ▸ hn) (Nat.not_lt_zero _)
  · obtain ⟨more, hm⟩ := make_made kmalloc (devMade kmalloc heap).2 (etcMade kmalloc heap).1 (bytes "motd") .file
    have hcontents := contents_same_blocks h.contents
    exact ((dev_booked h).made hm).congr hcontents.given hcontents.next hcontents.buf

theorem boot_exact_iff (kmalloc : Kmalloc H) (heap : H) : Exact (bootBooks kmalloc heap) ↔ BootPays kmalloc heap := by
  unfold BootPays
  rcases boot_cases kmalloc heap with h | h
  · have hroot : (bootBooks kmalloc heap).shell.fsRoot = none := by
      rw [h.shell]
    rw [exact_no_root hroot, h.shell]
    exact h.given.trans (or_iff_left (fun hboth => h.grants hboth.1)).symm
  · have hroot : ∀ (fs : Ramfs (Ledger H)) p, (rootMade kmalloc heap).1 = some p → (tree fs 0).Reach p := by
      intro fs p hp
      obtain rfl := Option.some.inj (h.made.symm.trans hp)
      exact (tree fs 0).reach_root
    rw [exact_iff_covers (boot_kept kmalloc heap) h.fsRoot]
    have hmotd : Covers (bootBooks kmalloc heap).shell.fs (bootBooks kmalloc heap).first 0 ↔ _ :=
      (covers_contents h.contents).trans
        (covers_make_iff (dev_booked h) (dev_sound h) (fun p hp => etc_reach h hp) (bytes "motd") .file)
    have hdev : Covers (devMade kmalloc heap).2 _ 0 ↔ _ :=
      covers_make_iff (etc_booked h) (etc_sound h) (hroot _) (bytes "dev") .dir
    have hetc : Covers (etcMade kmalloc heap).2 _ 0 ↔ _ :=
      covers_make_iff h.booked h.sound (hroot _) (bytes "etc") .dir
    rw [hmotd, hdev, hetc, h.grants]
    have hno : ¬ ((true, true) = (false, false)) := by decide
    rw [or_iff_right hno, and_iff_right rfl, and_iff_right h.covers, and_assoc]

/-- After boot, the blocks given are those of the nodes in the tree in every state of a run,
exactly when boot and each command pay for what they are given. -/
theorem blocks_exact_iff (kmalloc : Kmalloc H) (heap : H) (ops : List (List UInt8 × ShellCmd)) :
    Exact (bootBooks kmalloc heap) ∧
        Along (After (bookStep kmalloc) Exact) (bookStep kmalloc) (bootBooks kmalloc heap) ops ↔
      BootPays kmalloc heap ∧ Along (Pays kmalloc) (bookStep kmalloc) (bootBooks kmalloc heap) ops := by
  rw [← boot_exact_iff]
  refine and_congr_right (fun hexact => ?_)
  exact Along.after_iff (J := Kept) (fun _ _ h _ _ => h.step) (fun _ _ h he => exact_step_iff h he)
    (boot_kept kmalloc heap) hexact ops

/-- A file is made and removed. -/
def madeAndRemoved : List (List UInt8 × ShellCmd) :=
  [(bytes "/", .touch (bytes "f")), (bytes "/", .rm (bytes "f"))]

theorem removed_file_keeps_blocks :
    let w := bootBooks everyBlock ()
    let u := (run (bookStep everyBlock) w madeAndRemoved).2
    Exact w ∧ ¬ Exact u ∧ w.shell.fs.heap.given.sum < u.shell.fs.heap.given.sum := by
  intro w u
  have hafter : u.shell.fsRoot = some 0 ∧ 9 < u.shell.fs.heap.given.length ∧
      w.shell.fs.heap.given.sum < u.shell.fs.heap.given.sum := by
    decide +kernel
  have hnodes : ∀ n ∈ [0, 1, 2, 3], (∀ c ∈ (u.shell.fs.node n).children, c ∈ [0, 1, 2, 3]) ∧
      ¬ (u.first n ≤ 9 ∧ 9 < u.first n + (blockSizes (u.shell.fs.node n)).length) := by
    decide +kernel
  obtain ⟨hroot, hgiven, hsum⟩ := hafter
  refine ⟨?_, fun hexact => ?_, hsum⟩
  · rw [boot_exact_iff]
    refine Or.inr ⟨rfl, Or.inr ⟨rfl, 0, rfl, ?_⟩, Or.inr ⟨rfl, 0, rfl, ?_⟩, Or.inr ⟨rfl, 1, rfl, ?_⟩⟩
    all_goals decide
  · obtain ⟨n, hn, hmem⟩ := (hexact 9).mp hgiven
    have hreach := (reachable_iff hroot).mp hn
    have hin : n ∈ [0, 1, 2, 3] :=
      hreach.mem (S := {n | n ∈ [0, 1, 2, 3]}) (by decide) (fun d hd => (hnodes d hd).1)
    exact (hnodes n hin).2 hmem

end BaSic.Proofs.RamfsBlocks
