import BaSic.Proofs.ShellEdits
import BaSic.Lib.Steps

namespace BaSic.Proofs.RamfsTree
open Kernel Fs Lib ShellEdits

section Edits

variable {H : Type}

def tree (fs : Ramfs H) (root : Nat) : Forest Nat :=
  ⟨root, fun d => (fs.node d).children, fun c => (fs.node c).parent⟩

/-- An edit of nodes within reach. -/
def Allowed (t : Forest Nat) : Edit → Prop
  | .none => True
  | .make parent _ _ => t.Reach parent
  | .unlink parent node | .rename parent node _ => t.Reach parent ∧ node ∈ t.kids parent
  | .move parent node dstdir => t.Reach parent ∧ node ∈ t.kids parent ∧ dstdir ∈ t.kids parent

/-- The nodes within reach are properly linked, and have been made. -/
structure Sound (fs : Ramfs H) (root : Nat) : Prop where
  linked : (tree fs root).Linked maxChildren
  made : ∀ n, (tree fs root).Reach n → n < fs.next

variable {kmalloc : Kmalloc H} {fs gs : Ramfs H} {s : ShellFs H} {root p n d : Nat} {cwd name : List UInt8}

theorem finddir_some (h : ramfsFinddir fs d name = some n) :
    n ∈ (fs.node d).children ∧ (fs.node n).name = name := by
  have hname := List.find?_some h
  exact ⟨List.mem_of_find?_eq_some h, beq_iff_eq.mp hname⟩

theorem finddir_none (h : ramfsFinddir fs d name = none) (hn : n ∈ (fs.node d).children) :
    (fs.node n).name ≠ name := by
  have hname := List.find?_eq_none.mp h n hn
  simpa using hname

theorem subdir_some (h : subdir fs d name = some n) : n ∈ (fs.node d).children ∧ (fs.node n).name = name := by
  unfold subdir at h
  rw [Option.filter_eq_some_iff] at h
  exact finddir_some h.1

theorem resolve_from_none (ops : VfsOps (Ramfs H) Nat) (fuel : Nat) (path : List UInt8) :
    resolveFrom ops fs fuel none path = none := by
  cases fuel with
  | zero => rfl
  | succ fuel =>
    unfold resolveFrom
    exact if_pos (Or.inr rfl)

/-- A path leads down the tree. -/
theorem resolve_from_below (root fuel : Nat) {cur : Nat} {path : List UInt8}
    (h : resolveFrom ramfsOps fs fuel (some cur) path = some p) :
    Relation.ReflTransGen (tree fs root).Child cur p := by
  induction fuel generalizing cur path with
  | zero =>
    cases h
    exact Relation.ReflTransGen.refl
  | succ fuel ih =>
    unfold resolveFrom at h
    split at h
    · cases h
      exact Relation.ReflTransGen.refl
    · dsimp only at h
      cases hf : vfsFinddir ramfsOps fs (some cur)
          ((path.takeWhile (· ≠ slash)).take (vfsNameMax - 1)) with
      | none =>
        rw [hf, resolve_from_none] at h
        cases h
      | some next =>
        rw [hf] at h
        exact Relation.ReflTransGen.head (finddir_some hf).1 (ih h)

/-- Two file systems with the same tree resolve paths alike. -/
theorem same_resolve (h : SameTree fs gs) (root : Option Nat) (path : List UInt8) :
    vfsResolve ramfsOps gs root path = vfsResolve ramfsOps fs root path := by
  have hfind : ∀ dir name, vfsFinddir ramfsOps gs dir name = vfsFinddir ramfsOps fs dir name := by
    intro dir name
    cases dir with
    | none => rfl
    | some dir =>
      change ramfsFinddir gs dir name = ramfsFinddir fs dir name
      unfold ramfsFinddir
      rw [h.children]
      exact congrArg (List.find? · _) (funext (fun i => by rw [h.name]))
  have hfrom : ∀ fuel cur path, resolveFrom ramfsOps gs fuel cur path = resolveFrom ramfsOps fs fuel cur path := by
    intro fuel
    induction fuel with
    | zero => exact fun _ _ => rfl
    | succ fuel ih =>
      intro cur path
      unfold resolveFrom
      simp only [hfind, ih]
  unfold vfsResolve
  rw [hfrom]

/-- A path leads to a node within reach. -/
theorem cwd_reach (hroot : s.fsRoot = some root) (h : cwdNode s cwd = some p) : (tree s.fs root).Reach p := by
  unfold cwdNode vfsResolve at h
  rw [hroot] at h
  split at h
  · cases h
  · exact resolve_from_below root _ h

theorem cwd_no_root (h : s.fsRoot = none) : cwdNode s cwd = none := by
  unfold cwdNode vfsResolve
  rw [h]
  split
  · rfl
  · exact resolve_from_none _ _ _

/-- What a command asks for in a directory is about the directory, its children and what is made
in it or in one of them. -/
theorem edit_in_rule {Q : Edit → Prop} (hnone : Q .none)
    (hmake : ∀ d name flags, d = p ∨ d ∈ (fs.node p).children → Q (.make d name flags))
    (hunlink : ∀ n ∈ (fs.node p).children, Q (.unlink p n))
    (hrename : ∀ n ∈ (fs.node p).children, ∀ name, Q (.rename p n name))
    (hmove : ∀ n ∈ (fs.node p).children, ∀ d ∈ (fs.node p).children, Q (.move p n d)) (cmd : ShellCmd) :
    Q (editIn fs p cmd) := by
  have hnew : ∀ d name, d = p ∨ d ∈ (fs.node p).children → Q (makeIfNew fs d name) := by
    intro d name hd
    unfold makeIfNew
    cases ramfsFinddir fs d name with
    | some node => exact hnone
    | none => exact hmake d name .file hd
  unfold editIn
  cases cmd with
  | mkdir name =>
    dsimp only
    split
    · exact hnone
    · exact hmake p name .dir (Or.inl rfl)
  | touch name =>
    dsimp only
    split
    · exact hnone
    · exact hnew p name (Or.inl rfl)
  | write fname data =>
    dsimp only
    split
    · exact hnone
    · exact hnew p fname (Or.inl rfl)
  | cp src dst =>
    unfold copyEdit
    dsimp only
    split
    · exact hnone
    · cases (ramfsFinddir fs p src).filter (fun n => (fs.node n).flags = .file) with
      | none => exact hnone
      | some snode =>
        dsimp only
        cases hd : subdir fs p dst with
        | none => exact hnew p dst (Or.inl rfl)
        | some d => exact hnew d src (Or.inr (subdir_some hd).1)
  | mv src dst =>
    unfold moveEdit
    dsimp only
    split
    · exact hnone
    · cases hn : ramfsFinddir fs p src with
      | none => exact hnone
      | some n =>
        dsimp only
        cases hd : subdir fs p dst with
        | none => exact hrename n (finddir_some hn).1 dst
        | some d => exact hmove n (finddir_some hn).1 d (subdir_some hd).1
  | rm name =>
    unfold removeEdit
    dsimp only
    split
    · exact hnone
    · cases hn : ramfsFinddir fs p name with
      | none => exact hnone
      | some n =>
        dsimp only
        split
        · exact hnone
        · exact hunlink n (finddir_some hn).1

theorem edit_in_allowed (hp : (tree fs root).Reach p) (cmd : ShellCmd) :
    Allowed (tree fs root) (editIn fs p cmd) := by
  refine edit_in_rule trivial (fun d _ _ hd => ?_) (fun n hn => ⟨hp, hn⟩) (fun n hn _ => ⟨hp, hn⟩)
    (fun n hn d hd => ⟨hp, hn, hd⟩) cmd
  rcases hd with rfl | hd
  · exact hp
  · exact hp.child hd

theorem edit_allowed (hroot : s.fsRoot = some root) (cwd : List UInt8) (cmd : ShellCmd) :
    Allowed (tree s.fs root) (editOf s cwd cmd) := by
  unfold editOf
  cases hp : cwdNode s cwd with
  | none => trivial
  | some p => exact edit_in_allowed (cwd_reach hroot hp) cmd

/-- A new node comes at the end, with neither parent nor children, or not at all. -/
theorem make_node_cases (kmalloc : Kmalloc H) (fs : Ramfs H) (name : List UInt8) (flags : NodeKind) :
    (∃ heap, makeNode kmalloc fs name flags = (none, { fs with heap := heap })) ∨
      ∃ node gs, makeNode kmalloc fs name flags = (some fs.next, gs) ∧ gs.next = fs.next + 1 ∧
        gs.node = Function.update fs.node fs.next node ∧ node.name = storedName name ∧ node.children = [] ∧
          node.parent = none := by
  unfold makeNode
  dsimp only
  split
  · exact Or.inl ⟨_, rfl⟩
  · cases flags with
    | dir => exact Or.inr ⟨_, _, rfl, rfl, rfl, rfl, rfl, rfl⟩
    | file => exact Or.inr ⟨_, _, rfl, rfl, rfl, rfl, rfl, rfl⟩

/-- Making a node in a directory within reach fails, or makes one that finds no space in the
directory, or adds it to the children of the directory. -/
theorem make_forest (kmalloc : Kmalloc H) (hs : Sound fs root) (hp : (tree fs root).Reach p) (name : List UInt8)
    (flags : NodeKind) :
    (tree fs root).Same (tree (ramfsMake kmalloc fs (some p) name flags).2 root) ∧
        fs.next ≤ (ramfsMake kmalloc fs (some p) name flags).2.next ∧
          ((ramfsMake kmalloc fs (some p) name flags).1 = none ∨ maxChildren ≤ (fs.node p).children.length) ∨
      (ramfsMake kmalloc fs (some p) name flags).1 = some fs.next ∧ (fs.node p).children.length < maxChildren ∧
        (tree fs root).Link (tree (ramfsMake kmalloc fs (some p) name flags).2 root) p fs.next ∧
          (ramfsMake kmalloc fs (some p) name flags).2.next = fs.next + 1 := by
  have hlt : p < fs.next := hs.made p hp
  unfold ramfsMake
  rcases make_node_cases kmalloc fs name flags with ⟨heap, hmake⟩ | ⟨node, gs, hmake, hnext, hnode, -, hleaf, -⟩
  · rw [hmake]
    exact Or.inl ⟨⟨rfl, fun _ _ => rfl, fun _ _ => rfl⟩, Nat.le_refl _, Or.inl rfl⟩
  rw [hmake]
  dsimp only
  have hold : ∀ m, m ≠ fs.next → gs.node m = fs.node m := by
    intro m hm
    rw [hnode, Function.update_of_ne hm]
  have hnew : (gs.node fs.next).children = [] := by
    rw [hnode, Function.update_self]
    exact hleaf
  have hpn : p ≠ fs.next := Nat.ne_of_lt hlt
  unfold addChild
  rw [hold p hpn]
  split
  · rename_i hfull
    refine Or.inl ⟨⟨rfl, fun m hm => ?_, fun m hm => ?_⟩, by omega, Or.inr hfull⟩
    · exact congrArg Node.children (hold m (Nat.ne_of_lt (hs.made m hm)))
    · exact congrArg Node.parent (hold m (Nat.ne_of_lt (hs.made m hm)))
  · rename_i hroom
    refine Or.inr ⟨rfl, Nat.lt_of_not_le hroom, ⟨rfl, ?_, ?_, fun m hm hmn => ?_, ?_, fun m hm => ?_⟩, hnext⟩
    all_goals unfold tree
    all_goals dsimp only
    · rw [set_node_self, set_node_ne _ _ hpn, hold p hpn]
    · rw [set_node_ne _ _ hpn.symm, set_node_self]
      exact hnew
    · rw [set_node_ne _ _ hm, set_node_ne _ _ hmn, hold m hmn]
    · rw [set_node_ne _ _ hpn.symm, set_node_self]
    · by_cases hmp : m = p
      · rw [hmp, set_node_self, set_node_ne _ _ hpn, hold p hpn]
      · rw [set_node_ne _ _ hmp, set_node_ne _ _ hm, hold m hm]

theorem unlink_ne (fs : Ramfs H) (n : Nat) {m : Nat} (h : m ≠ p) : (unlinkChild fs p n).node m = fs.node m :=
  set_node_ne fs _ h

theorem unlink_forest (fs : Ramfs H) (root p n : Nat) :
    (tree fs root).Cut (tree (unlinkChild fs p n) root) p n := by
  unfold unlinkChild
  refine ⟨rfl, ?_, fun m hm _ => ?_, fun m _ => ?_⟩
  all_goals unfold tree
  all_goals dsimp only
  · rw [set_node_self]
  · rw [set_node_ne _ _ hm]
  · by_cases hmp : m = p
    · rw [hmp, set_node_self]
    · rw [set_node_ne _ _ hmp]

theorem rename_forest (fs : Ramfs H) (root n : Nat) (name : List UInt8) :
    (tree fs root).Same (tree (fs.setNode n { fs.node n with name := name }) root) := by
  refine ⟨rfl, fun m _ => ?_, fun m _ => ?_⟩
  all_goals unfold tree
  all_goals dsimp only
  all_goals
    by_cases hmn : m = n
    · rw [hmn, set_node_self]
    · rw [set_node_ne _ _ hmn]

/-- The node goes to a directory other than itself that has space. -/
def Fits (fs : Ramfs H) (n d : Nat) : Prop := d ≠ n ∧ (fs.node d).children.length < maxChildren

/-- A move that fits moves the node; one that does not takes it out of the tree. -/
theorem move_forest (hs : Sound fs root) (hp : (tree fs root).Reach p) (hn : n ∈ (fs.node p).children)
    (hd : d ∈ (fs.node p).children) (kmalloc : Kmalloc H) :
    Fits fs n d ∧ (tree fs root).Move (tree (applyEdit kmalloc fs (.move p n d)) root) p n d ∨
      ¬ Fits fs n d ∧ (tree fs root).Cut (tree (applyEdit kmalloc fs (.move p n d)) root) p n := by
  have hself : ∀ c, c ∈ (fs.node p).children → c ≠ p := by
    rintro c hc rfl
    exact hs.linked.acyclic hp (Relation.TransGen.single hc)
  have hdp := hself d hd
  have hnp := hself n hn
  have hcut := unlink_forest fs root p n
  have hkids : ((unlinkChild fs p n).node d).children = (fs.node d).children := by
    rw [unlink_ne fs n hdp]
  unfold applyEdit
  dsimp only
  rw [hkids]
  by_cases hroom : (fs.node d).children.length < maxChildren
  · rw [if_pos hroom]
    unfold linkInto
    by_cases hdn : d = n
    · -- the node is listed by itself alone
      refine Or.inr ⟨fun hfit => hfit.1 hdn, ⟨rfl, ?_, fun m hm hmn => ?_, fun m hmn => ?_⟩⟩
      · refine Eq.trans ?_ hcut.at_parent
        unfold tree
        dsimp only
        rw [set_node_ne _ _ hnp.symm, set_node_ne _ _ hdp.symm]
      · refine Eq.trans ?_ (hcut.kids m hm hmn)
        unfold tree
        dsimp only
        rw [set_node_ne _ _ hmn, set_node_ne _ _ (hdn ▸ hmn)]
      · refine Eq.trans ?_ (hcut.up m hmn)
        unfold tree
        dsimp only
        rw [set_node_ne _ _ hmn, set_node_ne _ _ (hdn ▸ hmn)]
    · refine Or.inl ⟨⟨hdn, hroom⟩, ⟨rfl, ?_, ?_, fun m hm hmd => ?_, ?_, fun m hmn => ?_⟩⟩
      · refine Eq.trans ?_ hcut.at_parent
        unfold tree
        dsimp only
        rw [set_node_ne _ _ hnp.symm, set_node_ne _ _ hdp.symm]
      · unfold tree
        dsimp only
        rw [set_node_ne _ _ hdn, set_node_self, hkids]
      · by_cases hmn : m = n
        · unfold tree
          dsimp only
          rw [hmn, set_node_self, set_node_ne _ _ (Ne.symm hdn), unlink_ne fs n hnp]
        · refine Eq.trans ?_ (hcut.kids m hm hmn)
          unfold tree
          dsimp only
          rw [set_node_ne _ _ hmn, set_node_ne _ _ hmd]
      · unfold tree
        dsimp only
        rw [set_node_self]
      · refine Eq.trans ?_ (hcut.up m hmn)
        unfold tree
        dsimp only
        rw [set_node_ne _ _ hmn]
        by_cases hmd : m = d
        · rw [hmd, set_node_self]
        · rw [set_node_ne _ _ hmd]
  · rw [if_neg hroom]
    exact Or.inr ⟨fun hfit => hroom hfit.2, hcut⟩

theorem Sound.same (hs : Sound fs root) (h : (tree fs root).Same (tree gs root)) (hnext : fs.next ≤ gs.next) :
    Sound gs root :=
  ⟨hs.linked.same h, fun n hn => Nat.lt_of_lt_of_le (hs.made n (h.reach_iff.mp hn)) hnext⟩

theorem Sound.not_next (hs : Sound fs root) : ¬ (tree fs root).Reach fs.next :=
  fun hn => Nat.lt_irrefl _ (hs.made _ hn)

theorem Sound.make (hs : Sound fs root) (hp : (tree fs root).Reach p) (kmalloc : Kmalloc H) (name : List UInt8)
    (flags : NodeKind) : Sound (ramfsMake kmalloc fs (some p) name flags).2 root := by
  rcases make_forest kmalloc hs hp name flags with ⟨hsame, hnext, -⟩ | ⟨-, hroom, hlink, hnext⟩
  · exact hs.same hsame hnext
  · refine ⟨hs.linked.link hlink hp hs.not_next hroom, fun n hn => ?_⟩
    rw [hnext]
    rcases (hlink.reach_iff hp hs.not_next).mp hn with hn | rfl
    · exact Nat.lt_succ_of_lt (hs.made n hn)
    · exact Nat.lt_succ_self _

theorem Sound.unlink (hs : Sound fs root) (hp : (tree fs root).Reach p) (hn : n ∈ (fs.node p).children)
    (h : (tree fs root).Cut (tree gs root) p n) (hnext : gs.next = fs.next) : Sound gs root := by
  refine ⟨hs.linked.cut h hp hn, fun m hm => ?_⟩
  rw [hnext]
  exact hs.made m (h.reach hs.linked hp hn hm).1

theorem apply_next (kmalloc : Kmalloc H) (fs : Ramfs H) (p n d : Nat) :
    (applyEdit kmalloc fs (.move p n d)).next = fs.next := by
  unfold applyEdit
  dsimp only
  split
  · rfl
  · rfl

theorem apply_next_le (kmalloc : Kmalloc H) (hs : Sound fs root) {e : Edit} (h : Allowed (tree fs root) e) :
    fs.next ≤ (applyEdit kmalloc fs e).next := by
  cases e with
  | none => exact Nat.le_refl _
  | make p name flags =>
    rcases make_forest kmalloc hs h name flags with ⟨-, hnext, -⟩ | ⟨-, -, -, hnext⟩
    · exact hnext
    · exact (Nat.le_succ _).trans_eq hnext.symm
  | unlink p n => exact Nat.le_refl _
  | rename p n name => exact Nat.le_refl _
  | move p n d => exact Nat.le_of_eq (apply_next kmalloc fs p n d).symm

/-- Every edit of nodes within reach leaves the tree sound. -/
theorem Sound.apply (hs : Sound fs root) {e : Edit} (h : Allowed (tree fs root) e) :
    Sound (applyEdit kmalloc fs e) root := by
  cases e with
  | none => exact hs
  | make p name flags => exact hs.make h kmalloc name flags
  | unlink p n => exact hs.unlink h.1 h.2 (unlink_forest fs root p n) rfl
  | rename p n name => exact hs.same (rename_forest fs root n (storedName name)) (Nat.le_refl _)
  | move p n d =>
    obtain ⟨hp, hn, hd⟩ := h
    rcases move_forest hs hp hn hd kmalloc with ⟨hfit, hmove⟩ | ⟨-, hcut⟩
    · refine ⟨hs.linked.move hmove hp hn hd hfit.1 hfit.2, fun m hm => ?_⟩
      rw [apply_next]
      exact hs.made m ((hmove.reach_iff hs.linked hp hn hd hfit.1).mp hm)
    · exact hs.unlink hp hn hcut (apply_next kmalloc fs p n d)

/-- The node an edit takes out of the tree on purpose. -/
def takenOut : Edit → Option Nat
  | .unlink _ n => some n
  | _ => none

theorem taken_reach {e : Edit} (h : Allowed (tree fs root) e) (hn : takenOut e = some n) :
    (tree fs root).Reach n := by
  cases e with
  | unlink p m =>
    cases hn
    exact h.1.child h.2
  | none => cases hn
  | make p name flags => cases hn
  | rename p m name => cases hn
  | move p m d => cases hn

/-- A node that is removed has no children, and a node that is moved goes to a directory
other than itself that has space. -/
def Tidy (fs : Ramfs H) : Edit → Prop
  | .unlink _ n => (fs.node n).children = []
  | .move _ n d => Fits fs n d
  | _ => True

/-- What comes within reach is new. -/
theorem apply_reach (hs : Sound fs root) {e : Edit} (h : Allowed (tree fs root) e)
    (hn : (tree (applyEdit kmalloc fs e) root).Reach n) : (tree fs root).Reach n ∨ n = fs.next := by
  cases e with
  | none => exact Or.inl hn
  | make p name flags =>
    rcases make_forest kmalloc hs h name flags with ⟨hsame, -, -⟩ | ⟨-, -, hlink, -⟩
    · exact Or.inl (hsame.reach_iff.mp hn)
    · exact (hlink.reach_iff h hs.not_next).mp hn
  | unlink p m => exact Or.inl ((unlink_forest fs root p m).reach hs.linked h.1 h.2 hn).1
  | rename p m name => exact Or.inl ((rename_forest fs root m (storedName name)).reach_iff.mp hn)
  | move p m d =>
    obtain ⟨hp, hm, hd⟩ := h
    rcases move_forest hs hp hm hd kmalloc with ⟨hfit, hmove⟩ | ⟨-, hcut⟩
    · exact Or.inl ((hmove.reach_iff hs.linked hp hm hd hfit.1).mp hn)
    · exact Or.inl (hcut.reach hs.linked hp hm hn).1

theorem apply_out (hs : Sound fs root) {e : Edit} (h : Allowed (tree fs root) e) (hn : takenOut e = some n) :
    ¬ (tree (applyEdit kmalloc fs e) root).Reach n := by
  cases e with
  | unlink p m =>
    cases hn
    exact fun hreach => ((unlink_forest fs root p n).reach hs.linked h.1 h.2 hreach).2 rfl
  | none => cases hn
  | make p name flags => cases hn
  | rename p m name => cases hn
  | move p m d => cases hn

/-- A tidy edit keeps within reach all but the node it takes out. -/
theorem apply_keeps (kmalloc : Kmalloc H) (hs : Sound fs root) {e : Edit} (h : Allowed (tree fs root) e) (htidy : Tidy fs e)
    (hn : (tree fs root).Reach n) : (tree (applyEdit kmalloc fs e) root).Reach n ∨ takenOut e = some n := by
  cases e with
  | none => exact Or.inl hn
  | make p name flags =>
    rcases make_forest kmalloc hs h name flags with ⟨hsame, -, -⟩ | ⟨-, -, hlink, -⟩
    · exact Or.inl (hsame.reach_iff.mpr hn)
    · exact Or.inl ((hlink.reach_iff h hs.not_next).mpr (Or.inl hn))
  | unlink p m =>
    by_cases hnm : n = m
    · exact Or.inr (congrArg some hnm.symm)
    · exact Or.inl ((unlink_forest fs root p m).keeps htidy hn hnm)
  | rename p m name => exact Or.inl ((rename_forest fs root m (storedName name)).reach_iff.mpr hn)
  | move p m d =>
    obtain ⟨hp, hm, hd⟩ := h
    rcases move_forest hs hp hm hd kmalloc with ⟨hfit, hmove⟩ | ⟨hno, -⟩
    · exact Or.inl ((hmove.reach_iff hs.linked hp hm hd hfit.1).mpr hn)
    · exact absurd htidy hno

/-- Any other edit loses a node. -/
theorem apply_loses (kmalloc : Kmalloc H) (hs : Sound fs root) {e : Edit} (h : Allowed (tree fs root) e)
    (hno : ¬ Tidy fs e) :
    ∃ n, (tree fs root).Reach n ∧ takenOut e ≠ some n ∧ ¬ (tree (applyEdit kmalloc fs e) root).Reach n := by
  cases e with
  | none => exact absurd trivial hno
  | make p name flags => exact absurd trivial hno
  | unlink p m =>
    obtain ⟨c, hc⟩ := List.exists_mem_of_ne_nil _ hno
    have hm : (tree fs root).Reach m := h.1.child h.2
    refine ⟨c, hm.child hc, fun hcm => ?_, (unlink_forest fs root p m).loses hs.linked h.1 h.2 hc⟩
    obtain rfl := Option.some.inj hcm
    exact hs.linked.acyclic hm (Relation.TransGen.single hc)
  | rename p m name => exact absurd trivial hno
  | move p m d =>
    obtain ⟨hp, hm, hd⟩ := h
    rcases move_forest hs hp hm hd kmalloc with ⟨hfit, -⟩ | ⟨-, hcut⟩
    · exact absurd hfit hno
    · refine ⟨m, hp.child hm, fun hout => ?_, fun hreach => ?_⟩
      · cases hout
      · exact (hcut.reach hs.linked hp hm hreach).2 rfl

/-- A node that no directory is given for stays out of reach. -/
theorem make_no_parent (kmalloc : Kmalloc H) (hs : Sound fs root) (name : List UInt8) (flags : NodeKind) :
    (tree fs root).Same (tree (ramfsMake kmalloc fs none name flags).2 root) ∧
      fs.next ≤ (ramfsMake kmalloc fs none name flags).2.next := by
  unfold ramfsMake
  rcases make_node_cases kmalloc fs name flags with ⟨heap, hmake⟩ | ⟨node, gs, hmake, hnext, hnode, -, -, -⟩
  · rw [hmake]
    exact ⟨⟨rfl, fun _ _ => rfl, fun _ _ => rfl⟩, Nat.le_refl _⟩
  · rw [hmake]
    dsimp only
    have hold : ∀ m, (tree fs root).Reach m → gs.node m = fs.node m := by
      intro m hm
      rw [hnode, Function.update_of_ne (Nat.ne_of_lt (hs.made m hm))]
    refine ⟨⟨rfl, fun m hm => congrArg Node.children (hold m hm), fun m hm => congrArg Node.parent (hold m hm)⟩, ?_⟩
    rw [hnext]
    exact Nat.le_succ _

theorem make_keeps (kmalloc : Kmalloc H) (hs : Sound fs root) (hp : (tree fs root).Reach p) (name : List UInt8)
    (flags : NodeKind) (hn : (tree fs root).Reach n) :
    (tree (ramfsMake kmalloc fs (some p) name flags).2 root).Reach n :=
  (apply_keeps (e := .make p name flags) kmalloc hs hp trivial hn).resolve_right (fun hout => by cases hout)

theorem make_kids (kmalloc : Kmalloc H) (hs : Sound fs root) (hp : (tree fs root).Reach p) (name : List UInt8)
    (flags : NodeKind) (hn : (tree fs root).Reach n) (hnp : n ≠ p) :
    ((ramfsMake kmalloc fs (some p) name flags).2.node n).children = (fs.node n).children := by
  rcases make_forest kmalloc hs hp name flags with ⟨hsame, -, -⟩ | ⟨-, -, hlink, -⟩
  · exact hsame.kids n hn
  · exact hlink.kids n hnp (Nat.ne_of_lt (hs.made n hn))

/-- A node made in a directory with space is within reach, without children. -/
theorem make_given (hs : Sound fs root) (hp : (tree fs root).Reach p)
    (hroom : (fs.node p).children.length < maxChildren) {name : List UInt8} {flags : NodeKind}
    (hn : (ramfsMake kmalloc fs (some p) name flags).1 = some n) :
    n = fs.next ∧ (tree (ramfsMake kmalloc fs (some p) name flags).2 root).Reach n ∧
      ((ramfsMake kmalloc fs (some p) name flags).2.node n).children = [] := by
  rcases make_forest kmalloc hs hp name flags with ⟨-, -, hno⟩ | ⟨hsome, -, hlink, -⟩
  · rcases hno with hno | hno
    · rw [hno] at hn
      cases hn
    · omega
  · obtain rfl := Option.some.inj (hsome.symm.trans hn)
    exact ⟨rfl, (hlink.reach_iff hp hs.not_next).mpr (Or.inr rfl), hlink.at_node⟩

theorem motd_only_contents (fs : Ramfs H) (motd : Option Nat) : OnlyContents fs (writeMotd fs motd) := by
  unfold writeMotd
  cases motd with
  | none => exact only_contents fs
  | some motd =>
    dsimp only
    cases hw : ramfsWrite fs motd 0 motdText with
    | error e => exact only_contents fs
    | ok r => exact @write_only_contents H fs r.2 motd 0 r.1 motdText hw

/-- The root alone is sound. -/
theorem root_sound {heap : H} {node : Node} (hnode : gs.node = Function.update (emptyRamfs heap).node 0 node)
    (hnext : gs.next = 1) (hleaf : node.children = []) (hup : node.parent = none) :
    Sound gs 0 ∧ (gs.node 0).children = [] := by
  have hroot : gs.node 0 = node := by
    rw [hnode, Function.update_self]
  have hkids : (gs.node 0).children = [] := by
    rw [hroot, hleaf]
  have hreach : ∀ m, (tree gs 0).Reach m → m = 0 := by
    intro m hm
    induction hm with
    | refl => rfl
    | tail hx hc ih =>
      subst ih
      unfold Forest.Child tree at hc
      dsimp only at hc
      rw [hkids] at hc
      cases hc
  refine ⟨⟨⟨?_, fun d hd => ?_, fun d c hd hc => ?_, fun d hd => ?_⟩, fun m hm => ?_⟩, hkids⟩
  · unfold tree
    dsimp only
    rw [hroot, hup]
  · unfold tree
    dsimp only
    rw [hreach d hd, hkids]
    exact List.nodup_nil
  · unfold tree at hc
    dsimp only at hc
    rw [hreach d hd, hkids] at hc
    cases hc
  · unfold tree
    dsimp only
    rw [hreach d hd, hkids]
    exact Nat.zero_le _
  · rw [hreach m hm, hnext]
    exact Nat.one_pos

theorem stored_fits (name : List UInt8) : (storedName name).length < vfsNameMax := by
  unfold storedName
  rw [List.length_take]
  exact Nat.lt_of_le_of_lt (Nat.min_le_left _ _) (by decide)

/-- Mounting makes the root, two directories in it and a file in the first one. -/
theorem mount_steps (kmalloc : Kmalloc H) (heap : H) (hroot : (mountRamfs kmalloc heap).fsRoot = some root) :
    ∃ gs, Sound gs root ∧ (gs.node root).children = [] ∧ (∀ m, (gs.node m).name.length < vfsNameMax) ∧
      SameTree (ramfsMake kmalloc (ramfsMake kmalloc (ramfsMake kmalloc gs (some root) (bytes "etc") .dir).2
        (some root) (bytes "dev") .dir).2 (ramfsMake kmalloc gs (some root) (bytes "etc") .dir).1
          (bytes "motd") .file).2 (mountRamfs kmalloc heap).fs := by
  unfold mountRamfs ramfsInit at hroot ⊢
  rcases make_node_cases kmalloc (emptyRamfs heap) (bytes "/") .dir with
    ⟨heap', hmake⟩ | ⟨node, gs, hmake, hnext, hnode, hname, hleaf, hup⟩
  · rw [hmake] at hroot
    cases hroot
  rw [hmake] at hroot ⊢
  dsimp only at hroot ⊢
  obtain rfl := Option.some.inj hroot
  obtain ⟨hsound, hkids⟩ := root_sound hnode hnext hleaf hup
  refine ⟨gs, hsound, hkids, fun m => ?_, (motd_only_contents _ _).toSameTree⟩
  rw [hnode]
  by_cases hm : m = (emptyRamfs heap).next
  · rw [hm, Function.update_self, hname]
    exact stored_fits _
  · rw [Function.update_of_ne hm]
    exact Nat.zero_lt_succ _

theorem same_forest (h : SameTree fs gs) (root : Nat) : (tree fs root).Same (tree gs root) :=
  ⟨rfl, fun d _ => h.children d, fun c _ => h.parent c⟩

theorem Sound.same_tree (hs : Sound fs root) (h : SameTree fs gs) : Sound gs root :=
  hs.same (same_forest h root) (Nat.le_of_eq h.next.symm)

def Reachable (s : ShellFs H) (n : Nat) : Prop := ∃ root, s.fsRoot = some root ∧ (tree s.fs root).Reach n

theorem reachable_iff (hroot : s.fsRoot = some root) : Reachable s n ↔ (tree s.fs root).Reach n := by
  constructor
  · rintro ⟨root', hroot', hn⟩
    obtain rfl := Option.some.inj (hroot.symm.trans hroot')
    exact hn
  · exact fun hn => ⟨root, hroot, hn⟩

theorem not_reachable (hroot : s.fsRoot = none) : ¬ Reachable s n := by
  rintro ⟨root, hsome, -⟩
  rw [hroot] at hsome
  cases hsome

theorem no_edit (hroot : s.fsRoot = none) (cwd : List UInt8) (cmd : ShellCmd) : editOf s cwd cmd = .none := by
  unfold editOf
  rw [cwd_no_root hroot]

/-- What is within reach after a command. -/
theorem step_reachable (hroot : s.fsRoot = some root) (cwd : List UInt8) (cmd : ShellCmd) :
    Reachable (shellStep kmalloc s cwd cmd).2 n ↔
      (tree (applyEdit kmalloc s.fs (editOf s cwd cmd)) root).Reach n := by
  rw [reachable_iff ((step_root kmalloc s cwd cmd).trans hroot)]
  exact (same_forest (step_edit kmalloc s cwd cmd) root).reach_iff

theorem step_sound (hroot : s.fsRoot = some root) (hs : Sound s.fs root) (cwd : List UInt8) (cmd : ShellCmd) :
    Sound (shellStep kmalloc s cwd cmd).2.fs root :=
  (hs.apply (edit_allowed hroot cwd cmd)).same_tree (step_edit kmalloc s cwd cmd)

theorem step_next (kmalloc : Kmalloc H) (hroot : s.fsRoot = some root) (hs : Sound s.fs root) (cwd : List UInt8)
    (cmd : ShellCmd) : s.fs.next ≤ (shellStep kmalloc s cwd cmd).2.fs.next := by
  rw [(step_edit kmalloc s cwd cmd).next]
  exact apply_next_le kmalloc hs (edit_allowed hroot cwd cmd)

/-- What mounting makes is sound. -/
theorem mount_sound (kmalloc : Kmalloc H) (heap : H) (hroot : (mountRamfs kmalloc heap).fsRoot = some root) :
    Sound (mountRamfs kmalloc heap).fs root := by
  obtain ⟨gs, hsound, hkids, -, hsame⟩ := mount_steps kmalloc heap hroot
  have hroot := (tree gs root).reach_root
  have hetc := hsound.make hroot kmalloc (bytes "etc") .dir
  have hdev := hetc.make (tree _ root).reach_root kmalloc (bytes "dev") .dir
  refine Sound.same_tree ?_ hsame
  cases hgiven : (ramfsMake kmalloc gs (some root) (bytes "etc") .dir).1 with
  | none =>
    obtain ⟨hstill, hnext⟩ := make_no_parent kmalloc hdev (bytes "motd") .file
    exact hdev.same hstill hnext
  | some etc =>
    have hroom : (gs.node root).children.length < maxChildren := by
      rw [hkids]
      decide
    obtain ⟨-, hreach, -⟩ := make_given hsound hroot hroom hgiven
    exact hdev.make (make_keeps kmalloc hetc (tree _ root).reach_root _ _ hreach) kmalloc _ _

end Edits

section Shape

variable {H : Type}

def TreeShaped (s : ShellFs H) : Prop := ∀ root, s.fsRoot = some root → (tree s.fs root).IsTree maxChildren

/-- The shell, the nodes that were linked once and those that `rm` has removed. -/
structure Watched (H : Type) where
  shell : ShellFs H
  linked : Set Nat
  removed : Set Nat

def watchStep (kmalloc : Kmalloc H) (w : Watched H) (op : List UInt8 × ShellCmd) : Except Fault String × Watched H :=
  let (r, shell) := shellStep kmalloc w.shell op.1 op.2
  (r, ⟨shell, w.linked ∪ {n | Reachable shell n},
    w.removed ∪ {n | takenOut (editOf w.shell op.1 op.2) = some n}⟩)

def bootWatched (kmalloc : Kmalloc H) (heap : H) : Watched H :=
  ⟨mountRamfs kmalloc heap, {n | Reachable (mountRamfs kmalloc heap) n}, ∅⟩

/-- There is a tree, and nothing has dropped out of it. -/
structure Intact (w : Watched H) : Prop where
  shaped : TreeShaped w.shell
  kept : ∀ n ∈ w.linked, n ∉ w.removed → Reachable w.shell n

/-- A `rm` removes a node without children, and a `mv` into a directory takes the node to
one other than itself that has space. -/
def LosesNone (w : Watched H) (op : List UInt8 × ShellCmd) : Prop :=
  Tidy w.shell.fs (editOf w.shell op.1 op.2)

structure Noted (w : Watched H) : Prop where
  sound : ∀ root, w.shell.fsRoot = some root → Sound w.shell.fs root
  linked : ∀ n, Reachable w.shell n → n ∈ w.linked
  removed : ∀ n ∈ w.removed, n < w.shell.fs.next ∧ ¬ Reachable w.shell n

variable {kmalloc : Kmalloc H} {w : Watched H} {op : List UInt8 × ShellCmd}

theorem Noted.step (h : Noted w) : Noted (watchStep kmalloc w op).2 := by
  have hstep_root := step_root kmalloc w.shell op.1 op.2
  refine ⟨fun root hroot => ?_, fun n hn => Or.inr hn, ?_⟩
  · have hroot := hstep_root.symm.trans hroot
    exact step_sound hroot (h.sound root hroot) op.1 op.2
  · cases hroot : w.shell.fsRoot with
    | none =>
      rintro n (hn | hout)
      · have hsame := (step_edit kmalloc w.shell op.1 op.2).next
        rw [no_edit hroot] at hsame
        exact ⟨(h.removed n hn).1.trans_eq hsame.symm, not_reachable (hstep_root.trans hroot)⟩
      · rw [no_edit hroot] at hout
        cases hout
    | some root =>
      have hs := h.sound root hroot
      have hallowed := edit_allowed hroot op.1 op.2
      have hnext := step_next kmalloc hroot hs op.1 op.2
      have hreach : ∀ n, Reachable (shellStep kmalloc w.shell op.1 op.2).2 n ↔ _ :=
        fun n => step_reachable hroot op.1 op.2
      rintro n (hn | hout)
      · obtain ⟨hlt, hno⟩ := h.removed n hn
        refine ⟨Nat.lt_of_lt_of_le hlt hnext, fun hafter => ?_⟩
        rcases apply_reach hs hallowed ((hreach n).mp hafter) with hbefore | rfl
        · exact hno ((reachable_iff hroot).mpr hbefore)
        · exact Nat.lt_irrefl _ hlt
      · refine ⟨Nat.lt_of_lt_of_le ?_ hnext, fun hafter => apply_out hs hallowed hout ((hreach n).mp hafter)⟩
        exact hs.made n (taken_reach hallowed hout)

/-- One step keeps all in the tree exactly when it loses none. -/
theorem intact_step_iff (h : Noted w) (hi : Intact w) : Intact (watchStep kmalloc w op).2 ↔ LosesNone w op := by
  cases hroot : w.shell.fsRoot with
  | none =>
    have hedit := no_edit hroot op.1 op.2
    have hafter : (shellStep kmalloc w.shell op.1 op.2).2.fsRoot = none := (step_root ..).trans hroot
    refine iff_of_true ⟨fun root hsome => ?_, fun n hn hnot => ?_⟩ ?_
    · cases hafter.symm.trans hsome
    · rcases hn with hn | hn
      · exact absurd (hi.kept n hn (fun hr => hnot (Or.inl hr))) (not_reachable hroot)
      · exact hn
    · unfold LosesNone
      rw [hedit]
      trivial
  | some root =>
    have hs := h.sound root hroot
    have hallowed := edit_allowed hroot op.1 op.2
    have hreach : ∀ n, Reachable (shellStep kmalloc w.shell op.1 op.2).2 n ↔ _ :=
      fun n => step_reachable hroot op.1 op.2
    constructor
    · intro hafter
      by_contra hno
      obtain ⟨n, hn, hkept, hlost⟩ := apply_loses kmalloc hs hallowed hno
      have hbefore : Reachable w.shell n := (reachable_iff hroot).mpr hn
      refine hlost ((hreach n).mp (hafter.kept n (Or.inl (h.linked n hbefore)) ?_))
      rintro (hr | hout)
      · exact (h.removed n hr).2 hbefore
      · exact hkept hout
    · intro hq
      refine ⟨fun root' hsome => ?_, fun n hn hnot => ?_⟩
      · obtain rfl := Option.some.inj (hroot.symm.trans ((step_root ..).symm.trans hsome))
        exact (step_sound hroot hs op.1 op.2).linked.is_tree
      · rcases hn with hn | hn
        · have hbefore := hi.kept n hn (fun hr => hnot (Or.inl hr))
          have hkeeps := apply_keeps kmalloc hs hallowed hq ((reachable_iff hroot).mp hbefore)
          exact (hreach n).mpr (hkeeps.resolve_right (fun hout => hnot (Or.inr hout)))
        · exact hn

theorem boot_noted (kmalloc : Kmalloc H) (heap : H) : Noted (bootWatched kmalloc heap) :=
  ⟨fun _ hroot => mount_sound kmalloc heap hroot, fun _ hn => hn, fun _ hn => hn.elim⟩

theorem boot_intact (kmalloc : Kmalloc H) (heap : H) : Intact (bootWatched kmalloc heap) :=
  ⟨fun _ hroot => (mount_sound kmalloc heap hroot).linked.is_tree, fun _ hn _ => hn⟩

/-- Whatever commands are given, the nodes within reach form a tree. -/
theorem tree_shape_kept (kmalloc : Kmalloc H) (heap : H) (ops : List (List UInt8 × ShellCmd)) :
    TreeShaped (run (watchStep kmalloc) (bootWatched kmalloc heap) ops).2.shell := by
  have hnoted : Noted (run (watchStep kmalloc) (bootWatched kmalloc heap) ops).2 :=
    run_invariant (Q := fun _ => True) (fun _ _ _ h => h.step) (fun _ _ => trivial) (boot_noted kmalloc heap)
  exact fun root hroot => (hnoted.sound root hroot).linked.is_tree

/-- After boot the nodes form a tree in every state of a run, and all that were linked and
not removed are in it, exactly when no command loses one. -/
theorem tree_intact_iff (kmalloc : Kmalloc H) (heap : H) (ops : List (List UInt8 × ShellCmd)) :
    Along (After (watchStep kmalloc) Intact) (watchStep kmalloc) (bootWatched kmalloc heap) ops ↔
      Along LosesNone (watchStep kmalloc) (bootWatched kmalloc heap) ops :=
  Along.after_iff (J := Noted) (fun _ _ h _ _ => h.step) (fun _ _ h hi => intact_step_iff h hi)
    (boot_noted kmalloc heap) (boot_intact kmalloc heap) ops

/-- A directory is made and moved into itself. -/
def movedIntoItself : List (List UInt8 × ShellCmd) :=
  [(bytes "/", .mkdir (bytes "d")), (bytes "/", .mv (bytes "d") (bytes "d"))]

theorem directory_moved_away :
    let w := (run (watchStep everyBlock) (bootWatched everyBlock ()) movedIntoItself).2
    4 ∈ w.linked ∧ 4 ∉ w.removed ∧ ¬ Reachable w.shell 4 := by
  rw [bootWatched, mount_eq]
  intro w
  let s := (cmdMkdir everyBlock ⟨⟨bootNode, 4, ()⟩, some 0⟩ (bytes "/") (bytes "d")).2
  have hroot : s.fsRoot = some 0 := by decide +kernel
  have hmade : 4 ∈ (s.fs.node 0).children := by decide +kernel
  refine ⟨Or.inl (Or.inr ⟨0, hroot, (tree s.fs 0).reach_root.child hmade⟩), ?_, fun hn => ?_⟩
  · rintro ((hno | hno) | hno)
    · exact hno
    · revert hno
      decide +kernel
    · revert hno
      decide +kernel
  · have hroot : w.shell.fsRoot = some 0 := by decide +kernel
    have hreach := (reachable_iff hroot).mp hn
    have hclosed : ∀ d ∈ [0, 1, 2, 3], ∀ c ∈ (w.shell.fs.node d).children, c ∈ [0, 1, 2, 3] := by decide +kernel
    have hin : 4 ∈ [0, 1, 2, 3] := hreach.mem (S := {n | n ∈ [0, 1, 2, 3]}) (by decide) hclosed
    revert hin
    decide

end Shape

end BaSic.Proofs.RamfsTree
