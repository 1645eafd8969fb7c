import BaSic.Kernel.Shell
import BaSic.Proofs.SiblingNames

namespace BaSic.Proofs.WorkDir
open Kernel Fs Lib ShellEdits RamfsTree SiblingNames

inductive ShellLine where
  | cd (path : List UInt8)
  | edit (cmd : ShellCmd)

variable {H : Type}

/-- A command given in the working directory the shell is in. -/
def lineStep (kmalloc : Kmalloc H) (prevNext : Bool) (s : Shell H) :
    ShellLine → Except Fault (List UInt8) × Shell H
  | .cd path => cmdCd prevNext s path
  | .edit cmd =>
    let (r, files) := shellStep kmalloc s.files s.cwd.chars cmd
    (r.map bytes, { s with files := files })

def bootShell (kmalloc : Kmalloc H) (heap : H) : Shell H := ⟨mountRamfs kmalloc heap, rootPath, rootPath⟩

def InDir (s : Shell H) : Prop := (dirAt s.files s.cwd.chars).isSome = true

/-- A `cd -` is given while there is a directory to go back to. -/
def WayBack (s : Shell H) : ShellLine → Prop
  | .cd path => path = [minus] → (dirAt s.files s.prevCwd.chars).isSome = true
  | .edit _ => True

/-- The directory has the children it had, under the same names. -/
structure KeepsDir (fs gs : Ramfs H) (m : Nat) : Prop where
  children : (gs.node m).children = (fs.node m).children
  names : ∀ c ∈ (fs.node m).children, nameOf gs c = nameOf fs c

/-- The edit is made in the directory, or in one of those in it. -/
def Near (fs : Ramfs H) (p : Nat) : Edit → Prop
  | .none => True
  | .make q _ _ => q = p ∨ q ∈ (fs.node p).children
  | .unlink q _ | .rename q _ _ | .move q _ _ => q = p

variable {kmalloc : Kmalloc H} {fs gs : Ramfs H} {s : Shell H} {root p m cur : Nat} {name path : List UInt8}
  {e : Edit} {prevNext : Bool}

theorem finddir_keeps (h : KeepsDir fs gs m) (name : List UInt8) : ramfsFinddir gs m name = ramfsFinddir fs m name := by
  unfold ramfsFinddir
  rw [h.children]
  refine List.find?_congr (fun c hc => ?_)
  have hname := h.names c hc
  unfold nameOf at hname
  rw [hname]

/-- What a path leads to stays there while all directories above it are kept. -/
theorem resolve_from_keeps (hcur : (tree fs root).Reach cur)
    (h : ∀ m, (tree fs root).Reach m → Relation.TransGen (tree fs root).Child m p → KeepsDir fs gs m) (fuel : Nat)
    (hp : resolveFrom ramfsOps fs fuel (some cur) path = some p) :
    resolveFrom ramfsOps gs fuel (some cur) path = some p := by
  induction fuel generalizing cur path with
  | zero => exact hp
  | succ fuel ih =>
    unfold resolveFrom at hp ⊢
    split
    · rename_i hend
      rw [if_pos hend] at hp
      exact hp
    · rename_i hmore
      rw [if_neg hmore] at hp
      dsimp only at hp ⊢
      cases hf : vfsFinddir ramfsOps fs (some cur)
          ((path.takeWhile (· ≠ slash)).take (vfsNameMax - 1)) with
      | none =>
        rw [hf, resolve_from_none] at hp
        cases hp
      | some next =>
        rw [hf] at hp
        have hchild : (tree fs root).Child cur next := (finddir_some hf).1
        have habove := Relation.TransGen.head' hchild (resolve_from_below root fuel hp)
        have hf' : vfsFinddir ramfsOps gs (some cur)
            ((path.takeWhile (· ≠ slash)).take (vfsNameMax - 1)) = some next :=
          (finddir_keeps (h cur hcur habove) _).trans hf
        rw [hf']
        exact ih (hcur.child hchild) hp

theorem add_child_flags (fs : Ramfs H) (q c m : Nat) :
    ((addChild fs q c).node m).flags = (fs.node m).flags := add_child_congr Node.flags (fun _ _ _ => rfl) fs q c m

theorem make_flags (kmalloc : Kmalloc H) (fs : Ramfs H) (parent : Option Nat) (name : List UInt8) (flags : NodeKind)
    (hm : m ≠ fs.next) : ((ramfsMake kmalloc fs parent name flags).2.node m).flags = (fs.node m).flags := by
  refine ramfs_make_rule (P := fun _ gs => (gs.node m).flags = (fs.node m).flags) ?_
    (fun gs q c hold => (add_child_flags gs q c m).trans hold)
  rcases make_node_cases kmalloc fs name flags with ⟨heap, hmake⟩ | ⟨node, gs, hmake, -, hnode, -, -, -⟩
  · rw [hmake]
  · rw [hmake, hnode, Function.update_of_ne hm]

theorem unlink_flags (fs : Ramfs H) (q n m : Nat) : ((unlinkChild fs q n).node m).flags = (fs.node m).flags := by
  unfold unlinkChild
  refine set_node_congr Node.flags _ ?_ m
  rfl

/-- No edit turns a file into a directory or a directory into a file. -/
theorem apply_flags (kmalloc : Kmalloc H) (fs : Ramfs H) (e : Edit) (hm : m ≠ fs.next) :
    ((applyEdit kmalloc fs e).node m).flags = (fs.node m).flags := by
  cases e with
  | none => rfl
  | make q name flags => exact make_flags kmalloc fs (some q) name flags hm
  | unlink q n => exact unlink_flags fs q n m
  | rename q n name =>
    unfold applyEdit
    refine set_node_congr Node.flags _ ?_ m
    rfl
  | move q n d =>
    unfold applyEdit
    dsimp only
    split
    · unfold linkInto
      dsimp only
      refine Eq.trans (set_node_congr Node.flags _ ?_ m) (Eq.trans (set_node_congr Node.flags _ ?_ m) ?_)
      · rfl
      · rfl
      · exact unlink_flags fs q n m
    · exact unlink_flags fs q n m

theorem edit_in_near (fs : Ramfs H) (p : Nat) (cmd : ShellCmd) : Near fs p (editIn fs p cmd) :=
  edit_in_rule trivial (fun _ _ _ hd => hd) (fun _ _ => rfl) (fun _ _ _ => rfl) (fun _ _ _ _ => rfl) cmd

/-- An edit in a directory keeps the directories above it. -/
theorem apply_keeps_above (kmalloc : Kmalloc H) (hs : Sound fs root) (hp : (tree fs root).Reach p)
    (hallowed : Allowed (tree fs root) e) (hnear : Near fs p e) (hm : (tree fs root).Reach m)
    (habove : Relation.TransGen (tree fs root).Child m p) : KeepsDir fs (applyEdit kmalloc fs e) m := by
  have hmp : m ≠ p := by
    rintro rfl
    exact hs.linked.acyclic hm habove
  have hunder : ∀ c, c ∈ (fs.node p).children → m ≠ c := by
    rintro c hc rfl
    exact hs.linked.acyclic hm (habove.tail hc)
  have hchild : ∀ c ∈ (fs.node m).children, c ∉ (fs.node p).children := by
    intro c hc hc'
    exact hmp (Option.some.inj ((hs.linked.parent m c hm hc).symm.trans (hs.linked.parent p c hp hc')))
  have hold : ∀ c ∈ (fs.node m).children, c ≠ fs.next :=
    fun c hc => Nat.ne_of_lt (hs.made c (hm.child hc))
  cases e with
  | none => exact ⟨rfl, fun _ _ => rfl⟩
  | make q name flags =>
    have hmq : m ≠ q := by
      rcases hnear with rfl | hq
      · exact hmp
      · exact hunder q hq
    refine ⟨make_kids kmalloc hs hallowed name flags hm hmq, fun c hc => ?_⟩
    exact (make_names kmalloc fs (some q) name flags).1 c (hold c hc)
  | unlink q n =>
    obtain rfl := hnear
    refine ⟨(unlink_forest fs root q n).kids m hmp (hunder n hallowed.2), fun c _ => ?_⟩
    exact unlink_name fs q n c
  | rename q n name =>
    obtain rfl := hnear
    refine ⟨(rename_forest fs root n (storedName name)).kids m hm, fun c hc => ?_⟩
    have hcn : c ≠ n := fun hcn => hchild c hc (hcn ▸ hallowed.2)
    exact congrArg Node.name (set_node_ne fs _ hcn)
  | move q n d =>
    obtain rfl := hnear
    obtain ⟨-, hn, hd⟩ := hallowed
    refine ⟨?_, fun c _ => move_name kmalloc fs q n d c⟩
    rcases move_forest hs hp hn hd kmalloc with ⟨-, hmove⟩ | ⟨-, hcut⟩
    · exact hmove.kids m hmp (hunder d hd)
    · exact hcut.kids m hmp (hunder n hn)

theorem dir_at_some {files : ShellFs H} :
    dirAt files path = some p ↔ cwdNode files path = some p ∧ (files.fs.node p).flags = .dir := by
  unfold dirAt
  rw [Option.filter_eq_some_iff, decide_eq_true_eq]

/-- The nodes within reach are linked, and the root is a directory. -/
structure Kept (files : ShellFs H) : Prop where
  sound : ∀ root, files.fsRoot = some root → Sound files.fs root
  rootDir : ∀ root, files.fsRoot = some root → (files.fs.node root).flags = .dir

theorem edit_flags (kmalloc : Kmalloc H) (files : ShellFs H) (cwd : List UInt8) (cmd : ShellCmd)
    (hm : m ≠ files.fs.next) :
    ((shellStep kmalloc files cwd cmd).2.fs.node m).flags = (files.fs.node m).flags :=
  ((step_contents kmalloc files cwd cmd).flags m).trans (apply_flags kmalloc files.fs _ hm)

theorem Kept.edit {files : ShellFs H} (h : Kept files) (kmalloc : Kmalloc H) (cwd : List UInt8) (cmd : ShellCmd) :
    Kept (shellStep kmalloc files cwd cmd).2 := by
  refine ⟨fun root hroot => ?_, fun root hroot => ?_⟩
  · have hroot := (step_root kmalloc files cwd cmd).symm.trans hroot
    exact step_sound hroot (h.sound root hroot) cwd cmd
  · have hroot := (step_root kmalloc files cwd cmd).symm.trans hroot
    have hmade := (h.sound root hroot).made root (tree files.fs root).reach_root
    exact (edit_flags kmalloc files cwd cmd (Nat.ne_of_lt hmade)).trans (h.rootDir root hroot)

/-- A command leaves the directory it is given in where it was. -/
theorem edit_dir_at {files : ShellFs H} {cwd : List UInt8} (h : Kept files) (kmalloc : Kmalloc H)
    (hp : dirAt files cwd = some p) (cmd : ShellCmd) :
    dirAt (shellStep kmalloc files cwd cmd).2 cwd = some p := by
  obtain ⟨hnode, hflags⟩ := dir_at_some.mp hp
  cases hroot : files.fsRoot with
  | none =>
    rw [cwd_no_root hroot] at hnode
    cases hnode
  | some root =>
    have hs := h.sound root hroot
    have hreach := cwd_reach hroot hnode
    have hedit : editOf files cwd cmd = editIn files.fs p cmd := by
      unfold editOf
      rw [hnode]
    have hallowed : Allowed (tree files.fs root) (editIn files.fs p cmd) := edit_in_allowed hreach cmd
    have hcontents := step_contents kmalloc files cwd cmd
    rw [hedit] at hcontents
    refine dir_at_some.mpr ⟨?_, ?_⟩
    · unfold cwdNode
      rw [step_root, same_resolve hcontents.toSameTree, hroot]
      unfold cwdNode vfsResolve at hnode
      unfold vfsResolve
      rw [hroot] at hnode
      split
      · rename_i hslash
        rw [if_pos hslash] at hnode
        cases hnode
      · rename_i hslash
        rw [if_neg hslash] at hnode
        refine resolve_from_keeps (tree files.fs root).reach_root (fun m hm habove => ?_) _ hnode
        exact apply_keeps_above kmalloc hs hreach hallowed (edit_in_near files.fs p cmd) hm habove
    · exact (edit_flags kmalloc files cwd cmd (Nat.ne_of_lt (hs.made p hreach))).trans hflags

theorem root_dir_at {files : ShellFs H} (h : Kept files) (hroot : files.fsRoot = some root) :
    dirAt files rootPath.chars = some root :=
  dir_at_some.mpr ⟨hroot, h.rootDir root hroot⟩

theorem in_dir_root (h : InDir s) : ∃ root, s.files.fsRoot = some root := by
  obtain ⟨p, hp⟩ := Option.isSome_iff_exists.mp h
  cases hroot : s.files.fsRoot with
  | none =>
    have hnone : cwdNode s.files s.cwd.chars = none := cwd_no_root hroot
    rw [(dir_at_some.mp hp).1] at hnone
    cases hnone
  | some root => exact ⟨root, rfl⟩

theorem Kept.line (h : Kept s.files) (line : ShellLine) : Kept (lineStep kmalloc prevNext s line).2.files := by
  cases line with
  | edit cmd => exact h.edit kmalloc s.cwd.chars cmd
  | cd path =>
    unfold lineStep cmdCd
    dsimp only
    repeat' split
    all_goals exact h

/-- One line leaves the shell in a directory exactly when it does not go back to none. -/
theorem in_dir_step_iff (h : Kept s.files) (hdir : InDir s) (line : ShellLine) :
    InDir (lineStep kmalloc prevNext s line).2 ↔ WayBack s line := by
  cases line with
  | edit cmd =>
    obtain ⟨p, hp⟩ := Option.isSome_iff_exists.mp hdir
    refine iff_of_true ?_ trivial
    exact Option.isSome_iff_exists.mpr ⟨p, edit_dir_at h kmalloc hp cmd⟩
  | cd path =>
    unfold lineStep cmdCd WayBack
    dsimp only
    by_cases hempty : path = []
    · obtain ⟨root, hroot⟩ := in_dir_root hdir
      rw [if_pos hempty]
      refine iff_of_true ?_ (fun hminus => ?_)
      · exact Option.isSome_iff_exists.mpr ⟨root, root_dir_at h hroot⟩
      · cases hempty.symm.trans hminus
    · rw [if_neg hempty]
      by_cases hminus : path = [minus]
      · rw [if_pos hminus]
        exact ⟨fun hback _ => hback, fun hback => hback hminus⟩
      · rw [if_neg hminus]
        refine iff_of_true ?_ (fun hno => absurd hno hminus)
        cases makeFull s.cwd path with
        | error e => exact hdir
        | ok full =>
          dsimp only
          cases hfull : dirAt s.files full.chars with
          | none => exact hdir
          | some node => exact Option.isSome_iff_exists.mpr ⟨node, hfull⟩

theorem make_node_flags {flags : NodeKind} {n : Nat} (h : makeNode kmalloc fs name flags = (some n, gs)) :
    (gs.node n).flags = flags := by
  unfold makeNode at h
  dsimp only at h
  split at h
  · cases h
  · cases flags with
    | dir =>
      cases h
      rw [set_node_self]
    | file =>
      cases h
      rw [set_node_self]

theorem make_next_le (kmalloc : Kmalloc H) (fs : Ramfs H) (parent : Option Nat) (name : List UInt8)
    (flags : NodeKind) : fs.next ≤ (ramfsMake kmalloc fs parent name flags).2.next := by
  refine ramfs_make_rule (P := fun _ gs => fs.next ≤ gs.next) ?_
    (fun gs q c hle => hle.trans_eq (add_child_rest gs q c).2.symm)
  rcases make_node_cases kmalloc fs name flags with ⟨heap, hmake⟩ | ⟨node, gs, hmake, hnext, -, -, -, -⟩
  · rw [hmake]
  · rw [hmake]
    exact (Nat.le_succ _).trans_eq hnext.symm

/-- What has been made before keeps its kind. -/
theorem make_keeps_dir (kmalloc : Kmalloc H) (parent : Option Nat) (name : List UInt8) (flags : NodeKind)
    (h : m < fs.next ∧ (fs.node m).flags = .dir) :
    m < (ramfsMake kmalloc fs parent name flags).2.next ∧
      ((ramfsMake kmalloc fs parent name flags).2.node m).flags = .dir :=
  ⟨Nat.lt_of_lt_of_le h.1 (make_next_le kmalloc fs parent name flags),
    (make_flags kmalloc fs parent name flags (Nat.ne_of_lt h.1)).trans h.2⟩

theorem mount_kept (kmalloc : Kmalloc H) (heap : H) : Kept (mountRamfs kmalloc heap) := by
  refine ⟨fun root hroot => mount_sound kmalloc heap hroot, fun root hroot => ?_⟩
  unfold mountRamfs ramfsInit at hroot ⊢
  rcases make_node_cases kmalloc (emptyRamfs heap) (bytes "/") .dir with
    ⟨heap', hmake⟩ | ⟨node, gs, hmake, hnext, -, -, -, -⟩
  · rw [hmake] at hroot
    cases hroot
  have hkind := make_node_flags hmake
  rw [hmake] at hroot ⊢
  obtain rfl := Option.some.inj hroot
  have hmade : (emptyRamfs heap).next < gs.next ∧ (gs.node (emptyRamfs heap).next).flags = .dir :=
    ⟨hnext ▸ Nat.lt_succ_self _, hkind⟩
  refine ((motd_only_contents _ _).flags _).trans ?_
  exact (make_keeps_dir kmalloc _ _ _ (make_keeps_dir kmalloc _ _ _ (make_keeps_dir kmalloc _ _ _ hmade))).2

theorem boot_in_dir (kmalloc : Kmalloc H) (heap : H) :
    InDir (bootShell kmalloc heap) ↔ (mountRamfs kmalloc heap).fsRoot ≠ none := by
  constructor
  · intro h
    obtain ⟨root, hroot⟩ := in_dir_root h
    exact fun hnone => by cases hnone.symm.trans hroot
  · intro h
    obtain ⟨root, hroot⟩ := Option.ne_none_iff_exists'.mp h
    exact Option.isSome_iff_exists.mpr ⟨root, root_dir_at (mount_kept kmalloc heap) hroot⟩

/-- After boot the shell is in a directory in every state of a run, exactly when there is a
root and no `cd -` is given with no directory to go back to. -/
theorem work_dir_iff (kmalloc : Kmalloc H) (heap : H) (prevNext : Bool) (lines : List ShellLine) :
    InDir (bootShell kmalloc heap) ∧
        Along (After (lineStep kmalloc prevNext) InDir) (lineStep kmalloc prevNext) (bootShell kmalloc heap) lines ↔
      (mountRamfs kmalloc heap).fsRoot ≠ none ∧
        Along WayBack (lineStep kmalloc prevNext) (bootShell kmalloc heap) lines := by
  rw [← boot_in_dir]
  refine and_congr_right (fun hdir => ?_)
  exact Along.after_iff (J := fun s : Shell H => Kept s.files) (fun _ line h _ _ => h.line line)
    (fun _ line h hdir => in_dir_step_iff h hdir line) (mount_kept kmalloc heap) hdir lines

/-- The directory left is given another name before going back to it. -/
def renamedMeanwhile : List ShellLine :=
  [.edit (.mkdir (bytes "a")), .cd (bytes "a"), .cd (bytes "/"), .edit (.mv (bytes "a") (bytes "b")), .cd (bytes "-")]

theorem renamed_dir_lost :
    InDir (bootShell everyBlock ()) ∧
      ¬ InDir (run (lineStep everyBlock false) (bootShell everyBlock ()) renamedMeanwhile).2 := by
  refine ⟨?_, ?_⟩
  · unfold InDir
    decide +kernel
  · unfold InDir
    decide +kernel

end BaSic.Proofs.WorkDir
