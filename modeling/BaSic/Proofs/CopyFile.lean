import BaSic.Proofs.FileSizes
import BaSic.Proofs.MadeNodes
import BaSic.Proofs.PathWalk
import BaSic.Proofs.WorkDir

namespace BaSic.Proofs.CopyFile
open Kernel Fs Lib ShellEdits RamfsTree SiblingNames EditorSave RamfsBounds FileSizes MadeNodes PathWalk

variable {H : Type} {kmalloc : Kmalloc H} {fs gs : Ramfs H} {root d n p : Nat} {name last : List UInt8}
  {flags : NodeKind} {cur : Option Nat} {names : List (List UInt8)}

section Lookups

/-- Looking up names where directories look as before. -/
theorem walk_congr (hsame : ∀ d name, (tree fs root).Reach d → ramfsFinddir gs d name = ramfsFinddir fs d name)
    (hd : (tree fs root).Reach d) : walk ramfsOps gs (some d) names = walk ramfsOps fs (some d) names := by
  induction names generalizing d with
  | nil => rfl
  | cons name names ih =>
    have hstep : ∀ fs : Ramfs H, walk ramfsOps fs (some d) (name :: names) =
        walk ramfsOps fs (ramfsFinddir fs d name) names := fun _ => rfl
    rw [hstep, hstep, hsame d name hd]
    cases hc : ramfsFinddir fs d name with
    | none => simp
    | some c => exact ih (hd.child (finddir_some hc).1)

theorem walk_reach (hd : (tree fs root).Reach d) (h : walk ramfsOps fs (some d) names = some n) :
    (tree fs root).Reach n := by
  rw [walk_spells] at h
  induction h with
  | here n => exact hd
  | down hc _ ih => exact ih (hd.child (finddir_some hc).1)

theorem walk_concat (cur : Option Nat) (names : List (List UInt8)) (last : List UInt8) :
    walk ramfsOps fs cur (names ++ [last]) = (walk ramfsOps fs cur names).bind (fun d => ramfsFinddir fs d last) := by
  simp [walk, List.foldl_append]
  rfl

/-- A walk in the tree with a new node leads where it led before, or else to the node, if it
leads to the directory and then goes on with the name. -/
theorem walk_linked (hs : Sound fs root) (hp : (tree fs root).Reach p) (hmem : HasMemory kmalloc fs.heap)
    (hroom : (fs.node p).children.length < maxChildren) (hd : (tree fs root).Reach d) (names : List (List UInt8)) :
    walk ramfsOps (ramfsMake kmalloc fs (some p) name flags).2 (some d) names =
      (walk ramfsOps fs (some d) names).or
        (if names.getLast? = some (storedName name) ∧ walk ramfsOps fs (some d) names.dropLast = some p then
          some fs.next else none) := by
  have hleaf : ∀ last, ramfsFinddir (ramfsMake kmalloc fs (some p) name flags).2 fs.next last = none := by
    intro last
    obtain ⟨n, hn⟩ : ∃ n, (ramfsMake kmalloc fs (some p) name flags).1 = some n :=
      Option.ne_none_iff_exists'.mp (made_iff.mpr hmem)
    obtain ⟨rfl, -, hempty⟩ := make_given hs hp hroom hn
    simp [ramfsFinddir, hempty]
  induction names using List.reverseRecOn with
  | nil => simp [walk]
  | append_singleton names last ih =>
    rw [walk_concat, walk_concat, ih, List.getLast?_concat, List.dropLast_concat]
    cases hwalk : walk ramfsOps fs (some d) names with
    | none =>
      split
      · simp [hleaf]
      · simp
    | some e => simp [finddir_linked hs hp hmem hroom (walk_reach hd hwalk)]

end Lookups

/-- What `cmd_cp` does once it has its target: afterwards the target has the bytes of the source,
unless it is the source itself or has no buffer. -/
theorem copied (h : Sized fs) (n m : Nat) : ∃ gs, copyFile fs n m = (.ok (), gs) ∧ OnlyFile fs gs m ∧ Sized gs ∧
    fileBytes gs m = if n ≠ m ∧ (fs.node m).buf.isSome then fileBytes fs n else [] := by
  have hsized := h.copy n m
  by_cases hne : n = m
  · subst hne
    have hrun := copy_file_self h n
    rw [hrun] at hsized
    exact ⟨_, hrun, truncated_only fs n, hsized, by simp [fileBytes]⟩
  · cases hbuf : (fs.node m).buf with
    | none => exact ⟨fs, copy_file_none h hbuf, only_file fs m, h, by simp [fileBytes, contents_none hbuf]⟩
    | some buf =>
      obtain ⟨gs, hrun, hholds, honly⟩ := copy_file_holds h hne (by simp [hbuf])
      rw [hrun] at hsized
      exact ⟨gs, hrun, honly, hsized, by simp [holds_bytes hholds, hne]⟩

theorem length_bytes (h : Sized fs) (n : Nat) : (fileBytes fs n).length = (fs.node n).length.toNat := by
  rw [fileBytes, List.length_take, Nat.min_eq_left (h.length n)]

/-- What a path given in a working directory stands for. -/
def fullPath (cwd path : List UInt8) : List UInt8 :=
  if path.head? = some slash then path
  else if cwd.getLast? = some slash then cwd ++ path
  else cwd ++ slash :: path

/-- Where a copy is to be: the directory, the name in it, and the path that should lead there. -/
structure CopyTarget where
  dir : Nat
  name : List UInt8
  path : List UInt8

def copyTarget (fs : Ramfs H) (p : Nat) (cwd src dst : List UInt8) : CopyTarget :=
  match subdir fs p dst with
  | some dstdir => ⟨dstdir, src, fullPath cwd dst ++ slash :: src⟩
  | none => ⟨p, dst, fullPath cwd dst⟩

/-- The node that is written: the one of the name in the directory, or a new one. -/
def writtenNode (fs : Ramfs H) (t : CopyTarget) : Nat := (ramfsFinddir fs t.dir t.name).getD fs.next

/-- It has a buffer, or there is memory for one. -/
def Writable (kmalloc : Kmalloc H) (fs : Ramfs H) (t : CopyTarget) : Prop :=
  match ramfsFinddir fs t.dir t.name with
  | some n => (fs.node n).buf.isSome
  | none => HasBuffer kmalloc fs.heap

/-- Where the path leads: to a node that is there, or else to the new one, if the directory has
space for it and the path leads to the directory and goes on with the name as far as it is stored. -/
def landing (fs : Ramfs H) (fsRoot : Option Nat) (t : CopyTarget) : Option Nat :=
  (vfsResolve ramfsOps fs fsRoot t.path).or
    (if ramfsFinddir fs t.dir t.name = none ∧ (fs.node t.dir).children.length < maxChildren ∧
        (pieces t.path.tail).getLast? = some (storedName t.name) ∧
          walk ramfsOps fs fsRoot (pieces t.path.tail).dropLast = some t.dir then some fs.next else none)

variable {s : ShellFs H} {cwd src dst : List UInt8} {snode u : Nat} {t : CopyTarget}

/-- The path leads to the landing, once the target is there. -/
theorem landing_eq (hs : Sound fs root) (hdir : (tree fs root).Reach t.dir) (habs : t.path.head? = some slash)
    (hsome : (findOrMake kmalloc fs t.dir t.name).1 = some u) :
    vfsResolve ramfsOps (findOrMake kmalloc fs t.dir t.name).2 (some root) t.path = landing fs (some root) t := by
  have hreach : (tree fs root).Reach root := (tree fs root).reach_root
  unfold landing
  cases hfound : ramfsFinddir fs t.dir t.name with
  | some n => simp [findOrMake, hfound]
  | none =>
    simp only [findOrMake, hfound, ramfsMkfile] at hsome ⊢
    have hmem := (made_memory hsome).1
    simp only [resolve_eq, habs, ne_eq, not_true_eq_false, if_false, true_and]
    by_cases hroom : (fs.node t.dir).children.length < maxChildren
    · simp only [walk_linked hs hdir hmem hroom hreach, hroom, true_and]
    · have hsame : ∀ d name, (tree fs root).Reach d →
          ramfsFinddir (ramfsMake kmalloc fs (some t.dir) t.name .file).2 d name = ramfsFinddir fs d name :=
        fun d name hd => finddir_unlinked hs hdir (Nat.not_lt.mp hroom) hd
      simp [walk_congr hsame hreach, hroom]

/-- What looking up the target or making it leaves of the files. -/
theorem target_data (hsome : (findOrMake kmalloc fs t.dir t.name).1 = some u) :
    u = writtenNode fs t ∧ (((findOrMake kmalloc fs t.dir t.name).2.node u).buf.isSome ↔ Writable kmalloc fs t) ∧
      (∀ n, n ≠ fs.next → fileBytes (findOrMake kmalloc fs t.dir t.name).2 n = fileBytes fs n ∧
        ((findOrMake kmalloc fs t.dir t.name).2.node n).flags = (fs.node n).flags) ∧
      (ramfsFinddir fs t.dir t.name = none → ((findOrMake kmalloc fs t.dir t.name).2.node fs.next).flags = .file) := by
  unfold writtenNode Writable
  cases hfound : ramfsFinddir fs t.dir t.name with
  | some n =>
    simp only [findOrMake, hfound, Option.some.injEq] at hsome ⊢
    subst hsome
    simp
  | none =>
    simp only [findOrMake, hfound, ramfsMkfile] at hsome ⊢
    obtain ⟨hmem, rfl⟩ := made_memory hsome
    have hdata := add_child_data (withNode kmalloc fs t.name .file) t.dir fs.next
    have hflags := WorkDir.add_child_flags (withNode kmalloc fs t.name .file) t.dir fs.next
    have hnode : (withNode kmalloc fs t.name .file).node fs.next = madeNode kmalloc fs.heap t.name .file :=
      set_node_self _ _ _
    have hold : ∀ n, n ≠ fs.next → (withNode kmalloc fs t.name .file).node n = fs.node n :=
      fun n hn => set_node_ne _ _ hn
    rw [make_some hmem]
    refine ⟨rfl, ?_, fun n hn => ⟨?_, ?_⟩, fun _ => ?_⟩
    · rw [(hdata fs.next).1, hnode]
      by_cases hbuf : HasBuffer kmalloc fs.heap
      · simp [madeNode, hbuf]
      · simp [madeNode, hbuf]
    · simp [fileBytes, contents, hdata n, hold n hn]
    · rw [hflags, hold n hn]
    · rw [hflags, hnode]
      rfl

/-- The file has the bytes and the length that another had. -/
def SameFile (fs : Ramfs H) (n : Nat) (gs : Ramfs H) (m : Nat) : Prop :=
  fileBytes gs m = fileBytes fs n ∧ (gs.node m).length = (fs.node n).length

theorem same_file_iff (h : Sized fs) (hnew : Sized gs) {m : Nat} :
    SameFile fs n gs m ↔ fileBytes gs m = fileBytes fs n := by
  refine and_iff_left_of_imp (fun hbytes => ?_)
  rw [← UInt32.toNat_inj, ← length_bytes h, ← length_bytes hnew, hbytes]

/-- The source is as it was, and the path of the copy leads to a file like it. -/
def CopyRight (kmalloc : Kmalloc H) (s : ShellFs H) (cwd src dst : List UInt8) (p snode : Nat) : Prop :=
  let gs := (cmdCp kmalloc s cwd src dst).2.fs
  SameFile s.fs snode gs snode ∧
    ∃ n, vfsResolve ramfsOps gs s.fsRoot (copyTarget s.fs p cwd src dst).path = some n ∧
      (gs.node n).flags = .file ∧ SameFile s.fs snode gs n

/-- The source is not written, unless it is empty; and the path leads to a file that is written
and can be, or that is like the source anyway. -/
def CopyLands (kmalloc : Kmalloc H) (fs : Ramfs H) (fsRoot : Option Nat) (t : CopyTarget) (snode : Nat) : Prop :=
  (writtenNode fs t = snode → fileBytes fs snode = []) ∧
    ∃ n, landing fs fsRoot t = some n ∧ (n = fs.next ∨ (fs.node n).flags = .file) ∧
      if n = writtenNode fs t then fileBytes fs snode = [] ∨ Writable kmalloc fs t
      else fileBytes fs n = fileBytes fs snode

theorem cmd_cp_eq (hcwd : cwdNode s cwd = some p) (hsrc : ramfsFinddir s.fs p src = some snode)
    (hok : (cmdCp kmalloc s cwd src dst).1 = .ok "OK") : cmdCp kmalloc s cwd src dst =
      let t := copyTarget s.fs p cwd src dst
      cpInto s snode (findOrMake kmalloc s.fs t.dir t.name).1 (findOrMake kmalloc s.fs t.dir t.name).2 := by
  have hgiven : ¬ (src = [] ∨ dst = []) := by
    intro hnone
    simp [cmdCp, hnone] at hok
  have hfile : (s.fs.node snode).flags = .file := by
    by_contra hdir
    simp only [cmdCp, hgiven, if_false, hcwd, hsrc, Option.filter_some, hdir, decide_false, Bool.false_eq_true] at hok
    exact absurd (Except.ok.inj hok) (by decide)
  simp only [cmdCp, hgiven, if_false, hcwd, hsrc, Option.filter_some, hfile, decide_true, if_true, copyTarget, subdir]
  cases (ramfsFinddir s.fs p dst).filter (fun d => (s.fs.node d).flags = .dir) with
  | none => rfl
  | some dstdir => rfl

/-- A copy that is made: the target, and the file system before and after the bytes are copied. -/
theorem cp_runs (hsized : Sized s.fs) (hcwd : cwdNode s cwd = some p) (hsrc : ramfsFinddir s.fs p src = some snode)
    (hok : (cmdCp kmalloc s cwd src dst).1 = .ok "OK") :
    let t := copyTarget s.fs p cwd src dst
    ∃ u gs, findOrMake kmalloc s.fs t.dir t.name = (some u, gs) ∧ Sized gs ∧
      copyFile gs snode u = (.ok (), (cmdCp kmalloc s cwd src dst).2.fs) := by
  have heq := cmd_cp_eq hcwd hsrc hok
  have hmade := hsized.find_or_make kmalloc (copyTarget s.fs p cwd src dst).dir (copyTarget s.fs p cwd src dst).name
  rw [heq] at hok ⊢
  dsimp only at hok ⊢
  cases hfound : findOrMake kmalloc s.fs (copyTarget s.fs p cwd src dst).dir (copyTarget s.fs p cwd src dst).name with
  | mk node gs =>
    rw [hfound] at hmade hok
    cases node with
    | none => simp [cpInto] at hok
    | some u =>
      obtain ⟨gs', hcopy, -⟩ := copied hmade snode u
      exact ⟨u, gs, rfl, hmade, by simp [cpInto, hcopy]⟩

theorem target_dir_reach (hp : (tree s.fs root).Reach p) :
    (tree s.fs root).Reach (copyTarget s.fs p cwd src dst).dir := by
  unfold copyTarget
  cases hsub : subdir s.fs p dst with
  | none => exact hp
  | some dstdir => exact hp.child (subdir_some hsub).1

theorem full_path_absolute (hcwd : cwdNode s cwd = some p) (path : List UInt8) :
    (fullPath cwd path).head? = some slash ∧ fullPath cwd path ≠ [] := by
  have hslash : cwd.head? = some slash := by
    by_contra hno
    simp [cwdNode, vfsResolve, hno] at hcwd
  obtain ⟨c, cwd, rfl⟩ := List.exists_cons_of_ne_nil (show cwd ≠ [] by rintro rfl; simp at hslash)
  unfold fullPath
  split
  · rename_i habs
    exact ⟨habs, by rintro rfl; simp at habs⟩
  · split
    · simpa using hslash
    · simpa using hslash

theorem target_path_absolute (hcwd : cwdNode s cwd = some p) :
    (copyTarget s.fs p cwd src dst).path.head? = some slash := by
  obtain ⟨habs, hsome⟩ := full_path_absolute hcwd dst
  unfold copyTarget
  cases subdir s.fs p dst with
  | none => exact habs
  | some dstdir =>
    dsimp only
    rw [List.head?_append_of_ne_nil _ hsome, habs]

/-- A path leads to the next node only where it is made. -/
theorem landing_next (hs : Sound fs root) (h : landing fs (some root) t = some fs.next) :
    ramfsFinddir fs t.dir t.name = none := by
  unfold landing at h
  cases hold : vfsResolve ramfsOps fs (some root) t.path with
  | some n =>
    have hreach : (tree fs root).Reach n := cwd_reach (s := ⟨fs, some root⟩) rfl hold
    rw [hold, Option.some_or] at h
    exact absurd (hs.made n hreach) (by rw [Option.some.inj h]; exact Nat.lt_irrefl _)
  | none =>
    rw [hold, Option.none_or] at h
    split at h
    · rename_i hnew
      exact hnew.1
    · cases h

/-- What the copy leaves, from what looking up or making the target and copying the bytes leave. -/
theorem lands_iff {gs' : Ramfs H} (hs : Sound fs root) (hdir : (tree fs root).Reach t.dir)
    (habs : t.path.head? = some slash) (hsnode : snode < fs.next)
    (hfound : findOrMake kmalloc fs t.dir t.name = (some u, gs)) (honly : OnlyFile gs gs' u)
    (hbytes : fileBytes gs' u = if snode ≠ u ∧ (gs.node u).buf.isSome then fileBytes gs snode else []) :
    (fileBytes gs' snode = fileBytes fs snode ∧ ∃ n, vfsResolve ramfsOps gs' (some root) t.path = some n ∧
        (gs'.node n).flags = .file ∧ fileBytes gs' n = fileBytes fs snode) ↔
      CopyLands kmalloc fs (some root) t snode := by
  have hsome : (findOrMake kmalloc fs t.dir t.name).1 = some u := congrArg Prod.fst hfound
  have hland := landing_eq hs hdir habs hsome
  obtain ⟨rfl, hbuf, hold, hfile⟩ := target_data (congrArg Prod.fst hfound)
  rw [hfound] at hland hbuf hold hfile
  rw [← same_resolve honly.same_tree] at hland
  have hsource := hold snode (Nat.ne_of_lt hsnode)
  have hother : ∀ n, n ≠ writtenNode fs t → fileBytes gs' n = fileBytes gs n := fun n hn => by
    simp only [fileBytes, contents, only_file_other honly hn]
  have hflags : ∀ n, (gs'.node n).flags = (gs.node n).flags := fun n => by
    by_cases hn : n = writtenNode fs t
    · rw [hn, honly.flags]
    · rw [only_file_other honly hn]
  have hemptied : snode = writtenNode fs t → fileBytes gs' (writtenNode fs t) = [] := fun heq => by
    rw [hbytes, if_neg (fun hboth => hboth.1 heq)]
  have hcopied : snode ≠ writtenNode fs t → (fileBytes gs' (writtenNode fs t) = fileBytes fs snode ↔
      fileBytes fs snode = [] ∨ Writable kmalloc fs t) := fun hne => by
    rw [hbytes, hsource.1, ← hbuf]
    by_cases hw : (gs.node (writtenNode fs t)).buf.isSome
    · simp [hne, hw]
    · rw [if_neg (fun hboth => hw hboth.2), or_iff_left hw]
      exact eq_comm
  have hkept : fileBytes gs' snode = fileBytes fs snode ↔ (writtenNode fs t = snode → fileBytes fs snode = []) := by
    by_cases heq : snode = writtenNode fs t
    · have hnone : fileBytes gs' snode = [] := heq ▸ hemptied heq
      rw [hnone]
      exact ⟨fun h _ => h.symm, fun h => (h heq.symm).symm⟩
    · exact iff_of_true ((hother snode heq).trans hsource.1) (fun h => absurd h.symm heq)
  unfold CopyLands
  rw [hkept, hland]
  refine and_congr_right (fun hspared => exists_congr (fun n => and_congr_right (fun hn => and_congr ?_ ?_)))
  · by_cases hnext : n = fs.next
    · subst hnext
      exact iff_of_true ((hflags _).trans (hfile (landing_next hs hn))) (Or.inl rfl)
    · rw [hflags, (hold n hnext).2]
      exact (or_iff_right hnext).symm
  · by_cases hu : n = writtenNode fs t
    · rw [if_pos hu, hu]
      by_cases heq : snode = writtenNode fs t
      · have hnone := hspared heq.symm
        exact iff_of_true ((hemptied heq).trans hnone.symm) (Or.inl hnone)
      · exact hcopied heq
    · have hnext : n ≠ fs.next := fun hnext => hu (by
        subst hnext
        simp [writtenNode, landing_next hs hn])
      rw [if_neg hu, hother n hu, (hold n hnext).1]

/-- After a copy has been made the source is as it was and the path of the copy leads to its like,
if and only if the target was neither the source nor without a buffer, and the path leads to it. -/
theorem copy_right_iff (hsettled : Settled s) (hsized : Sized s.fs) (hcwd : cwdNode s cwd = some p)
    (hsrc : ramfsFinddir s.fs p src = some snode) (hok : (cmdCp kmalloc s cwd src dst).1 = .ok "OK") :
    CopyRight kmalloc s cwd src dst p snode ↔
      CopyLands kmalloc s.fs s.fsRoot (copyTarget s.fs p cwd src dst) snode := by
  obtain ⟨root, hroot⟩ : ∃ root, s.fsRoot = some root := by
    cases hnone : s.fsRoot with
    | none =>
      rw [cwd_no_root hnone] at hcwd
      cases hcwd
    | some root => exact ⟨root, rfl⟩
  have hs := hsettled.sound root hroot
  have hp := cwd_reach hroot hcwd
  have hsnode := hs.made snode (hp.child (finddir_some hsrc).1)
  obtain ⟨u, gs, hfound, hmade, hcopy⟩ := cp_runs hsized hcwd hsrc hok
  obtain ⟨gs', hcopy', honly, hnew, hbytes⟩ := copied hmade snode u
  have hafter : (cmdCp kmalloc s cwd src dst).2.fs = gs' := (Prod.mk.inj (hcopy.symm.trans hcopy')).2
  simp only [CopyRight, hafter, same_file_iff hsized hnew, hroot]
  exact lands_iff hs (target_dir_reach hp) (target_path_absolute hcwd) hsnode hfound honly hbytes

/-- `/etc/motd` copied beside itself. -/
theorem copy_right_motd :
    CopyRight everyBlock (mountRamfs everyBlock ()) (bytes "/etc") (bytes "motd") (bytes "copy") 1 3 := by
  refine (copy_right_iff (mount_settled everyBlock ()) (mount_sized everyBlock ()) (by rw [mount_eq]; decide +kernel)
    (by rw [mount_eq]; decide +kernel) (by rw [mount_eq]; decide +kernel)).mpr ?_
  rw [mount_eq]
  refine ⟨by decide +kernel, 4, by decide +kernel, Or.inl rfl, ?_⟩
  rw [if_pos (by decide +kernel)]
  refine Or.inr ?_
  have hnew : ∀ t, t = copyTarget (⟨bootNode, 4, ()⟩ : Ramfs Unit) 1 (bytes "/etc") (bytes "motd") (bytes "copy") →
      ramfsFinddir (⟨bootNode, 4, ()⟩ : Ramfs Unit) t.dir t.name = none := by
    rintro _ rfl
    decide +kernel
  unfold Writable
  rw [hnew _ rfl]
  exact rfl

/-- A file copied over itself is emptied, and `cp` says that all is well. -/
theorem copy_empties_source :
    (cmdCp everyBlock (mountRamfs everyBlock ()) (bytes "/etc") (bytes "motd") (bytes "motd")).1 = .ok "OK" ∧
      ¬ CopyRight everyBlock (mountRamfs everyBlock ()) (bytes "/etc") (bytes "motd") (bytes "motd") 1 3 := by
  have hlost :
      fileBytes (cmdCp everyBlock (mountRamfs everyBlock ()) (bytes "/etc") (bytes "motd") (bytes "motd")).2.fs 3 ≠
        fileBytes (mountRamfs everyBlock ()).fs 3 := by
    rw [mount_eq]
    decide +kernel
  exact ⟨by rw [mount_eq]; decide +kernel, fun hright => hlost hright.1.1⟩

end BaSic.Proofs.CopyFile
