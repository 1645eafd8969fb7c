import BaSic.Kernel.Shell
import BaSic.Proofs.EditorSave

namespace BaSic.Proofs.FileSizes
open Kernel Fs Lib ShellEdits EditorSave RamfsBounds

variable {H : Type}

/-- Every buffer has the full size, and every file ends in its buffer. -/
structure Sized (fs : Ramfs H) : Prop where
  full : ∀ n buf, (fs.node n).buf = some buf → buf.length = ramfsMaxFilesize
  length : ∀ n, (fs.node n).length.toNat ≤ (contents fs n).length

/-- The bytes of a file, as many as its length says. -/
def fileBytes (fs : Ramfs H) (n : Nat) : List UInt8 := (contents fs n).take (fs.node n).length.toNat

theorem motd_bytes : fileBytes (mountRamfs everyBlock ()).fs 3 = motdText := by
  rw [mount_eq]
  exact List.take_left' motd_length

/-- The nodes have the same bytes and lengths. -/
def SameData (fs gs : Ramfs H) : Prop :=
  ∀ n, (gs.node n).buf = (fs.node n).buf ∧ (gs.node n).length = (fs.node n).length

variable {kmalloc : Kmalloc H} {fs gs hs : Ramfs H} {n m : Nat} {text src : List UInt8} {off : Nat}

theorem Sized.holds (h : Sized fs) (hbuf : (fs.node n).buf.isSome) : Holds fs n (fileBytes fs n) := by
  obtain ⟨buf, hbuf⟩ := Option.isSome_iff_exists.mp hbuf
  have hlength := h.length n
  have hcontents := contents_some hbuf
  refine ⟨⟨buf.drop (fs.node n).length.toNat, ?_, ?_⟩, ?_⟩
  · simpa [fileBytes, hcontents] using hbuf
  · simpa [fileBytes, hcontents] using h.full n buf hbuf
  · rw [hcontents] at hlength
    simp [fileBytes, hcontents, Nat.min_eq_left hlength]

theorem Sized.no_buffer (h : Sized fs) (hbuf : (fs.node n).buf = none) : (fs.node n).length = 0 := by
  have hlength := h.length n
  rw [contents_none hbuf] at hlength
  exact UInt32.toNat_inj.mp (Nat.le_zero.mp hlength)

theorem holds_bytes (h : Holds fs n text) : fileBytes fs n = text := by
  have hle := holds_length_le h
  obtain ⟨⟨rest, hbuf, -⟩, hlength⟩ := h
  simp [fileBytes, contents_some hbuf, hlength, Nat.mod_eq_of_lt (show text.length < 4294967296 by omega)]

theorem SameData.trans (h : SameData fs gs) (h' : SameData gs hs) : SameData fs hs :=
  fun n => ⟨(h' n).1.trans (h n).1, (h' n).2.trans (h n).2⟩

theorem same_data_set (node : Node) (hbuf : node.buf = (fs.node n).buf) (hlength : node.length = (fs.node n).length) :
    SameData fs (fs.setNode n node) :=
  fun m => ⟨set_node_congr Node.buf node hbuf m, set_node_congr Node.length node hlength m⟩

theorem Sized.same (h : Sized fs) (hsame : SameData fs gs) : Sized gs := by
  refine ⟨fun n buf hbuf => h.full n buf ((hsame n).1 ▸ hbuf), fun n => ?_⟩
  have hlength := h.length n
  simpa [contents, hsame n] using hlength

theorem only_file_other (honly : OnlyFile fs gs m) (hne : n ≠ m) : gs.node n = fs.node n := by
  obtain ⟨buf, length, rfl⟩ := honly
  exact set_node_ne fs _ hne

/-- Writing over the beginning of a file. -/
theorem write_front (h : Holds fs n text) (hsrc : src.length ≤ 4096) :
    ∃ gs, vfsWrite ramfsOps fs (some n) 0 src = .ok (UInt32.ofNat src.length, gs) ∧
      Holds gs n (src ++ text.drop src.length) ∧ OnlyFile fs gs n := by
  have hsized := h.well_sized
  have hle := holds_length_le h
  obtain ⟨⟨rest, hbuf, hfull⟩, hlength⟩ := h
  have hmax : ramfsMaxFilesize = 4096 := rfl
  have hzero : (0 : UInt32).toNat = 0 := rfl
  have hlen : (fs.node n).length.toNat = text.length := by rw [hlength, toNat_small (by omega)]
  have hrun := (ramfs_write_eq hbuf hsized 0 (show src.length < 4294967296 by omega)).1 (Nat.zero_le _) (by omega)
  have hcount : min src.length ((text ++ rest).length - 0) = src.length := by omega
  simp only [hzero, hcount, hlen, Nat.zero_add, List.take_zero, List.nil_append, List.take_length] at hrun
  refine ⟨_, hrun, ⟨⟨rest.drop (src.length - text.length), ?_, ?_⟩, ?_⟩, _, _, rfl⟩
  · simp [List.drop_append]
  · simp only [List.length_append, List.length_drop] at hfull ⊢
    omega
  · have hgrown : max text.length src.length = (src ++ text.drop src.length).length := by
      simp only [List.length_append, List.length_drop]
      omega
    simp [← hgrown]

theorem write_none (hbuf : (fs.node n).buf = none) (offset : UInt32) (src : List UInt8) :
    vfsWrite ramfsOps fs (some n) offset src = .ok (0, fs) := by
  simp [vfsWrite, ramfsOps, ramfsWrite, hbuf]

theorem read_none (hbuf : (fs.node n).buf = none) (offset size : UInt32) :
    vfsRead ramfsOps fs (some n) offset size = .ok [] := by
  simp [vfsRead, ramfsOps, ramfsRead, hbuf]

/-- The loop of `cmd_cat` reads the rest of the file. -/
theorem cat_loop_holds (h : Holds fs n text) {fuel : Nat} (hoff : off ≤ text.length)
    (hfuel : text.length - off < fuel) : catLoop fs n fuel (UInt32.ofNat off) = .ok (text.drop off) := by
  induction fuel generalizing off with
  | zero => exact absurd hfuel (Nat.not_lt_zero _)
  | succ fuel ih =>
    have hblock : (127 : UInt32).toNat = 127 := rfl
    simp only [catLoop, read_block h hoff (show (127 : UInt32).toNat ≤ 4096 by decide), hblock, ok_bind]
    by_cases hend : (text.drop off).take 127 = []
    · have hdrop : text.drop off = [] := (List.take_eq_nil_iff.mp hend).resolve_left (by decide)
      simp [hdrop]
    · have hpos := List.length_pos_iff.mpr hend
      have hlen : off + ((text.drop off).take 127).length = min (off + 127) text.length := by
        rw [List.length_take, List.length_drop]
        omega
      have hrest : catLoop fs n fuel (UInt32.ofNat (off + ((text.drop off).take 127).length)) =
          .ok (text.drop (off + ((text.drop off).take 127).length)) := ih (by omega) (by omega)
      have hjoin : (text.drop off).take 127 ++ (text.drop off).drop ((text.drop off).take 127).length =
          text.drop off := by
        rw [List.length_take, List.take_eq_take_min, List.take_append_drop]
      rw [if_neg hend, ← UInt32.ofNat_add, hrest, ok_bind, ← List.drop_drop, hjoin]

theorem cat_holds (h : Holds fs n text) : catFile fs n = .ok text := by
  have hle := holds_length_le h
  have hlength : (fs.node n).length.toNat = text.length := by rw [h.2, toNat_small (by omega)]
  have hall : catLoop fs n (text.length + 1) (UInt32.ofNat 0) = .ok (text.drop 0) :=
    cat_loop_holds h (Nat.zero_le _) (Nat.lt_succ_self _)
  rw [catFile, hlength]
  exact hall

theorem cat_none (hbuf : (fs.node n).buf = none) : catFile fs n = .ok [] := by
  simp [catFile, catLoop, read_none hbuf, ok_bind]

/-- The loop of `cmd_cp` copies the rest of one file behind what another has of it. -/
theorem copy_loop_holds (hne : n ≠ m) (h : Holds fs n text) (hcopy : Holds fs m (text.take off)) {fuel : Nat}
    (hoff : off ≤ text.length) (hfuel : text.length - off < fuel) :
    ∃ gs, copyLoop n m fuel fs (UInt32.ofNat off) = (.ok (), gs) ∧ Holds gs m text ∧ OnlyFile fs gs m := by
  have hle := holds_length_le h
  induction fuel generalizing fs off with
  | zero => exact absurd hfuel (Nat.not_lt_zero _)
  | succ fuel ih =>
    simp only [copyLoop, read_holds h hoff]
    cases hblock : (text.drop off).take 128 with
    | nil =>
      rw [block_end hblock] at hcopy
      exact ⟨fs, rfl, hcopy, only_file fs m⟩
    | cons c tmp =>
      have hlen : off + ((text.drop off).take 128).length = _ := block_length hoff
      have htake : (text.take off).length = off := List.length_take_of_le hoff
      have hsum : text.take off ++ (text.drop off).take 128 = text.take (off + (c :: tmp).length) := by
        rw [← hblock, ← List.take_add, List.take_eq_take_min, hlen]
      rw [hblock] at hlen hsum
      have hpos : (c :: tmp).length = tmp.length + 1 := rfl
      obtain ⟨fs₁, hw, h₁, honly₁⟩ := write_holds hcopy (show (c :: tmp).length ≤ 4096 by omega)
      rw [htake] at hw
      rw [hsum, List.take_take, Nat.min_eq_right (by omega)] at h₁
      have hsource : Holds fs₁ n text := by rwa [Holds, only_file_other honly₁ hne]
      obtain ⟨gs, hgs, hholds, honly⟩ := ih hsource h₁ (by omega) (by omega)
      simp only [hw, ← UInt32.ofNat_add]
      exact ⟨gs, hgs, hholds, honly₁.trans honly⟩

/-- `cmd_cp` truncates the file it copies to. -/
theorem truncated_only (fs : Ramfs H) (n : Nat) : OnlyFile fs (fs.setNode n { fs.node n with length := 0 }) n :=
  ⟨_, _, rfl⟩

/-- Another file becomes a copy. -/
theorem copy_file_holds (h : Sized fs) (hne : n ≠ m) (hbuf : (fs.node m).buf.isSome) :
    ∃ gs, copyFile fs n m = (.ok (), gs) ∧ Holds gs m (fileBytes fs n) ∧ OnlyFile fs gs m := by
  obtain ⟨buf, hbuf⟩ := Option.isSome_iff_exists.mp hbuf
  have hempty := truncated_holds fs hbuf (h.full m buf hbuf)
  have hother := only_file_other (truncated_only fs m) hne
  cases hsource : (fs.node n).buf with
  | none =>
    have hbytes : fileBytes fs n = [] := by simp [fileBytes, contents_none hsource]
    have hnone : ((fs.setNode m { fs.node m with length := 0 }).node n).buf = none := by rw [hother, hsource]
    refine ⟨_, ?_, hbytes ▸ hempty, truncated_only fs m⟩
    simp [copyFile, copyLoop, read_none hnone]
  | some buf' =>
    have hholds : Holds fs n (fileBytes fs n) := h.holds (by simp [hsource])
    have hkeep : Holds (fs.setNode m { fs.node m with length := 0 }) n (fileBytes fs n) := by rwa [Holds, hother]
    have hle := holds_length_le hholds
    have hlength : ((fs.setNode m { fs.node m with length := 0 }).node n).length.toNat = (fileBytes fs n).length := by
      rw [hkeep.2, toNat_small (by omega)]
    have hstart : Holds (fs.setNode m { fs.node m with length := 0 }) m ((fileBytes fs n).take 0) := hempty
    obtain ⟨gs, hgs, hcopied, honly⟩ := copy_loop_holds hne hkeep hstart (Nat.zero_le _) (Nat.lt_succ_self _)
    refine ⟨gs, ?_, hcopied, (truncated_only fs m).trans honly⟩
    rw [copyFile, hlength]
    exact hgs

theorem copy_loop_none (hbuf : (fs.node m).buf = none) (h : Holds fs n text) {fuel : Nat} (hoff : off ≤ text.length)
    (hfuel : text.length - off < fuel) : copyLoop n m fuel fs (UInt32.ofNat off) = (.ok (), fs) := by
  induction fuel generalizing off with
  | zero => exact absurd hfuel (Nat.not_lt_zero _)
  | succ fuel ih =>
    simp only [copyLoop, read_holds h hoff]
    cases hblock : (text.drop off).take 128 with
    | nil => rfl
    | cons c tmp =>
      have hlen := block_length hoff
      have hpos : (c :: tmp).length = tmp.length + 1 := rfl
      rw [hblock] at hlen
      simp only [write_none hbuf, ← UInt32.ofNat_add]
      exact ih (by omega) (by omega)

/-- A file without a buffer takes nothing. -/
theorem copy_file_none (h : Sized fs) (hbuf : (fs.node m).buf = none) : copyFile fs n m = (.ok (), fs) := by
  have hsame : fs.setNode m { fs.node m with length := 0 } = fs := by
    rw [← h.no_buffer hbuf]
    exact congrArg (fun node => { fs with node := node }) (Function.update_eq_self m fs.node)
  rw [copyFile, hsame]
  cases hsource : (fs.node n).buf with
  | none => simp [copyLoop, read_none hsource]
  | some buf =>
    have hholds : Holds fs n (fileBytes fs n) := h.holds (by simp [hsource])
    have hle := holds_length_le hholds
    rw [hholds.2, toNat_small (by omega)]
    exact copy_loop_none hbuf hholds (Nat.zero_le _) (Nat.lt_succ_self _)

/-- A file copied over itself is emptied. -/
theorem copy_file_self (h : Sized fs) (n : Nat) :
    copyFile fs n n = (.ok (), fs.setNode n { fs.node n with length := 0 }) := by
  have hread : vfsRead ramfsOps (fs.setNode n { fs.node n with length := 0 }) (some n) 0 128 = .ok [] := by
    cases hbuf : (fs.node n).buf with
    | none => exact read_none (by rw [set_node_self, hbuf]) 0 128
    | some buf => exact read_holds (truncated_holds fs hbuf (h.full n buf hbuf)) (Nat.le_refl 0)
  simp [copyFile, copyLoop, hread]

/-- A file given another buffer of the full size, and a length within it. -/
theorem Sized.set (h : Sized fs) {node : Node} {buf : List UInt8} (hbuf : node.buf = some buf)
    (hfull : buf.length = ramfsMaxFilesize) (hlength : node.length.toNat ≤ ramfsMaxFilesize) :
    Sized (fs.setNode n node) := by
  refine ⟨fun m buf' hbuf' => ?_, fun m => ?_⟩
  · by_cases hm : m = n
    · rw [hm, set_node_self, hbuf] at hbuf'
      cases hbuf'
      exact hfull
    · rw [set_node_ne fs _ hm] at hbuf'
      exact h.full m buf' hbuf'
  · by_cases hm : m = n
    · simpa [contents, hm, hbuf, hfull] using hlength
    · simpa [contents, set_node_ne fs _ hm] using h.length m

/-- A write that succeeds keeps the sizes, whatever it is given. -/
theorem Sized.write (h : Sized fs) {offset k : UInt32} (hw : vfsWrite ramfsOps fs (some n) offset src = .ok (k, gs)) :
    Sized gs := by
  simp only [vfsWrite, ramfsOps, ramfsWrite] at hw
  cases hbuf : (fs.node n).buf with
  | none =>
    rw [hbuf] at hw
    cases hw
    exact h
  | some buf =>
    have hfull := h.full n buf hbuf
    have hmax : ramfsMaxFilesize = 4096 := rfl
    have hlength := h.length n
    rw [contents_some hbuf] at hlength
    simp only [hbuf] at hw
    generalize (if offset + UInt32.ofNat src.length > UInt32.ofNat buf.length then UInt32.ofNat buf.length - offset
      else UInt32.ofNat src.length) = size at hw
    split at hw
    · rename_i hroom
      cases hw
      refine h.set rfl ?_ ?_
      · simp only [List.length_append, List.length_take, List.length_drop]
        omega
      · dsimp only
        split
        · rw [UInt32.toNat_add]
          omega
        · omega
    · cases hw

theorem Sized.copy_loop (h : Sized fs) (fuel : Nat) (offset : UInt32) : Sized (copyLoop n m fuel fs offset).2 := by
  induction fuel generalizing fs offset with
  | zero => exact h
  | succ fuel ih =>
    simp only [copyLoop]
    cases vfsRead ramfsOps fs (some n) offset 128 with
    | error e => exact h
    | ok tmp =>
      cases tmp with
      | nil => exact h
      | cons c tmp =>
        dsimp only
        cases hw : vfsWrite ramfsOps fs (some m) offset (c :: tmp) with
        | error e => exact h
        | ok r => exact ih (h.write hw) _

theorem Sized.truncate (h : Sized fs) (n : Nat) : Sized (fs.setNode n { fs.node n with length := 0 }) := by
  cases hbuf : (fs.node n).buf with
  | none => exact h.same (same_data_set _ rfl (h.no_buffer hbuf).symm)
  | some buf => exact h.set hbuf (h.full n buf hbuf) (Nat.zero_le _)

theorem Sized.copy (h : Sized fs) (n m : Nat) : Sized (copyFile fs n m).2 := (h.truncate m).copy_loop _ _

theorem add_child_data (fs : Ramfs H) (parent child : Nat) : SameData fs (addChild fs parent child) :=
  fun n => ⟨add_child_congr Node.buf (fun _ _ _ => rfl) fs parent child n,
    add_child_congr Node.length (fun _ _ _ => rfl) fs parent child n⟩

theorem unlink_data (fs : Ramfs H) (parent node : Nat) : SameData fs (unlinkChild fs parent node) :=
  same_data_set _ rfl rfl

theorem link_data (fs : Ramfs H) (node dstdir : Nat) : SameData fs (linkInto fs node dstdir) := by
  have hkids : SameData fs (fs.setNode dstdir { fs.node dstdir with children := (fs.node dstdir).children ++ [node] }) :=
    same_data_set _ rfl rfl
  exact hkids.trans (same_data_set _ rfl rfl)

/-- A node without a buffer. -/
theorem Sized.blank (h : Sized fs) {node : Node} (hbuf : node.buf = none) (hlength : node.length = 0) :
    Sized (fs.setNode n node) := by
  refine ⟨fun m buf hbuf' => ?_, fun m => ?_⟩
  · by_cases hm : m = n
    · rw [hm, set_node_self, hbuf] at hbuf'
      cases hbuf'
    · rw [set_node_ne fs _ hm] at hbuf'
      exact h.full m buf hbuf'
  · by_cases hm : m = n
    · simp [contents, hm, hbuf, hlength]
    · simpa [contents, set_node_ne fs _ hm] using h.length m

/-- A new node has an empty file, in a buffer of the full size or in none. -/
theorem Sized.make_node (h : Sized fs) (kmalloc : Kmalloc H) (name : List UInt8) (flags : NodeKind) :
    Sized (makeNode kmalloc fs name flags).2 := by
  have hheap : ∀ (next : Nat) (heap : H), Sized { fs with next := next, heap := heap } := fun _ _ => ⟨h.full, h.length⟩
  simp only [makeNode]
  split
  · exact hheap _ _
  · cases flags with
    | dir => exact (hheap _ _).blank rfl rfl
    | file =>
      dsimp only
      split
      · exact (hheap _ _).set rfl (List.length_replicate ..) (Nat.zero_le _)
      · exact (hheap _ _).blank rfl rfl

theorem Sized.make (h : Sized fs) (kmalloc : Kmalloc H) (parent : Option Nat) (name : List UInt8) (flags : NodeKind) :
    Sized (ramfsMake kmalloc fs parent name flags).2 :=
  ramfs_make_rule (P := fun _ gs => Sized gs) (h.make_node kmalloc name flags)
    (fun _ _ _ hmade => hmade.same (add_child_data _ _ _))

theorem Sized.find_or_make (h : Sized fs) (kmalloc : Kmalloc H) (dir : Nat) (name : List UInt8) :
    Sized (findOrMake kmalloc fs dir name).2 := by
  unfold findOrMake
  cases ramfsFinddir fs dir name with
  | some node => exact h
  | none => exact h.make kmalloc (some dir) name .file

theorem Sized.write_cmd {s : ShellFs H} (h : Sized s.fs) (kmalloc : Kmalloc H) (cwd fname data : List UInt8) :
    Sized (cmdWrite kmalloc s cwd fname data).2.fs := by
  unfold cmdWrite
  split_ifs
  · exact h
  · cases cwdNode s cwd with
    | none => exact h
    | some parent =>
      have hmade := h.find_or_make kmalloc parent fname
      dsimp only
      cases hfound : findOrMake kmalloc s.fs parent fname with
      | mk node fs =>
        rw [hfound] at hmade
        cases node with
        | none => exact hmade
        | some node =>
          dsimp only
          cases hw : vfsWrite ramfsOps fs (some node) 0 data with
          | error e => exact hmade
          | ok r => exact hmade.write hw

theorem Sized.cp_into {s : ShellFs H} (h : Sized fs) (snode : Nat) (dnode : Option Nat) :
    Sized (cpInto s snode dnode fs).2.fs := by
  unfold cpInto
  cases dnode with
  | none => exact h
  | some dnode =>
    have hcopy := h.copy snode dnode
    dsimp only
    cases hrun : copyFile fs snode dnode with
    | mk r gs =>
      rw [hrun] at hcopy
      cases r with
      | error e => exact hcopy
      | ok u => exact hcopy

theorem Sized.cp_cmd {s : ShellFs H} (h : Sized s.fs) (kmalloc : Kmalloc H) (cwd src dst : List UInt8) :
    Sized (cmdCp kmalloc s cwd src dst).2.fs := by
  unfold cmdCp
  split_ifs
  · exact h
  · cases cwdNode s cwd with
    | none => exact h
    | some parent =>
      dsimp only
      cases (ramfsFinddir s.fs parent src).filter (fun n => (s.fs.node n).flags = .file) with
      | none => exact h
      | some snode =>
        dsimp only
        cases (ramfsFinddir s.fs parent dst).filter (fun d => (s.fs.node d).flags = .dir) with
        | none => exact (h.find_or_make kmalloc parent dst).cp_into snode _
        | some dstdir => exact (h.find_or_make kmalloc dstdir src).cp_into snode _

theorem Sized.mv_cmd {s : ShellFs H} (h : Sized s.fs) (cwd src dst : List UInt8) :
    Sized (cmdMv s cwd src dst).2.fs := by
  unfold cmdMv
  split_ifs
  · exact h
  · cases cwdNode s cwd with
    | none => exact h
    | some parent =>
      dsimp only
      cases ramfsFinddir s.fs parent src with
      | none => exact h
      | some node =>
        dsimp only
        cases (ramfsFinddir s.fs parent dst).filter (fun d => (s.fs.node d).flags = .dir) with
        | none => exact h.same (same_data_set _ rfl rfl)
        | some dstdir =>
          have hunlinked := h.same (unlink_data s.fs parent node)
          dsimp only
          split
          · exact hunlinked.same (link_data _ _ _)
          · exact hunlinked

/-- The commands that only make or unlink a node. -/
theorem Sized.node_cmds {s : ShellFs H} (h : Sized s.fs) (kmalloc : Kmalloc H) (cwd name : List UInt8) :
    Sized (cmdMkdir kmalloc s cwd name).2.fs ∧ Sized (cmdTouch kmalloc s cwd name).2.fs ∧
      Sized (cmdRm s cwd name).2.fs := by
  unfold cmdMkdir cmdTouch cmdRm
  split_ifs
  · exact ⟨h, h, h⟩
  · cases cwdNode s cwd with
    | none => exact ⟨h, h, h⟩
    | some parent =>
      have hdir : Sized (ramfsMkdir kmalloc s.fs (some parent) name).2 := h.make kmalloc (some parent) name .dir
      have hfile : Sized (ramfsMkfile kmalloc s.fs (some parent) name).2 := h.make kmalloc (some parent) name .file
      refine ⟨?_, ?_, ?_⟩
      · dsimp only
        split
        · rename_i heq
          rwa [heq] at hdir
        · rename_i heq
          rwa [heq] at hdir
      · dsimp only
        split
        · exact h
        · split
          · rename_i heq
            rwa [heq] at hfile
          · rename_i heq
            rwa [heq] at hfile
      · dsimp only
        split
        · exact h
        · split
          · exact h
          · exact h.same (unlink_data _ _ _)

/-- No command changes the sizes. -/
theorem Sized.step {s : ShellFs H} (h : Sized s.fs) (kmalloc : Kmalloc H) (cwd : List UInt8) (cmd : ShellCmd) :
    Sized (shellStep kmalloc s cwd cmd).2.fs := by
  cases cmd with
  | mkdir name => exact (h.node_cmds kmalloc cwd name).1
  | touch name => exact (h.node_cmds kmalloc cwd name).2.1
  | write fname data => exact h.write_cmd kmalloc cwd fname data
  | cp src dst => exact h.cp_cmd kmalloc cwd src dst
  | mv src dst => exact h.mv_cmd cwd src dst
  | rm name => exact (h.node_cmds kmalloc cwd name).2.2

theorem Sized.motd (h : Sized fs) (motd : Option Nat) : Sized (writeMotd fs motd) := by
  unfold writeMotd
  cases motd with
  | none => exact h
  | some motd =>
    dsimp only
    cases hw : ramfsWrite fs motd 0 motdText with
    | error e => exact h
    | ok r => exact @Sized.write H fs r.2 motd motdText h 0 r.1 hw

/-- Mounting leaves full-sized buffers only. -/
theorem mount_sized (kmalloc : Kmalloc H) (heap : H) : Sized (mountRamfs kmalloc heap).fs := by
  have hempty : Sized (emptyRamfs heap) := ⟨fun n buf hbuf => (by cases hbuf), fun n => Nat.le_refl 0⟩
  have hroot := hempty.make_node kmalloc (bytes "/") .dir
  unfold mountRamfs ramfsInit
  cases hmake : makeNode kmalloc (emptyRamfs heap) (bytes "/") .dir with
  | mk root fs =>
    rw [hmake] at hroot
    cases root with
    | none => exact hroot
    | some root =>
      have hetc := hroot.make kmalloc (some root) (bytes "etc") .dir
      have hdev := hetc.make kmalloc (some root) (bytes "dev") .dir
      exact (hdev.make kmalloc _ (bytes "motd") .file).motd _

/-- After boot the sizes are right in every state the shell comes to. -/
theorem run_sized (kmalloc : Kmalloc H) (heap : H) (ops : List (List UInt8 × ShellCmd)) :
    Sized (run (fun s op => shellStep kmalloc s op.1 op.2) (mountRamfs kmalloc heap) ops).2.fs :=
  run_invariant (Q := fun _ => True) (I := fun s : ShellFs H => Sized s.fs)
    (fun _ (op : List UInt8 × ShellCmd) _ h => Sized.step h kmalloc op.1 op.2) (fun _ _ => trivial)
    (mount_sized kmalloc heap)

end BaSic.Proofs.FileSizes
