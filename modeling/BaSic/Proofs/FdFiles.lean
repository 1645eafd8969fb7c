import BaSic.Proofs.FdTable
import BaSic.Lib.Steps
import BaSic.Fs.Ramfs

namespace BaSic.Proofs.FdFiles
open Kernel Fs Lib FdTable

inductive FdOp (N : Type) where
  | openNode (node : Option N)
  | openPipe (p : Fin pipeMax) (writeEnd : Bool)
  | dup2 (oldfd newfd : Int)
  | close (fd : Int)
  | read (fd : Int) (size : UInt32)
  | write (fd : Int) (buf : List UInt8)

/-- The descriptors with, for each one `fd_open` returned that has not been closed or
overwritten since, its node and the offset it has come to. -/
structure Files (F N : Type) where
  fds : FdState F N
  due : Fin fdMax → Option (Option N × UInt32)

variable {F N : Type}

def note (due : Fin fdMax → Option (Option N × UInt32)) (fd : Int) (d : Option (Option N × UInt32)) :
    Fin fdMax → Option (Option N × UInt32) :=
  match fdSlot fd with
  | none => due
  | some i => Function.update due i d

/-- A transfer of `n` bytes moves the offset on by as many. -/
def moved (due : Fin fdMax → Option (Option N × UInt32)) (fd n : Int) : Fin fdMax → Option (Option N × UInt32) :=
  match fdSlot fd with
  | none => due
  | some i => Function.update due i ((due i).map (fun d => (d.1, d.2 + UInt32.ofInt n)))

def fdStep (ops : VfsOps F N) (s : Files F N) : FdOp N → Except Fault Int × Files F N
  | .openNode node =>
    let (fd, fds) := fdOpen s.fds node
    (.ok fd, ⟨fds, note s.due fd (some (node, 0))⟩)
  | .openPipe p writeEnd =>
    let (fd, fds) := fdOpenPipe s.fds p writeEnd
    (.ok fd, ⟨fds, s.due⟩)
  | .dup2 oldfd newfd =>
    let (fd, fds) := fdDup2 s.fds oldfd newfd
    (.ok fd, ⟨fds, note s.due fd none⟩)
  | .close fd => (.ok 0, ⟨fdClose s.fds fd, note s.due fd none⟩)
  | .read fd size =>
    match fdRead ops s.fds fd size with
    | .error e => (.error e, s)
    | .ok ((n, _), fds) => (.ok n, ⟨fds, moved s.due fd n⟩)
  | .write fd buf =>
    match fdWrite ops s.fds fd buf with
    | .error e => (.error e, s)
    | .ok (n, fds) => (.ok n, ⟨fds, moved s.due fd n⟩)

/-- Descriptor `i` reads from and writes to the node at the offset, which each transfer
moves on by the bytes transferred, and does nothing else. -/
def Serves (ops : VfsOps F N) (s : FdState F N) (i : Fin fdMax) (node : Option N) (offset : UInt32) : Prop :=
  (∀ size, fdRead ops s i.val size = (vfsRead ops s.fs node offset size).map (fun buf =>
    ((signedInt (UInt32.ofNat buf.length), buf),
      s.setEntry i { s.table i with offset := offset + UInt32.ofNat buf.length }))) ∧
  (∀ buf, fdWrite ops s i.val buf = (vfsWrite ops s.fs node offset buf).map (fun r =>
    (signedInt r.1, { s with fs := r.2 }.setEntry i { s.table i with offset := offset + r.1 })))

/-- All descriptors from `fd_open` serve their nodes. -/
def ServesFiles (ops : VfsOps F N) (s : Files F N) : Prop :=
  ∀ i node offset, s.due i = some (node, offset) → Serves ops s.fds i node offset

/-- The slot an `fd_open` takes does not have its pipe flag set. -/
def TakesFileSlot (s : Files F N) : FdOp N → Prop
  | .openNode _ => ∀ i, freeSlot s.fds = some i → (s.fds.table i).isPipe = false
  | _ => True

/-- The entry of a slot is as it is due. -/
structure Fits (e : FdEntry N) (d : Option (Option N × UInt32)) : Prop where
  file : ∀ node offset, d = some (node, offset) →
    e.opened = true ∧ e.isPipe = false ∧ e.node = node ∧ e.offset = offset
  pipe : e.isPipe = true → ∃ p, e.pipe = some p

def Tracks (s : Files F N) : Prop := ∀ i, Fits (s.fds.table i) (s.due i)

variable {ops : VfsOps F N} {s : Files F N} {i : Fin fdMax} {fd : Int} {e : FdEntry N}
  {d : Option (Option N × UInt32)} {node : Option N} {offset : UInt32} {fds : FdState F N}

theorem serves_file (h : Fits (fds.table i) (some (node, offset))) : Serves ops fds i node offset := by
  obtain ⟨hopen, hfile, rfl, rfl⟩ := h.file node offset rfl
  exact ⟨fun size => read_file size hopen hfile, fun buf => write_file buf hopen hfile⟩

/-- A descriptor for a pipe serves no node: a pipe that is empty takes a byte, any other
gives one. -/
theorem not_serves_pipe {p : Fin pipeMax} (hopen : (fds.table i).opened = true)
    (hpipe : (fds.table i).isPipe = true) (hp : (fds.table i).pipe = some p) : ¬ Serves ops fds i node offset := by
  rintro ⟨hread, hwrite⟩
  by_cases hempty : (fds.pool p).count = 0
  · have hroom : (fds.pool p).count < pipeBufSize := by
      rw [hempty]
      decide
    have hw := hwrite [0]
    rw [write_pipe [0] hopen hpipe hp] at hw
    cases hv : vfsWrite ops fds.fs node offset [0] with
    | error f =>
      rw [hv] at hw
      cases hw
    | ok r =>
      rw [hv] at hw
      have hpool := congrArg (fun x => x.2.pool) (Except.ok.inj hw)
      exact pool_write_ne hroom hpool
  · have hr := hread 1
    rw [read_pipe 1 hopen hpipe hp] at hr
    cases hv : vfsRead ops fds.fs node offset 1 with
    | error f =>
      rw [hv] at hr
      cases hr
    | ok buf =>
      rw [hv] at hr
      have hpool := congrArg (fun x => x.2.pool) (Except.ok.inj hr)
      exact pool_read_ne (Nat.pos_of_ne_zero hempty) hpool

theorem Tracks.serves (h : Tracks s) : ServesFiles ops s := by
  intro i node offset hd
  have hi := h i
  rw [hd] at hi
  exact serves_file hi

/-- Writing an entry, and what is due of it, leaves the other slots tracked. -/
theorem Tracks.set (h : Tracks s) (hfds : fds.table = Function.update s.fds.table i e) (he : Fits e d) :
    Tracks ⟨fds, Function.update s.due i d⟩ := by
  intro j
  dsimp only
  rw [hfds]
  by_cases hj : j = i
  · rw [hj, Function.update_self, Function.update_self]
    exact he
  · rw [Function.update_of_ne hj, Function.update_of_ne hj]
    exact h j

theorem fits_closed (h : e.isPipe = true → ∃ p, e.pipe = some p) : Fits e none := by
  refine ⟨fun node offset hd => ?_, h⟩
  cases hd

theorem due_none_of_pipe (h : Fits e d) (hpipe : e.isPipe = true) : d = none := by
  cases d with
  | none => rfl
  | some x =>
    obtain ⟨-, hfile, -⟩ := h.file x.1 x.2 rfl
    rw [hpipe] at hfile
    cases hfile

theorem due_none_of_closed (h : Fits e d) (hclosed : e.opened = false) : d = none := by
  cases d with
  | none => rfl
  | some x =>
    obtain ⟨hopen, -⟩ := h.file x.1 x.2 rfl
    rw [hclosed] at hopen
    cases hopen

/-- A transfer moves the entry and what is due of it alike. -/
theorem Fits.advance (h : Fits e d) (hfile : e.isPipe = false) (n : UInt32) :
    Fits { e with offset := e.offset + n } (d.map (fun d => (d.1, d.2 + UInt32.ofInt (signedInt n)))) := by
  refine ⟨fun node offset hd => ?_, fun hpipe => ?_⟩
  · obtain ⟨x, hx, heq⟩ := Option.map_eq_some_iff.mp hd
    obtain ⟨hopen, hf, hnode, hoffset⟩ := h.file x.1 x.2 hx
    cases heq
    rw [of_int_signed]
    exact ⟨hopen, hf, hnode, congrArg (· + n) hoffset⟩
  · rw [hfile] at hpipe
    cases hpipe

/-- Where a transfer leaves the entry of its slot as it is, nothing was due of it. -/
theorem Tracks.still (h : Tracks s) (n : Int) (hfds : fds.table = s.fds.table)
    (hnone : ∀ i, fdSlot fd = some i → s.due i = none) : Tracks ⟨fds, moved s.due fd n⟩ := by
  have hdue : moved s.due fd n = s.due := by
    unfold moved
    cases hi : fdSlot fd with
    | none => rfl
    | some i =>
      dsimp only
      rw [hnone i hi, Option.map_none, ← hnone i hi, Function.update_eq_self]
  intro i
  dsimp only
  rw [hdue, hfds]
  exact h i

theorem closed_due (h : Tracks s) (hclosed : openSlot s.fds fd = none) (i : Fin fdMax) (hi : fdSlot fd = some i) :
    s.due i = none := by
  refine due_none_of_closed (h i) (Bool.eq_false_iff.mpr (fun hopen => ?_))
  rw [open_slot_some.mpr ⟨hi, hopen⟩] at hclosed
  cases hclosed

theorem pipe_due (h : Tracks s) {i : Fin fdMax} (hpipe : (s.fds.table i).isPipe = true) (j : Fin fdMax)
    (hj : fdSlot (i.val : Int) = some j) : s.due j = none := by
  rw [fd_slot_val] at hj
  obtain rfl := Option.some.inj hj
  exact due_none_of_pipe (h i) hpipe

theorem Tracks.read (h : Tracks s) (ops : VfsOps F N) (fd : Int) (size : UInt32) :
    Tracks (fdStep ops s (.read fd size)).2 := by
  unfold fdStep
  cases hi : openSlot s.fds fd with
  | none =>
    dsimp only
    rw [read_not_open size hi]
    exact h.still _ rfl (closed_due h hi)
  | some i =>
    obtain ⟨hslot, hopen⟩ := open_slot_some.mp hi
    rw [fd_slot_some hslot]
    dsimp only
    by_cases hpipe : (s.fds.table i).isPipe = true
    · obtain ⟨p, hp⟩ := (h i).pipe hpipe
      rw [read_pipe size hopen hpipe hp]
      exact h.still _ rfl (pipe_due h hpipe)
    · have hfile := Bool.eq_false_iff.mpr hpipe
      rw [read_file size hopen hfile]
      cases vfsRead ops s.fds.fs (s.fds.table i).node (s.fds.table i).offset size with
      | error f => exact h
      | ok buf =>
        dsimp only [Except.map]
        unfold moved
        rw [fd_slot_val]
        exact h.set rfl ((h i).advance hfile _)

theorem Tracks.write (h : Tracks s) (ops : VfsOps F N) (fd : Int) (buf : List UInt8) :
    Tracks (fdStep ops s (.write fd buf)).2 := by
  unfold fdStep
  cases hi : openSlot s.fds fd with
  | none =>
    dsimp only
    rw [write_not_open buf hi]
    exact h.still _ rfl (closed_due h hi)
  | some i =>
    obtain ⟨hslot, hopen⟩ := open_slot_some.mp hi
    rw [fd_slot_some hslot]
    dsimp only
    by_cases hpipe : (s.fds.table i).isPipe = true
    · obtain ⟨p, hp⟩ := (h i).pipe hpipe
      rw [write_pipe buf hopen hpipe hp]
      exact h.still _ rfl (pipe_due h hpipe)
    · have hfile := Bool.eq_false_iff.mpr hpipe
      rw [write_file buf hopen hfile]
      cases vfsWrite ops s.fds.fs (s.fds.table i).node (s.fds.table i).offset buf with
      | error f => exact h
      | ok r =>
        dsimp only [Except.map]
        unfold moved
        rw [fd_slot_val]
        exact h.set rfl ((h i).advance hfile _)

theorem note_some (due : Fin fdMax → Option (Option N × UInt32)) (h : fdSlot fd = some i)
    (d : Option (Option N × UInt32)) : note due fd d = Function.update due i d := by
  unfold note
  rw [h]

theorem note_none (due : Fin fdMax → Option (Option N × UInt32)) (h : fdSlot fd = none)
    (d : Option (Option N × UInt32)) : note due fd d = due := by
  unfold note
  rw [h]

theorem Tracks.open_pipe (h : Tracks s) (ops : VfsOps F N) (p : Fin pipeMax) (writeEnd : Bool) :
    Tracks (fdStep ops s (.openPipe p writeEnd)).2 := by
  unfold fdStep fdOpenPipe
  cases hi : freeSlot s.fds with
  | none => exact h
  | some i =>
    have hdue : s.due = Function.update s.due i none := by
      rw [← due_none_of_closed (h i) (free_slot_closed hi), Function.update_eq_self]
    dsimp only
    rw [hdue]
    exact h.set rfl (fits_closed (fun _ => ⟨p, rfl⟩))

theorem Tracks.close (h : Tracks s) (ops : VfsOps F N) (fd : Int) : Tracks (fdStep ops s (.close fd)).2 := by
  unfold fdStep
  dsimp only
  cases hi : fdSlot fd with
  | none =>
    rw [note_none _ hi]
    unfold fdClose
    rw [hi]
    exact h
  | some i =>
    rw [note_some _ hi, close_some hi]
    exact h.set rfl (fits_closed (h i).pipe)

theorem Tracks.dup2 (h : Tracks s) (ops : VfsOps F N) (oldfd newfd : Int) :
    Tracks (fdStep ops s (.dup2 oldfd newfd)).2 := by
  unfold fdStep
  dsimp only
  cases hold : openSlot s.fds oldfd with
  | none =>
    rw [dup2_none (Or.inl hold), note_none _ fd_slot_failed]
    exact h
  | some old =>
    cases hnew : fdSlot newfd with
    | none =>
      rw [dup2_none (Or.inr hnew), note_none _ fd_slot_failed]
      exact h
    | some new =>
      rw [dup2_some hold hnew, note_some _ hnew]
      refine h.set rfl (fits_closed ?_)
      split
      · exact (h new).pipe
      · exact (h old).pipe

/-- Opening a node keeps the descriptors tracked when its slot has no pipe flag. -/
theorem Tracks.open_node (h : Tracks s) (node : Option N) (hq : TakesFileSlot s (.openNode node)) :
    Tracks (fdStep ops s (.openNode node)).2 := by
  unfold fdStep fdOpen
  cases hi : freeSlot s.fds with
  | none =>
    dsimp only
    rw [note_none _ fd_slot_failed]
    exact h
  | some i =>
    have hfile := hq i hi
    dsimp only
    rw [note_some _ (fd_slot_val i)]
    refine h.set rfl ⟨fun node' offset hd => ?_, fun hpipe => ?_⟩
    · cases hd
      exact ⟨rfl, hfile, rfl, rfl⟩
    · rw [hfile] at hpipe
      cases hpipe

theorem Tracks.step (h : Tracks s) (op : FdOp N) (hq : TakesFileSlot s op) : Tracks (fdStep ops s op).2 := by
  cases op with
  | openNode node => exact h.open_node node hq
  | openPipe p writeEnd => exact h.open_pipe ops p writeEnd
  | dup2 oldfd newfd => exact h.dup2 ops oldfd newfd
  | close fd => exact h.close ops fd
  | read fd size => exact h.read ops fd size
  | write fd buf => exact h.write ops fd buf

/-- A node opened in a slot with the pipe flag is not served. -/
theorem takes_file_slot (h : Tracks s) (op : FdOp N) (hserves : ServesFiles ops (fdStep ops s op).2) :
    TakesFileSlot s op := by
  cases op with
  | openNode node =>
    intro i hi
    by_contra hpipe
    have hpipe := Bool.eq_true_of_not_eq_false hpipe
    obtain ⟨p, hp⟩ := (h i).pipe hpipe
    unfold fdStep fdOpen at hserves
    rw [hi] at hserves
    dsimp only at hserves
    rw [note_some _ (fd_slot_val i)] at hserves
    have hi' := hserves i node 0 (Function.update_self ..)
    refine not_serves_pipe (p := p) ?_ ?_ ?_ hi'
    · rw [set_entry_self]
    · rw [set_entry_self]
      exact hpipe
    · rw [set_entry_self]
      exact hp
  | openPipe p writeEnd => trivial
  | dup2 oldfd newfd => trivial
  | close fd => trivial
  | read fd size => trivial
  | write fd buf => trivial

theorem init_tracks (fs : F) : Tracks (N := N) ⟨fdInit fs, fun _ => none⟩ :=
  fun _ => fits_closed (fun hpipe => Bool.noConfusion hpipe)

/-- In a run from `fd_init` on, every descriptor from `fd_open` serves its node until it is
closed or overwritten exactly when no `fd_open` takes a slot whose pipe flag is set. -/
theorem fd_open_serves_iff (ops : VfsOps F N) (fs : F) (calls : List (FdOp N)) :
    Along (After (fdStep ops) (ServesFiles ops)) (fdStep ops) ⟨fdInit fs, fun _ => none⟩ calls ↔
      Along TakesFileSlot (fdStep ops) ⟨fdInit fs, fun _ => none⟩ calls :=
  Along.after_iff (J := Tracks) (fun _ op h _ hq => h.step op hq)
    (fun _ op h _ => ⟨takes_file_slot h op, fun hq => (h.step op hq).serves⟩)
    (init_tracks fs) (init_tracks fs).serves calls

/-- `/etc/motd` is opened in the slot of a pipe end that has been closed. -/
def reusedSlot : List (FdOp Nat) := [.openPipe 0 false, .close 0, .openNode (some 3)]

/-- Reading it gives nothing, while the file has 42 bytes. -/
theorem motd_not_served :
    ¬ ServesFiles ramfsOps (run (fdStep ramfsOps) ⟨fdInit bootRamfs, fun _ => none⟩ reusedSlot).2 := by
  intro h
  have hread := (h 0 (some 3) 0 (by decide +kernel)).1 42
  have hpipe : (fdRead ramfsOps (run (fdStep ramfsOps) ⟨fdInit bootRamfs, fun _ => none⟩ reusedSlot).2.fds 0
      42).toOption.map (fun r => r.1.1) = some 0 := by
    decide
  have hfile : (vfsRead ramfsOps (run (fdStep ramfsOps) ⟨fdInit bootRamfs, fun _ => none⟩ reusedSlot).2.fds.fs
      (some 3) 0 42).toOption.map (fun buf => signedInt (UInt32.ofNat buf.length)) = some 42 := by
    decide +kernel
  have heq := congrArg (fun r => r.toOption.map (fun r => r.1.1)) hread
  cases hv : vfsRead ramfsOps (run (fdStep ramfsOps) ⟨fdInit bootRamfs, fun _ => none⟩ reusedSlot).2.fds.fs
      (some 3) 0 42 with
  | error f =>
    rw [hv] at hfile
    cases hfile
  | ok buf =>
    rw [hv] at hfile heq
    have hzero := hpipe.symm.trans (heq.trans hfile)
    cases hzero

end BaSic.Proofs.FdFiles
