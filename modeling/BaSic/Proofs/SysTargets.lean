import BaSic.Proofs.SysCalls
import BaSic.Lib.Steps
import BaSic.Fs.Ramfs

namespace BaSic.Proofs.SysTargets
open Kernel Fs Lib FdTable SysCalls

/-- What a descriptor refers to: a file at an offset, or a pipe. -/
inductive Object (N : Type) where
  | file (node : Option N) (offset : UInt32)
  | pipe (p : Fin pipeMax)

/-- The object of an open descriptor, and whether a call has returned the descriptor. -/
structure Ref (N : Type) where
  object : Object N
  given : Bool

/-- The system with what each open descriptor refers to, as the calls made so far say. -/
structure Calls (F N : Type) where
  sys : SysState F N
  refs : Fin fdMax → Option (Ref N)

variable {F N : Type}

def put (refs : Fin fdMax → Option (Ref N)) (fd : Int) (r : Option (Ref N)) : Fin fdMax → Option (Ref N) :=
  match fdSlot fd with
  | none => refs
  | some i => Function.update refs i r

/-- A transfer of `n` bytes moves the offset in a file on by as many. -/
def Ref.moved (n : Int) (r : Ref N) : Ref N :=
  match r.object with
  | .file node offset => { r with object := .file node (offset + UInt32.ofInt n) }
  | .pipe _ => r

/-- The references after `sys_pipe`; when it fails with one descriptor left, the read end
has been opened but is not given to the caller. -/
def pipeRefs (s : Calls F N) : Fin fdMax → Option (Ref N) :=
  match (pipeAlloc s.sys.fds).1 with
  | none => s.refs
  | some p =>
    match (sysPipe s.sys).1.2 with
    | some (rfd, wfd) => put (put s.refs rfd (some ⟨.pipe p, true⟩)) wfd (some ⟨.pipe p, true⟩)
    | none =>
      match freeSlot s.sys.fds with
      | none => s.refs
      | some i => Function.update s.refs i (some ⟨.pipe p, false⟩)

/-- The references after a call that has returned `n`. -/
def refsAfter (ops : VfsOps F N) (s : Calls F N) (n : Int) : SysOp → Fin fdMax → Option (Ref N)
  | .openPath path => put s.refs n (some ⟨.file (vfsResolve ops s.sys.fds.fs s.sys.fsRoot path) 0, true⟩)
  | .pipe => pipeRefs s
  | .dup2 oldfd _ => put s.refs n (((fdSlot oldfd).bind s.refs).map (fun r => { r with given := true }))
  | .close fd => put s.refs fd none
  | .read fd _ | .write fd _ => put s.refs fd (((fdSlot fd).bind s.refs).map (Ref.moved n))

def callStep (ops : VfsOps F N) (s : Calls F N) (op : SysOp) : Except Fault Int × Calls F N :=
  match sysStep ops s.sys op with
  | (.error e, sys) => (.error e, { s with sys := sys })
  | (.ok n, sys) => (.ok n, ⟨sys, refsAfter ops s n op⟩)

/-- The state with other contents of pipes and files. -/
def holding (s : SysState F N) (pool : Fin pipeMax → Pipe) (fs : F) : SysState F N :=
  { s with fds := { s.fds with pool := pool, fs := fs } }

/-- The delivery of bytes written to descriptor `i` to the object, and to nothing else. -/
def delivery (ops : VfsOps F N) (s : SysState F N) (i : Fin fdMax) (object : Object N) (buf : List UInt8) :
    Except Fault (Int × SysState F N) :=
  match object with
  | .file node offset => (vfsWrite ops s.fds.fs node offset buf).map (fun r => (signedInt r.1,
      { s with fds := { s.fds with fs := r.2 }.setEntry i { s.fds.table i with offset := offset + r.1 } }))
  | .pipe p => .ok ((pipeWrite (s.fds.pool p) buf).1,
      { s with fds := { s.fds with pool := Function.update s.fds.pool p (pipeWrite (s.fds.pool p) buf).2 } })

/-- Descriptor `i` is open, and what is written to it is delivered to the object, whatever
pipes and files hold at the time. -/
def Delivers (ops : VfsOps F N) (s : SysState F N) (i : Fin fdMax) (object : Object N) : Prop :=
  (s.fds.table i).opened = true ∧ ∀ pool fs buf,
    sysWrite ops (holding s pool fs) i.val buf = delivery ops (holding s pool fs) i object buf

/-- All descriptors the calls have returned deliver to what they refer to. -/
def DeliversAll (ops : VfsOps F N) (s : Calls F N) : Prop :=
  ∀ i r, s.refs i = some r → r.given = true → Delivers ops s.sys i r.object

/-- The descriptors a call returns. -/
def returned (ops : VfsOps F N) (s : SysState F N) : SysOp → List Int
  | .openPath path => [(sysOpen ops s path).1]
  | .pipe => (sysPipe s).1.2.elim [] (fun x => [x.1, x.2])
  | .dup2 oldfd newfd => [(sysDup2 s oldfd newfd).1]
  | _ => []

/-- A file is opened in a slot without the pipe flag, and no open descriptor is duplicated
onto itself. -/
def CleanSlot (ops : VfsOps F N) (s : SysState F N) : SysOp → Prop
  | .openPath path => vfsResolve ops s.fds.fs s.fsRoot path ≠ none →
      ∀ i, freeSlot s.fds = some i → (s.fds.table i).isPipe = false
  | .dup2 oldfd newfd => oldfd = newfd → openSlot s.fds oldfd = none
  | _ => True

/-- No call returns one of the descriptors of the screen, and the slot is clean. -/
def Plain (ops : VfsOps F N) (s : Calls F N) (op : SysOp) : Prop :=
  (∀ fd ∈ returned ops s.sys op, ¬ (fd = 1 ∨ fd = 2)) ∧ CleanSlot ops s.sys op

/-- The entry is one for the object. -/
def Holds (e : FdEntry N) : Object N → Prop
  | .file node offset => e.isPipe = false ∧ e.node = node ∧ e.offset = offset
  | .pipe p => e.isPipe = true ∧ e.pipe = some p

/-- The entry of slot `i` is as its reference says. -/
structure Fits (i : Fin fdMax) (e : FdEntry N) (r : Option (Ref N)) : Prop where
  closed : r = none → e.opened = false
  opened : ∀ x, r = some x → e.opened = true ∧ Holds e x.object
  given : ∀ x, r = some x → x.given = true → ¬ ((i.val : Int) = 1 ∨ (i.val : Int) = 2)
  kept : ∀ x, r = some x → x.given = false → ∃ p, x.object = .pipe p
  pipe : e.isPipe = true → ∃ p, e.pipe = some p

def Tracks (s : Calls F N) : Prop := ∀ i, Fits i (s.sys.fds.table i) (s.refs i)

variable {ops : VfsOps F N} {s : Calls F N} {sys : SysState F N} {i j : Fin fdMax} {fd : Int} {e : FdEntry N}
  {r : Ref N} {object : Object N}

theorem delivers (hopen : (sys.fds.table i).opened = true) (hholds : Holds (sys.fds.table i) object)
    (hscreen : ¬ ((i.val : Int) = 1 ∨ (i.val : Int) = 2)) : Delivers ops sys i object := by
  refine ⟨hopen, fun pool fs buf => ?_⟩
  have hopen' : ((holding sys pool fs).fds.table i).opened = true := hopen
  unfold sysWrite delivery
  rw [if_neg hscreen]
  cases object with
  | file node offset =>
    obtain ⟨hfile, rfl, rfl⟩ := hholds
    have hfile' : ((holding sys pool fs).fds.table i).isPipe = false := hfile
    dsimp only
    rw [write_file buf hopen' hfile']
    have hentry : (holding sys pool fs).fds.table i = sys.fds.table i := rfl
    rw [hentry]
    cases vfsWrite ops (holding sys pool fs).fds.fs (sys.fds.table i).node (sys.fds.table i).offset buf with
    | error f => rfl
    | ok r => rfl
  | pipe p =>
    have hpipe' : ((holding sys pool fs).fds.table i).isPipe = true := hholds.1
    have hp' : ((holding sys pool fs).fds.table i).pipe = some p := hholds.2
    dsimp only
    rw [write_pipe buf hopen' hpipe' hp']
    rfl

/-- A delivery puts nothing on the screen. -/
theorem delivery_screen {n : Int} {t : SysState F N} {buf : List UInt8}
    (h : delivery ops sys i object buf = .ok (n, t)) : t.screen = sys.screen := by
  unfold delivery at h
  cases object with
  | file node offset =>
    dsimp only at h
    cases hv : vfsWrite ops sys.fds.fs node offset buf with
    | error f =>
      rw [hv] at h
      cases h
    | ok r =>
      rw [hv] at h
      cases h
      rfl
  | pipe p =>
    cases h
    rfl

theorem not_delivers_screen (h : (i.val : Int) = 1 ∨ (i.val : Int) = 2) : ¬ Delivers ops sys i object := by
  rintro ⟨-, hall⟩
  have hwrite := hall sys.fds.pool sys.fds.fs [0]
  unfold sysWrite at hwrite
  rw [if_pos h] at hwrite
  have hscreen := delivery_screen hwrite.symm
  have hlen := congrArg List.length hscreen
  dsimp only at hlen
  rw [List.length_append] at hlen
  simp at hlen

/-- A descriptor for a pipe does not deliver to a file: were the pipe empty, it would take
the byte. -/
theorem not_delivers_pipe {p : Fin pipeMax} {node : Option N} {offset : UInt32}
    (hpipe : (sys.fds.table i).isPipe = true) (hp : (sys.fds.table i).pipe = some p) :
    ¬ Delivers ops sys i (.file node offset) := by
  intro hdel
  by_cases hscreen : (i.val : Int) = 1 ∨ (i.val : Int) = 2
  · exact not_delivers_screen hscreen hdel
  obtain ⟨hopen, hall⟩ := hdel
  have hwrite := hall (fun _ => pipeInit) sys.fds.fs [0]
  have hroom : ((holding sys (fun _ => pipeInit) sys.fds.fs).fds.pool p).count < pipeBufSize := by
    have hempty : ((holding sys (fun _ => pipeInit) sys.fds.fs).fds.pool p).count = 0 := rfl
    rw [hempty]
    decide
  have hpool := pool_write_ne (s := (holding sys (fun _ => pipeInit) sys.fds.fs).fds) hroom
  have hopen' : ((holding sys (fun _ => pipeInit) sys.fds.fs).fds.table i).opened = true := hopen
  have hpipe' : ((holding sys (fun _ => pipeInit) sys.fds.fs).fds.table i).isPipe = true := hpipe
  have hp' : ((holding sys (fun _ => pipeInit) sys.fds.fs).fds.table i).pipe = some p := hp
  unfold sysWrite delivery at hwrite
  rw [if_neg hscreen, write_pipe [0] hopen' hpipe' hp'] at hwrite
  dsimp only at hwrite
  cases hv : vfsWrite ops (holding sys (fun _ => pipeInit) sys.fds.fs).fds.fs node offset [0] with
  | error f =>
    rw [hv] at hwrite
    cases hwrite
  | ok r =>
    rw [hv] at hwrite
    exact hpool (congrArg (fun x => x.2.fds.pool) (Except.ok.inj hwrite))

theorem Tracks.delivers (h : Tracks s) : DeliversAll ops s := by
  intro i r hr hgiven
  obtain ⟨hopen, hholds⟩ := (h i).opened r hr
  exact SysTargets.delivers hopen hholds ((h i).given r hr hgiven)

/-- Writing an entry and its reference leaves the other slots tracked. -/
theorem Tracks.set {t : SysState F N} {x : Option (Ref N)} (h : Tracks s)
    (htable : t.fds.table = Function.update s.sys.fds.table i e) (hfit : Fits i e x) :
    Tracks ⟨t, Function.update s.refs i x⟩ := by
  intro j
  dsimp only
  rw [htable]
  by_cases hj : j = i
  · rw [hj, Function.update_self, Function.update_self]
    exact hfit
  · rw [Function.update_of_ne hj, Function.update_of_ne hj]
    exact h j

theorem Tracks.same {t : SysState F N} (h : Tracks s) (htable : t.fds.table = s.sys.fds.table) :
    Tracks ⟨t, s.refs⟩ := by
  intro j
  dsimp only
  rw [htable]
  exact h j

theorem put_some (refs : Fin fdMax → Option (Ref N)) (h : fdSlot fd = some i) (x : Option (Ref N)) :
    put refs fd x = Function.update refs i x := by
  unfold put
  rw [h]

theorem put_none (refs : Fin fdMax → Option (Ref N)) (h : fdSlot fd = none) (x : Option (Ref N)) :
    put refs fd x = refs := by
  unfold put
  rw [h]

theorem fits_none (hclosed : e.opened = false) (hpipe : e.isPipe = true → ∃ p, e.pipe = some p) : Fits i e none := by
  refine ⟨fun _ => hclosed, fun x hx => ?_, fun x hx => ?_, fun x hx => ?_, hpipe⟩
  · cases hx
  · cases hx
  · cases hx

theorem fits_given (hopen : e.opened = true) (hholds : Holds e object)
    (hscreen : ¬ ((i.val : Int) = 1 ∨ (i.val : Int) = 2)) : Fits i e (some ⟨object, true⟩) := by
  refine ⟨fun hx => ?_, fun x hx => ?_, fun x hx _ => hscreen, fun x hx hkept => ?_, fun hpipe => ?_⟩
  · cases hx
  · cases hx
    exact ⟨hopen, hholds⟩
  · cases hx
    cases hkept
  · cases object with
    | file node offset =>
      rw [hholds.1] at hpipe
      cases hpipe
    | pipe p => exact ⟨p, hholds.2⟩

theorem fits_end (p : Fin pipeMax) (writeEnd given : Bool)
    (hscreen : given = true → ¬ ((i.val : Int) = 1 ∨ (i.val : Int) = 2)) :
    Fits i (pipeEntry (N := N) p writeEnd) (some ⟨.pipe p, given⟩) := by
  refine ⟨fun hx => ?_, fun x hx => ?_, fun x hx => ?_, fun x hx _ => ?_, fun _ => ⟨p, rfl⟩⟩
  · cases hx
  · cases hx
    exact ⟨rfl, rfl, rfl⟩
  · cases hx
    exact hscreen
  · cases hx
    exact ⟨p, rfl⟩

theorem Fits.some_of_open {x : Option (Ref N)} (h : Fits i e x) (hopen : e.opened = true) : ∃ y, x = some y := by
  cases x with
  | none =>
    have hclosed := h.closed rfl
    rw [hopen] at hclosed
    cases hclosed
  | some y => exact ⟨y, rfl⟩

theorem moved_pipe {p : Fin pipeMax} (n : Int) (h : r.object = .pipe p) : r.moved n = r := by
  unfold Ref.moved
  rw [h]

/-- A transfer that moves no offset leaves the references as they are. -/
theorem still (fd n : Int)
    (hpipe : ∀ i r, fdSlot fd = some i → s.refs i = some r → ∃ p, r.object = .pipe p) :
    put s.refs fd (((fdSlot fd).bind s.refs).map (Ref.moved n)) = s.refs := by
  cases hi : fdSlot fd with
  | none => exact put_none _ hi _
  | some i =>
    have hsame : (s.refs i).map (Ref.moved n) = s.refs i := by
      cases hr : s.refs i with
      | none => rfl
      | some r =>
        obtain ⟨p, hp⟩ := hpipe i r hi hr
        rw [Option.map_some, moved_pipe n hp]
    rw [put_some _ hi, Option.bind_some, hsame, Function.update_eq_self]

theorem closed_still (h : Tracks s) (hclosed : openSlot s.sys.fds fd = none) (i : Fin fdMax) (r : Ref N)
    (hi : fdSlot fd = some i) (hr : s.refs i = some r) : ∃ p, r.object = .pipe p := by
  rw [open_slot_some.mpr ⟨hi, ((h i).opened r hr).1⟩] at hclosed
  cases hclosed

theorem pipe_still (h : Tracks s) (hpipe : (s.sys.fds.table i).isPipe = true) (j : Fin fdMax) (r : Ref N)
    (hj : fdSlot (i.val : Int) = some j) (hr : s.refs j = some r) : ∃ p, r.object = .pipe p := by
  rw [fd_slot_val] at hj
  obtain rfl := Option.some.inj hj
  obtain ⟨-, hholds⟩ := (h i).opened r hr
  cases ho : r.object with
  | file node offset =>
    rw [ho] at hholds
    have hfile := hholds.1
    rw [hpipe] at hfile
    cases hfile
  | pipe p => exact ⟨p, rfl⟩

/-- What is written to the screen moves no offset: no file has descriptor 1 or 2. -/
theorem screen_still (h : Tracks s) (hscreen : fd = 1 ∨ fd = 2) (i : Fin fdMax) (r : Ref N)
    (hi : fdSlot fd = some i) (hr : s.refs i = some r) : ∃ p, r.object = .pipe p := by
  refine (h i).kept r hr (Bool.eq_false_iff.mpr (fun hgiven => ?_))
  rw [fd_slot_some hi] at hscreen
  exact (h i).given r hr hgiven hscreen

/-- A transfer on a file moves the entry and its reference alike. -/
theorem Fits.advance {x : Option (Ref N)} (h : Fits i e x) (hfile : e.isPipe = false) (n : UInt32) :
    Fits i { e with offset := e.offset + n } (x.map (Ref.moved (signedInt n))) := by
  have hmoved : ∀ y, x.map (Ref.moved (signedInt n)) = some y →
      ∃ r node offset, x = some r ∧ r.object = .file node offset ∧
        y = ⟨.file node (offset + UInt32.ofInt (signedInt n)), r.given⟩ := by
    intro y hy
    obtain ⟨r, hr, rfl⟩ := Option.map_eq_some_iff.mp hy
    obtain ⟨-, hholds⟩ := h.opened r hr
    cases ho : r.object with
    | file node offset =>
      refine ⟨r, node, offset, hr, ho, ?_⟩
      unfold Ref.moved
      rw [ho]
    | pipe p =>
      rw [ho] at hholds
      have hpipe := hholds.1
      rw [hfile] at hpipe
      cases hpipe
  refine ⟨fun hx => h.closed (Option.map_eq_none_iff.mp hx), fun y hy => ?_, fun y hy => ?_, fun y hy hkept => ?_,
    fun hpipe => ?_⟩
  · obtain ⟨r, node, offset, hr, ho, rfl⟩ := hmoved y hy
    obtain ⟨hopen, hholds⟩ := h.opened r hr
    rw [ho] at hholds
    obtain ⟨hf, hnode, hoffset⟩ := hholds
    refine ⟨hopen, hf, hnode, ?_⟩
    dsimp only
    rw [of_int_signed, hoffset]
  · obtain ⟨r, node, offset, hr, ho, rfl⟩ := hmoved y hy
    exact h.given r hr
  · obtain ⟨r, node, offset, hr, ho, rfl⟩ := hmoved y hy
    obtain ⟨p, hp⟩ := h.kept r hr hkept
    rw [ho] at hp
    cases hp
  · rw [hfile] at hpipe
    cases hpipe

theorem call_ok {n : Int} {t : SysState F N} {op : SysOp} (h : sysStep ops s.sys op = (.ok n, t)) :
    callStep ops s op = (.ok n, ⟨t, refsAfter ops s n op⟩) := by
  unfold callStep
  rw [h]

theorem call_fault {f : Fault} {t : SysState F N} {op : SysOp} (h : sysStep ops s.sys op = (.error f, t)) :
    callStep ops s op = (.error f, { s with sys := t }) := by
  unfold callStep
  rw [h]

theorem returned_open (ops : VfsOps F N) (sys : SysState F N) (path : List UInt8) :
    returned ops sys (.openPath path) = [(sysOpen ops sys path).1] := rfl

theorem returned_pipe (ops : VfsOps F N) (sys : SysState F N) :
    returned ops sys .pipe = (sysPipe sys).1.2.elim [] (fun x => [x.1, x.2]) := rfl

theorem returned_dup2 (ops : VfsOps F N) (sys : SysState F N) (oldfd newfd : Int) :
    returned ops sys (.dup2 oldfd newfd) = [(sysDup2 sys oldfd newfd).1] := rfl

theorem open_step (h : Tracks s) (path : List UInt8) :
    (Plain ops s (.openPath path) → Tracks (callStep ops s (.openPath path)).2) ∧
      (DeliversAll ops (callStep ops s (.openPath path)).2 → Plain ops s (.openPath path)) := by
  rcases open_cases ops s.sys path with ⟨hnone, hrun⟩ | ⟨node, i, hnode, hi, hrun⟩
  · have hstep : sysStep ops s.sys (.openPath path) = (.ok (-1), s.sys) := by
      unfold sysStep
      dsimp only
      rw [hrun]
    rw [call_ok hstep]
    unfold refsAfter
    dsimp only
    rw [put_none _ fd_slot_failed]
    refine ⟨fun _ => h, fun _ => ⟨fun fd hfd => ?_, fun hsome i hi => ?_⟩⟩
    · rw [returned_open, hrun] at hfd
      rw [List.mem_singleton.mp hfd]
      dsimp only
      omega
    · rw [hi] at hnone
      exact absurd (hnone.resolve_right (Option.some_ne_none i)) hsome
  · have hstep : sysStep ops s.sys (.openPath path) = (.ok (i.val : Int),
        { s.sys with fds := s.sys.fds.setEntry i (openedEntry (s.sys.fds.table i) node) }) := by
      unfold sysStep
      dsimp only
      rw [hrun]
    rw [call_ok hstep]
    unfold refsAfter
    dsimp only
    rw [put_some _ (fd_slot_val i), hnode]
    constructor
    · rintro ⟨hscreen, hclean⟩
      have hfd : (i.val : Int) ∈ returned ops s.sys (.openPath path) := by
        rw [returned_open, hrun]
        exact List.mem_singleton_self _
      have hfile : (s.sys.fds.table i).isPipe = false := hclean (by rw [hnode]; exact Option.some_ne_none _) i hi
      refine h.set rfl (fits_given rfl ?_ (hscreen _ hfd))
      exact ⟨hfile, rfl, rfl⟩
    · intro hdel
      have hi' := hdel i ⟨.file (some node) 0, true⟩ (Function.update_self ..) rfl
      refine ⟨fun fd hfd => ?_, fun _ j hj => ?_⟩
      · rw [returned_open, hrun] at hfd
        rw [List.mem_singleton.mp hfd]
        exact fun hscreen => not_delivers_screen hscreen hi'
      · cases hi.symm.trans hj
        by_contra hpipe
        have hpipe := Bool.eq_true_of_not_eq_false hpipe
        obtain ⟨p, hp⟩ := (h i).pipe hpipe
        refine not_delivers_pipe (p := p) ?_ ?_ hi'
        · dsimp only
          rw [set_entry_self]
          exact hpipe
        · dsimp only
          rw [set_entry_self]
          exact hp

theorem pipe_step (h : Tracks s) :
    (Plain ops s .pipe → Tracks (callStep ops s .pipe).2) ∧
      (DeliversAll ops (callStep ops s .pipe).2 → Plain ops s .pipe) := by
  have hfailed : (sysPipe s.sys).1.2 = none → Plain ops s .pipe := by
    intro hnone
    refine ⟨fun fd hfd => ?_, trivial⟩
    rw [returned_pipe, hnone] at hfd
    cases hfd
  rcases pipe_cases s.sys with ⟨-, halloc, hrun⟩ | ⟨p, -, halloc, hends⟩
  · rw [call_ok (congrArg (fun x => (Except.ok x.1.1, x.2)) hrun)]
    unfold refsAfter pipeRefs
    dsimp only
    rw [halloc]
    exact ⟨fun _ => h, fun _ => hfailed (by rw [hrun])⟩
  rcases hends with ⟨hfull, hrun⟩ | ⟨i, hi, ⟨-, hrun⟩ | ⟨j, hji, -, hrun⟩⟩
  · rw [call_ok (congrArg (fun x => (Except.ok x.1.1, x.2)) hrun)]
    unfold refsAfter pipeRefs
    dsimp only
    rw [halloc, hrun, hfull]
    exact ⟨fun _ => h.same rfl, fun _ => hfailed (by rw [hrun])⟩
  · rw [call_ok (congrArg (fun x => (Except.ok x.1.1, x.2)) hrun)]
    unfold refsAfter pipeRefs
    dsimp only
    rw [halloc, hrun, hi]
    exact ⟨fun _ => h.set rfl (fits_end p false false Bool.noConfusion), fun _ => hfailed (by rw [hrun])⟩
  · have hret : returned ops s.sys .pipe = [(i.val : Int), (j.val : Int)] := by
      rw [returned_pipe, hrun]
      rfl
    rw [call_ok (congrArg (fun x => (Except.ok x.1.1, x.2)) hrun)]
    unfold refsAfter pipeRefs
    dsimp only
    rw [halloc, hrun]
    dsimp only
    rw [put_some _ (fd_slot_val i), put_some _ (fd_slot_val j)]
    constructor
    · rintro ⟨hscreen, -⟩
      rw [hret] at hscreen
      have hread := h.set (t := { s.sys with fds := (allocated s.sys.fds p).setEntry i (pipeEntry p false) }) rfl
        (fits_end p false true (fun _ => hscreen _ List.mem_cons_self))
      exact hread.set rfl (fits_end p true true (fun _ => hscreen _ (List.mem_cons_of_mem _ List.mem_cons_self)))
    · intro hdel
      have hj' := hdel j ⟨.pipe p, true⟩ (Function.update_self ..) rfl
      have hi' := hdel i ⟨.pipe p, true⟩
        ((Function.update_of_ne hji.symm ..).trans (Function.update_self ..)) rfl
      refine ⟨fun fd hfd => ?_, trivial⟩
      rw [hret] at hfd
      rcases List.mem_cons.mp hfd with rfl | hfd
      · exact fun hscreen => not_delivers_screen hscreen hi'
      · rw [List.mem_singleton.mp hfd]
        exact fun hscreen => not_delivers_screen hscreen hj'

theorem dup2_step (h : Tracks s) (oldfd newfd : Int) :
    (Plain ops s (.dup2 oldfd newfd) → Tracks (callStep ops s (.dup2 oldfd newfd)).2) ∧
      (DeliversAll ops (callStep ops s (.dup2 oldfd newfd)).2 → Plain ops s (.dup2 oldfd newfd)) := by
  by_cases hnone : openSlot s.sys.fds oldfd = none ∨ fdSlot newfd = none
  · have hrun : sysDup2 s.sys oldfd newfd = (-1, s.sys) := by
      unfold sysDup2
      rw [dup2_none hnone]
    rw [call_ok (congrArg (fun x => (Except.ok x.1, x.2)) hrun)]
    unfold refsAfter
    dsimp only
    rw [put_none _ fd_slot_failed]
    refine ⟨fun _ => h, fun _ => ⟨fun fd hfd => ?_, fun hsame => ?_⟩⟩
    · rw [returned_dup2, hrun] at hfd
      rw [List.mem_singleton.mp hfd]
      dsimp only
      omega
    · refine hnone.elim id (fun hnew => ?_)
      unfold openSlot
      rw [hsame, hnew]
      rfl
  · rw [not_or] at hnone
    obtain ⟨old, hold⟩ := Option.ne_none_iff_exists'.mp hnone.1
    obtain ⟨new, hnew⟩ := Option.ne_none_iff_exists'.mp hnone.2
    obtain ⟨hslot, hopen⟩ := open_slot_some.mp hold
    obtain ⟨r, hr⟩ := (h old).some_of_open hopen
    have hfds := dup2_some hold hnew
    have hrun : sysDup2 s.sys oldfd newfd = (newfd, { s.sys with
        fds := s.sys.fds.setEntry new
          (if old = new then closedEntry (s.sys.fds.table new) else s.sys.fds.table old) }) := by
      unfold sysDup2
      rw [hfds]
    have hret : returned ops s.sys (.dup2 oldfd newfd) = [newfd] := by
      rw [returned_dup2, hrun]
    have hsame : oldfd = newfd ↔ old = new := by
      rw [fd_slot_some hslot, fd_slot_some hnew, Int.natCast_inj]
      exact Fin.val_inj
    rw [call_ok (congrArg (fun x => (Except.ok x.1, x.2)) hrun)]
    unfold refsAfter
    dsimp only
    rw [put_some _ hnew, hslot, Option.bind_some, hr, Option.map_some]
    constructor
    · rintro ⟨hscreen, hclean⟩
      have hne : old ≠ new := fun heq => by
        have hclosed := hclean (hsame.mpr heq)
        rw [hold] at hclosed
        cases hclosed
      obtain ⟨-, hholds⟩ := (h old).opened r hr
      rw [if_neg hne]
      refine h.set rfl (fits_given hopen hholds ?_)
      rw [← fd_slot_some hnew]
      exact hscreen newfd (by rw [hret]; exact List.mem_singleton_self _)
    · intro hdel
      have hnew' := hdel new { r with given := true } (Function.update_self ..) rfl
      refine ⟨fun fd hfd => ?_, fun heq => ?_⟩
      · rw [hret] at hfd
        rw [List.mem_singleton.mp hfd, fd_slot_some hnew]
        exact fun hscreen => not_delivers_screen hscreen hnew'
      · -- the descriptor has just been closed
        obtain ⟨hopened, -⟩ := hnew'
        dsimp only at hopened
        rw [set_entry_self, if_pos (hsame.mp heq)] at hopened
        cases hopened

theorem close_step (h : Tracks s) (fd : Int) : Tracks (callStep ops s (.close fd)).2 := by
  have hstep : sysStep ops s.sys (.close fd) = (.ok 0, { s.sys with fds := fdClose s.sys.fds fd }) := rfl
  rw [call_ok hstep]
  unfold refsAfter
  dsimp only
  cases hi : fdSlot fd with
  | none =>
    rw [put_none _ hi]
    unfold fdClose
    rw [hi]
    exact h
  | some i =>
    rw [put_some _ hi, close_some hi]
    exact h.set rfl (fits_none rfl (h i).pipe)

/-- A transfer on a file moves its entry and its reference, and no others. -/
theorem Tracks.transfer (h : Tracks s) (n : UInt32) {t : SysState F N}
    (htable : t.fds.table = Function.update s.sys.fds.table i
      { s.sys.fds.table i with offset := (s.sys.fds.table i).offset + n })
    (hfile : (s.sys.fds.table i).isPipe = false) :
    Tracks ⟨t, put s.refs i.val (((fdSlot i.val).bind s.refs).map (Ref.moved (signedInt n)))⟩ := by
  rw [put_some _ (fd_slot_val i), fd_slot_val, Option.bind_some]
  exact h.set htable ((h i).advance hfile n)

theorem read_step (h : Tracks s) (fd : Int) (count : UInt32) : Tracks (callStep ops s (.read fd count)).2 := by
  cases hi : openSlot s.sys.fds fd with
  | none =>
    rw [call_ok (read_ok (read_not_open count hi))]
    unfold refsAfter
    dsimp only
    rw [still fd _ (closed_still h hi)]
    exact h
  | some i =>
    obtain ⟨hslot, hopen⟩ := open_slot_some.mp hi
    rw [fd_slot_some hslot]
    by_cases hpipe : (s.sys.fds.table i).isPipe = true
    · obtain ⟨p, hp⟩ := (h i).pipe hpipe
      rw [call_ok (read_ok (read_pipe count hopen hpipe hp))]
      unfold refsAfter
      dsimp only
      rw [still _ _ (pipe_still h hpipe)]
      exact h.same rfl
    · have hfile := Bool.eq_false_iff.mpr hpipe
      have hread : fdRead ops s.sys.fds i.val count = _ := read_file count hopen hfile
      cases hv : vfsRead ops s.sys.fds.fs (s.sys.fds.table i).node (s.sys.fds.table i).offset count with
      | error f =>
        rw [hv] at hread
        rw [call_fault (read_fault hread)]
        exact h
      | ok buf =>
        rw [hv] at hread
        rw [call_ok (read_ok hread)]
        exact h.transfer _ rfl hfile

theorem write_step (h : Tracks s) (fd : Int) (buf : List UInt8) : Tracks (callStep ops s (.write fd buf)).2 := by
  by_cases hscreen : fd = 1 ∨ fd = 2
  · rw [call_ok (write_screen ops s.sys buf hscreen)]
    unfold refsAfter
    dsimp only
    rw [still fd _ (screen_still h hscreen)]
    exact h.same rfl
  cases hi : openSlot s.sys.fds fd with
  | none =>
    rw [call_ok (write_ok hscreen (write_not_open buf hi))]
    unfold refsAfter
    dsimp only
    rw [still fd _ (closed_still h hi)]
    exact h
  | some i =>
    obtain ⟨hslot, hopen⟩ := open_slot_some.mp hi
    rw [fd_slot_some hslot] at hscreen ⊢
    by_cases hpipe : (s.sys.fds.table i).isPipe = true
    · obtain ⟨p, hp⟩ := (h i).pipe hpipe
      rw [call_ok (write_ok hscreen (write_pipe buf hopen hpipe hp))]
      unfold refsAfter
      dsimp only
      rw [still _ _ (pipe_still h hpipe)]
      exact h.same rfl
    · have hfile := Bool.eq_false_iff.mpr hpipe
      have hwrite : fdWrite ops s.sys.fds i.val buf = _ := write_file buf hopen hfile
      cases hv : vfsWrite ops s.sys.fds.fs (s.sys.fds.table i).node (s.sys.fds.table i).offset buf with
      | error f =>
        rw [hv] at hwrite
        rw [call_fault (write_fault hscreen hwrite)]
        exact h
      | ok r =>
        rw [hv] at hwrite
        rw [call_ok (write_ok hscreen hwrite)]
        exact h.transfer _ rfl hfile

theorem call_step (h : Tracks s) (op : SysOp) :
    (Plain ops s op → Tracks (callStep ops s op).2) ∧ (DeliversAll ops (callStep ops s op).2 → Plain ops s op) := by
  have hquiet : returned ops s.sys op = [] → CleanSlot ops s.sys op → Plain ops s op := by
    intro hret hclean
    refine ⟨fun fd hfd => ?_, hclean⟩
    rw [hret] at hfd
    cases hfd
  cases op with
  | openPath path => exact open_step h path
  | pipe => exact pipe_step h
  | dup2 oldfd newfd => exact dup2_step h oldfd newfd
  | close fd => exact ⟨fun _ => close_step h fd, fun _ => hquiet rfl trivial⟩
  | read fd count => exact ⟨fun _ => read_step h fd count, fun _ => hquiet rfl trivial⟩
  | write fd buf => exact ⟨fun _ => write_step h fd buf, fun _ => hquiet rfl trivial⟩

def bootCalls (fs : F) (fsRoot : Option N) : Calls F N := ⟨⟨fdInit fs, fsRoot, []⟩, fun _ => none⟩

theorem boot_tracks (fs : F) (fsRoot : Option N) : Tracks (bootCalls fs fsRoot) :=
  fun _ => fits_none rfl (fun hpipe => by cases hpipe)

/-- In every state of a run after boot all descriptors returned deliver what is written to
them to their objects exactly when all calls are plain. -/
theorem writes_delivered_iff (ops : VfsOps F N) (fs : F) (fsRoot : Option N) (calls : List SysOp) :
    Along (After (callStep ops) (DeliversAll ops)) (callStep ops) (bootCalls fs fsRoot) calls ↔
      Along (Plain ops) (callStep ops) (bootCalls fs fsRoot) calls :=
  Along.after_iff (J := Tracks) (fun _ op h _ hq => (call_step h op).1 hq)
    (fun _ op h _ => ⟨(call_step h op).2, fun hq => ((call_step h op).1 hq).delivers⟩)
    (boot_tracks fs fsRoot) (boot_tracks fs fsRoot).delivers calls

/-- `/etc/motd` is opened twice. -/
def openedTwice : List SysOp := [.openPath (bytes "/etc/motd"), .openPath (bytes "/etc/motd")]

/-- The second descriptor is 1: what is written to it comes on the screen, not to the file. -/
theorem second_file_on_screen :
    let s := (run (callStep ramfsOps) (bootCalls bootRamfs (some 0)) openedTwice).2
    (s.refs 1).isSome = true ∧
      (sysWrite ramfsOps s.sys 1 [72]).toOption.map (fun r => r.2.screen) = some [72] ∧
        ¬ DeliversAll ramfsOps s := by
  rw [boot_ramfs_eq]
  refine ⟨by decide +kernel, by decide +kernel, fun h => ?_⟩
  have hsome : ((run (callStep ramfsOps) (bootCalls ⟨bootNode, 4, ()⟩ (some 0)) openedTwice).2.refs 1).map Ref.given =
      some true := by
    decide +kernel
  obtain ⟨r, hr, hgiven⟩ := Option.map_eq_some_iff.mp hsome
  exact not_delivers_screen (by decide) (h 1 r hr hgiven)

end BaSic.Proofs.SysTargets
