import BaSic.Proofs.TaskTable
import BaSic.Lib.Steps

namespace BaSic.Proofs.SchedOwner
open Kernel Lib TaskTable

inductive SysOp where
  | tick (regs : Registers)
  | exit (code : Int)
  | fork (curEsp : UInt32)
  | exec (entry : UInt32)

/-- The kernel, whether a `sys_exit` has happened since a process was last handed the CPU
(`vacant`), and whether a process other than pid 1 has called it and no quantum has ended
since with a process READY (`leaving`). -/
structure Watched where
  kernel : SchedState
  vacant : Bool
  leaving : Bool

abbrev Watched.procs (m : Watched) : ProcTable := m.kernel.tasks.procs

/-- Some process is READY. -/
def AnyReady (t : ProcTable) : Prop := ∃ i, (t.slot i).state = .ready

instance (t : ProcTable) : Decidable (AnyReady t) := inferInstanceAs (Decidable (∃ _, _))

/-- Some process other than the current one is READY. -/
def OtherReady (t : ProcTable) : Prop := ∃ i, some i ≠ procCurrent t ∧ (t.slot i).state = .ready

instance (t : ProcTable) : Decidable (OtherReady t) := inferInstanceAs (Decidable (∃ _, _))

def watchedStep (m : Watched) : SysOp → Unit × Watched
  | .tick regs => ((), {
      kernel := (schedTick m.kernel regs).2
      vacant := m.vacant && !decide (Expires m.kernel ∧ OtherReady m.procs)
      leaving := m.leaving && !decide (Expires m.kernel ∧ AnyReady m.procs) })
  | .exit code => ((), {
      kernel := { m.kernel with tasks := sysExit m.kernel.tasks code }
      vacant := true
      leaving := m.leaving || m.procs.currentPid != 1 })
  | .fork curEsp => ((), { m with kernel.tasks.procs := (sysFork m.procs curEsp).2 })
  | .exec entry => ((), { m with kernel.tasks.procs := (sysExec m.procs entry).2 })

/-- The process named by `current_pid` is the one and only RUNNING process. -/
def Owned (t : ProcTable) : Prop := ∃ c, procCurrent t = some c ∧ ∀ i, (t.slot i).state = .running ↔ i = c

instance (t : ProcTable) : Decidable (Owned t) := inferInstanceAs (Decidable (∃ _, _ ∧ ∀ _, _ ↔ _))

/-- The end of a quantum after the exit of a process other than pid 1 loads a READY
process's saved context into the frame. -/
def HandsOver (m : Watched) : SysOp → Prop
  | .tick regs => m.leaving = true → Expires m.kernel → AnyReady m.procs →
      ∃ i, (m.procs.slot i).state = .ready ∧
        (schedTick m.kernel regs).1 = restoreContext (m.procs.slot i).ctx regs
  | _ => True

instance (m : Watched) : (op : SysOp) → Decidable (HandsOver m op)
  | .tick _ => inferInstanceAs (Decidable (_ → _ → _ → ∃ _, _))
  | .exit _ | .fork _ | .exec _ => inferInstanceAs (Decidable True)

/-- At such an end of a quantum a process other than pid 1 is READY, unless pid 1 is READY
and its saved context is what the frame holds anyway. -/
def OtherThanShell (m : Watched) : SysOp → Prop
  | .tick regs => m.leaving = true → Expires m.kernel → AnyReady m.procs →
      ∃ i, (m.procs.slot i).state = .ready ∧
        ((m.procs.slot i).pid ≠ 1 ∨ (m.procs.slot i).ctx = savedContext regs)
  | _ => True

/-- `kmain` leaves the shell RUNNING and current. -/
def boot (tableAddr : UInt32) : Watched := ⟨kmainTasks tableAddr, false, false⟩

/-- Processes are never reaped here, so the slots fill up in order, and slot `i` has pid `i + 1`. -/
structure Filled (t : ProcTable) (n : Nat) : Prop where
  next : t.nextPid = UInt32.ofNat (n + 1)
  used : ∀ i, i.val < n → (t.slot i).pid = UInt32.ofNat (i.val + 1) ∧ (t.slot i).state ≠ .unused
  free : ∀ i, n ≤ i.val → (t.slot i).pid = 0 ∧ (t.slot i).state = .unused

/-- What holds between operations: `n` processes exist and `c` is the current one. -/
structure Scheduled (m : Watched) (n : Nat) (c : Fin procMax) : Prop where
  filled : Filled m.procs n
  lt : c.val < n
  current : m.procs.currentPid = UInt32.ofNat (c.val + 1)
  busy : m.vacant = false → ∀ i, (m.procs.slot i).state = .running ↔ i = c
  idle : m.vacant = true → c = 0 ∧ ∀ i, (m.procs.slot i).state ≠ .running
  leaves : m.leaving = true → m.vacant = true

variable {t u : ProcTable} {m : Watched} {n : Nat} {c i j : Fin procMax}

theorem pid_pos (i : Fin procMax) : UInt32.ofNat (i.val + 1) ≠ 0 := by
  revert i
  decide

theorem pid_inj : ∀ i j : Fin procMax, UInt32.ofNat (i.val + 1) = UInt32.ofNat (j.val + 1) → i = j := by
  decide

theorem Filled.unused_iff (h : Filled t n) (i : Fin procMax) : (t.slot i).state = .unused ↔ n ≤ i.val := by
  constructor
  · intro hu
    by_contra hlt
    exact (h.used i (Nat.lt_of_not_le hlt)).2 hu
  · exact fun hle => (h.free i hle).2

theorem Filled.pid_eq (h : Filled t n) (c : Fin procMax) :
    (t.slot i).pid = UInt32.ofNat (c.val + 1) ↔ i = c ∧ c.val < n := by
  by_cases hi : i.val < n
  · rw [(h.used i hi).1]
    constructor
    · intro hpid
      have hic := pid_inj i c hpid
      exact ⟨hic, hic ▸ hi⟩
    · rintro ⟨rfl, -⟩
      rfl
  · rw [(h.free i (Nat.le_of_not_lt hi)).1]
    constructor
    · intro hpid
      exact absurd hpid.symm (pid_pos c)
    · rintro ⟨rfl, hlt⟩
      exact absurd hlt hi

theorem Filled.current_slot (h : Filled t n) (hc : c.val < n)
    (hpid : t.currentPid = UInt32.ofNat (c.val + 1)) : procCurrent t = some c := by
  apply first_slot_unique
  · rw [hpid, beq_iff_eq]
    exact (h.pid_eq c).mpr ⟨rfl, hc⟩
  · intro j hj
    rw [hpid, beq_iff_eq] at hj
    exact ((h.pid_eq c).mp hj).1

/-- Writing states alone, and none that frees a slot, keeps the numbering. -/
theorem Filled.restate (h : Filled t n) (hnext : u.nextPid = t.nextPid)
    (hpid : ∀ i, (u.slot i).pid = (t.slot i).pid)
    (hstate : ∀ i, (u.slot i).state = .unused ↔ (t.slot i).state = .unused) : Filled u n := by
  refine ⟨hnext.trans h.next, fun i hi => ?_, fun i hi => ?_⟩
  · rw [hpid, ne_eq, hstate]
    exact h.used i hi
  · rw [hpid, hstate]
    exact h.free i hi

/-- A new process takes the slot after the last one. -/
theorem Filled.spawned (h : Filled t n) (hs : Spawned t u) :
    Filled u (n + 1) ∧ u.currentPid = t.currentPid ∧
      ∀ i, (u.slot i).state = .running ↔ (t.slot i).state = .running := by
  obtain ⟨i, p, hi, hpid, hready, rfl⟩ := hs
  have hle : n ≤ i.val := (h.unused_iff i).mp (first_in_state hi)
  have hin : i.val = n := by
    by_contra hne
    have hlt : n < i.val := Nat.lt_of_le_of_ne hle (fun heq => hne heq.symm)
    let j : Fin procMax := ⟨n, hlt.trans i.isLt⟩
    have hno := first_slot_least hi (j := j) hlt
    rw [(h.free j (Nat.le_refl n)).2] at hno
    cases hno
  subst hin
  refine ⟨⟨?_, fun j hj => ?_, fun j hj => ?_⟩, rfl, fun j => ?_⟩
  · dsimp only
    rw [h.next, ← UInt32.ofNat_one, ← UInt32.ofNat_add]
  · by_cases hji : j = i
    · subst hji
      dsimp only
      rw [set_slot_self, hpid, hready, h.next]
      exact ⟨rfl, by decide⟩
    · have hlt : j.val < i.val := by
        have hne := Fin.val_ne_of_ne hji
        omega
      dsimp only
      rw [set_slot_ne t p hji]
      exact h.used j hlt
  · have hji : j ≠ i := by
      rintro rfl
      omega
    dsimp only
    rw [set_slot_ne t p hji]
    exact h.free j (by omega)
  · by_cases hji : j = i
    · subst hji
      dsimp only
      rw [set_slot_self, hready, (h.free j (Nat.le_refl _)).2]
      decide
    · dsimp only
      rw [set_slot_ne t p hji]

theorem Scheduled.current_slot (h : Scheduled m n c) : procCurrent m.procs = some c :=
  h.filled.current_slot h.lt h.current

theorem Scheduled.same (h : Scheduled m n c) {u : Watched} (hprocs : u.procs = m.procs)
    (hvacant : u.vacant = m.vacant) (hleaving : u.leaving = true → m.leaving = true) : Scheduled u n c := by
  refine ⟨?_, h.lt, ?_, ?_, ?_, fun hl => hvacant.trans (h.leaves (hleaving hl))⟩
  · rw [hprocs]
    exact h.filled
  · rw [hprocs]
    exact h.current
  · rw [hprocs, hvacant]
    exact h.busy
  · rw [hprocs, hvacant]
    exact h.idle

theorem Scheduled.spawned (h : Scheduled m n c) {u : Watched} (hs : u.procs = m.procs ∨ Spawned m.procs u.procs)
    (hvacant : u.vacant = m.vacant) (hleaving : u.leaving = m.leaving) : ∃ n, Scheduled u n c := by
  rcases hs with hsame | hs
  · exact ⟨n, h.same hsame hvacant (fun hl => hleaving.symm.trans hl)⟩
  · obtain ⟨hfilled, hcur, hrun⟩ := h.filled.spawned hs
    refine ⟨n + 1, hfilled, Nat.lt_succ_of_lt h.lt, hcur.trans h.current, ?_, ?_, ?_⟩
    · intro hv i
      rw [hrun i]
      exact h.busy (hvacant ▸ hv) i
    · intro hv
      obtain ⟨hc, hnone⟩ := h.idle (hvacant ▸ hv)
      refine ⟨hc, fun i => ?_⟩
      rw [ne_eq, hrun i]
      exact hnone i
    · rw [hvacant, hleaving]
      exact h.leaves

/-- `sys_exit` leaves no process RUNNING and the shell current. -/
theorem Scheduled.exit (h : Scheduled m n c) (code : Int) :
    Scheduled (watchedStep m (.exit code)).2 n 0 := by
  have hpos : (0 : Fin procMax).val < n := Nat.lt_of_le_of_lt (Nat.zero_le c.val) h.lt
  rcases exit_procs m.kernel.tasks code with ⟨hnone, -⟩ | ⟨d, hd, hprocs⟩
  · rw [h.current_slot] at hnone
    cases hnone
  rw [h.current_slot] at hd
  cases hd
  let p := { m.procs.slot c with exitCode := code, state := .zombie }
  have hslot : ∀ i, (watchedStep m (.exit code)).2.procs.slot i = if i = c then p else m.procs.slot i := by
    intro i
    unfold Watched.procs watchedStep
    dsimp only
    rw [hprocs]
    by_cases hi : i = c
    · subst hi
      rw [if_pos rfl]
      exact set_slot_self ..
    · rw [if_neg hi]
      exact set_slot_ne _ _ hi
  have hother : ∀ i, i ≠ c → (m.procs.slot i).state ≠ .running := by
    intro i hi
    cases hv : m.vacant with
    | false => exact fun hrun => hi ((h.busy hv i).mp hrun)
    | true => exact (h.idle hv).2 i
  have hnext : (watchedStep m (.exit code)).2.procs.nextPid = m.procs.nextPid :=
    (congrArg ProcTable.nextPid hprocs).trans rfl
  refine ⟨h.filled.restate hnext (fun i => ?_) (fun i => ?_), hpos, ?_, ?_, fun _ => ⟨rfl, fun i => ?_⟩,
    fun _ => rfl⟩
  · rw [hslot i]
    split
    · rename_i hi
      rw [hi]
    · rfl
  · rw [hslot i]
    split
    · rename_i hi
      rw [hi]
      exact iff_of_false ProcState.noConfusion (h.filled.used c h.lt).2
    · rfl
  · exact congrArg ProcTable.currentPid hprocs
  · rintro ⟨⟩
  · rw [hslot i]
    split
    · exact ProcState.noConfusion
    · rename_i hi
      exact hother i hi

/-- A tick that hands the CPU to a READY process makes it the only RUNNING one. -/
theorem Scheduled.handed (h : Scheduled m n c) (regs : Registers) {next : Fin procMax}
    (hready : (m.procs.slot next).state = .ready) (hne : some next ≠ procCurrent m.procs) {u : Watched}
    (hu : u.procs = handOver m.procs regs next) (hvacant : u.vacant = false) (hleaving : u.leaving = false) :
    Scheduled u n next := by
  have hlt : next.val < n := by
    by_contra hge
    rw [(h.filled.free next (Nat.le_of_not_lt hge)).2] at hready
    cases hready
  have hstate : ∀ i, i ≠ next → (u.procs.slot i).state ≠ .running ∧
      ((u.procs.slot i).state = .unused ↔ (m.procs.slot i).state = .unused) := by
    intro i hi
    rw [hu, hand_over_state _ _ hi, h.current_slot]
    split
    · rename_i hrun
      rw [hrun.2]
      decide
    · rename_i hno
      refine ⟨fun hrun => ?_, Iff.rfl⟩
      cases hv : m.vacant with
      | false => exact hno ⟨congrArg some ((h.busy hv i).mp hrun), hrun⟩
      | true => exact (h.idle hv).2 i hrun
  refine ⟨h.filled.restate ?_ (fun i => ?_) (fun i => ?_), hlt, ?_, fun _ i => ?_, ?_, ?_⟩
  · rw [hu, hand_over_next_pid]
  · rw [hu, hand_over_pid _ _ hne]
  · by_cases hi : i = next
    · subst hi
      rw [hu, hand_over_self _ _ hne, hready]
      exact iff_of_false ProcState.noConfusion ProcState.noConfusion
    · exact (hstate i hi).2
  · rw [hu]
    exact (h.filled.used next hlt).1
  · by_cases hi : i = next
    · rw [hi, hu, hand_over_self _ _ hne]
      exact iff_of_true rfl rfl
    · exact iff_of_false (hstate i hi).1 hi
  · rw [hvacant]
    rintro ⟨⟩
  · rw [hleaving]
    rintro ⟨⟩

theorem Scheduled.tick (h : Scheduled m n c) (regs : Registers) :
    ∃ d, Scheduled (watchedStep m (.tick regs)).2 n d := by
  have hleaving : (watchedStep m (.tick regs)).2.leaving = true → m.leaving = true :=
    fun hl => (Bool.and_eq_true_iff.mp hl).1
  by_cases hexp : Expires m.kernel
  · have htick : (watchedStep m (.tick regs)).2.procs = (switchTask m.procs regs).2 :=
      congrArg (fun x => x.2.tasks.procs) (tick_expires regs hexp)
    rcases switch_cases m.procs regs with ⟨hsame, hno⟩ | ⟨next, hready, hne, hrun⟩
    · have hother : ¬ (Expires m.kernel ∧ OtherReady m.procs) := fun ⟨_, i, hi, hr⟩ => hno i hi hr
      rw [hsame] at htick
      refine ⟨c, h.same htick ?_ hleaving⟩
      unfold watchedStep
      dsimp only
      rw [decide_eq_false hother, Bool.not_false, Bool.and_true]
    · have hother : Expires m.kernel ∧ OtherReady m.procs := ⟨hexp, next, hne, hready⟩
      have hany : Expires m.kernel ∧ AnyReady m.procs := ⟨hexp, next, hready⟩
      rw [hrun] at htick
      refine ⟨next, h.handed regs hready hne htick ?_ ?_⟩
      · unfold watchedStep
        dsimp only
        rw [decide_eq_true hother, Bool.not_true, Bool.and_false]
      · unfold watchedStep
        dsimp only
        rw [decide_eq_true hany, Bool.not_true, Bool.and_false]
  · have hsame : (watchedStep m (.tick regs)).2.procs = m.procs :=
      congrArg Tasks.procs (tick_early regs hexp).2
    have hother : ¬ (Expires m.kernel ∧ OtherReady m.procs) := fun hboth => hexp hboth.1
    refine ⟨c, h.same hsame ?_ hleaving⟩
    unfold watchedStep
    dsimp only
    rw [decide_eq_false hother, Bool.not_false, Bool.and_true]

/-- Every operation keeps the schedule in order. -/
theorem Scheduled.step (h : Scheduled m n c) (op : SysOp) : ∃ n c, Scheduled (watchedStep m op).2 n c := by
  cases op with
  | tick regs =>
    obtain ⟨d, hd⟩ := h.tick regs
    exact ⟨n, d, hd⟩
  | exit code => exact ⟨n, 0, h.exit code⟩
  | fork curEsp =>
    have hprocs : (watchedStep m (.fork curEsp)).2.procs = (procFork m.procs curEsp).2 :=
      sys_fork_procs m.procs curEsp
    obtain ⟨k, hk⟩ := h.spawned (u := (watchedStep m (.fork curEsp)).2)
      (hprocs ▸ fork_spawns m.procs curEsp) rfl rfl
    exact ⟨k, c, hk⟩
  | exec entry =>
    obtain ⟨k, hk⟩ := h.spawned (u := (watchedStep m (.exec entry)).2) (exec_spawns m.procs entry) rfl rfl
    exact ⟨k, c, hk⟩

theorem Scheduled.owned_iff (h : Scheduled m n c) : Owned m.procs ↔ m.vacant = false := by
  constructor
  · rintro ⟨d, -, hrun⟩
    cases hv : m.vacant with
    | false => rfl
    | true => exact absurd ((hrun d).mpr rfl) ((h.idle hv).2 d)
  · intro hv
    exact ⟨c, h.current_slot, h.busy hv⟩

theorem boot_scheduled (tableAddr : UInt32) : Scheduled (boot tableAddr) 1 0 := by
  have hboot : Booted (boot tableAddr).procs := boot_procs tableAddr
  refine ⟨⟨hboot.nextPid, fun i hi => ?_, fun i hi => ?_⟩, Nat.one_pos, ?_, fun _ i => ?_, ?_, ?_⟩
  · have hi0 : i = 0 := Fin.ext (Nat.lt_one_iff.mp hi)
    rw [hi0, hboot.pid, hboot.running]
    decide
  · have hi0 : i ≠ 0 := by
      rintro rfl
      exact absurd hi (by decide)
    rw [hboot.rest i hi0]
    exact ⟨rfl, rfl⟩
  · exact hboot.currentPid
  · by_cases hi : i = 0
    · rw [hi]
      exact iff_of_true hboot.running rfl
    · rw [hboot.rest i hi]
      exact iff_of_false ProcState.noConfusion hi
  · rintro ⟨⟩
  · rintro ⟨⟩

theorem restore_self (ctx : CpuContext) (regs : Registers) :
    regs = restoreContext ctx regs ↔ ctx = savedContext regs := by
  constructor
  · intro h
    rw [h]
    rfl
  · rintro rfl
    rfl

theorem Scheduled.hands_over_iff (h : Scheduled m n c) (op : SysOp) :
    HandsOver m op ↔ OtherThanShell m op := by
  cases op with
  | tick regs =>
    refine forall_congr' (fun hleaving => forall_congr' (fun hexp => forall_congr' (fun _ => ?_)))
    obtain ⟨rfl, -⟩ := h.idle (h.leaves hleaving)
    have hregs : (schedTick m.kernel regs).1 = (switchTask m.procs regs).1 :=
      congrArg Prod.fst (tick_expires regs hexp)
    rw [hregs]
    rcases switch_cases m.procs regs with ⟨hsame, hno⟩ | ⟨next, hready, hne, hrun⟩
    · -- only the shell can be READY, and the frame stays
      rw [hsame]
      refine exists_congr (fun i => and_congr_right (fun hi => ?_))
      have hshell : i = 0 := by
        by_contra hi0
        have hcur : some i ≠ procCurrent m.procs := by
          rw [h.current_slot]
          exact fun heq => hi0 (Option.some.inj heq)
        exact hno i hcur hi
      have hpid : (m.procs.slot i).pid = 1 := by
        rw [hshell]
        exact (h.filled.used 0 h.lt).1
      rw [restore_self]
      exact ⟨Or.inr, fun hor => hor.resolve_left (fun hne => hne hpid)⟩
    · rw [hrun]
      refine iff_of_true ⟨next, hready, rfl⟩ ⟨next, hready, Or.inl (fun hpid => hne ?_)⟩
      rw [h.current_slot, ((h.filled.pid_eq 0).mp hpid).1]
  | _ => exact Iff.rfl

/-- What every operation keeps after boot. -/
def Orderly (m : Watched) : Prop := ∃ n c, Scheduled m n c

theorem Orderly.step (h : Orderly m) (op : SysOp) : Orderly (watchedStep m op).2 := by
  obtain ⟨n, c, h⟩ := h
  exact h.step op

/-- In every run after boot: the current process is the one and only RUNNING one exactly
while no `sys_exit` has happened since a process was last handed the CPU; and after an exit
a READY process's context is loaded exactly when a process other than the shell is READY. -/
theorem owner_and_hand_over (tableAddr : UInt32) (ops : List SysOp) :
    (Owned (run watchedStep (boot tableAddr) ops).2.procs ↔
        (run watchedStep (boot tableAddr) ops).2.vacant = false) ∧
      (Along HandsOver watchedStep (boot tableAddr) ops ↔
        Along OtherThanShell watchedStep (boot tableAddr) ops) := by
  have hboot : Orderly (boot tableAddr) := ⟨1, 0, boot_scheduled tableAddr⟩
  constructor
  · have hend : Orderly (run watchedStep (boot tableAddr) ops).2 :=
      run_invariant (Q := fun _ => True) (fun _ op _ h => h.step op) (fun _ _ => trivial) hboot
    obtain ⟨n, c, h⟩ := hend
    exact h.owned_iff
  · refine Along.congr (I := Orderly) (fun _ op h _ => h.step op) (fun m op h => ?_) hboot ops
    obtain ⟨n, c, h⟩ := h
    exact h.hands_over_iff op

/-- A frame with the program counter `eip`. -/
def frameAt (eip : UInt32) : Registers := ⟨0, 0, 0, 0, 0, 0, 0, 0, 0, 0, eip, 8, 0x202⟩

/-- The shell runs a program, the program gets the CPU and exits, and its next quantum ends. -/
def exitedProgram : List SysOp :=
  .exec 0x400000 :: List.replicate schedTicks (.tick (frameAt 0x1000)) ++
    .exit 0 :: List.replicate schedTicks (.tick (frameAt 0x400010))

/-- At that end the shell is READY, and the frame is left as it is: the program runs on. -/
theorem exited_program_resumes :
    let m := (run watchedStep (boot 0) exitedProgram.dropLast).2
    ¬ Owned m.procs ∧ (m.procs.slot 0).state = .ready ∧
      (schedTick m.kernel (frameAt 0x400010)).1 = frameAt 0x400010 ∧
        ¬ Along HandsOver watchedStep (boot 0) exitedProgram := by
  decide

end BaSic.Proofs.SchedOwner
