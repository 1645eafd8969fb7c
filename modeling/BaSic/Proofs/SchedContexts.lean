import BaSic.Proofs.TaskTable
import BaSic.Lib.Steps

namespace BaSic.Proofs.SchedContexts
open Kernel Lib TaskTable

/-- A timer tick with its frame, or a signal sent to or dispatched on the current process. -/
inductive CtxOp where
  | tick (regs : Registers)
  | send (signo : Int)
  | dispatch

/-- What the frame held when a process lost the CPU, and whether the process was RUNNING
then, or had those very values saved. -/
structure Loss where
  frame : CpuContext
  saved : Bool

/-- The kernel, and the last loss of the CPU of each process. -/
structure Traced where
  kernel : SchedState
  lost : Fin procMax → Option Loss

abbrev Traced.procs (w : Traced) : ProcTable := w.kernel.tasks.procs

def loss (p : Process) (regs : Registers) : Loss :=
  ⟨savedContext regs, p.state == .running || p.ctx == savedContext regs⟩

def recordLoss (w : Traced) (regs : Registers) : Fin procMax → Option Loss :=
  match resumed w.kernel, procCurrent w.procs with
  | some _, some c => Function.update w.lost c (some (loss (w.procs.slot c) regs))
  | _, _ => w.lost

def ctxStep (w : Traced) : CtxOp → Unit × Traced
  | .tick regs => ((), ⟨(schedTick w.kernel regs).2, recordLoss w regs⟩)
  | .send signo => ((), { w with
      kernel.tasks.signals := signalSend w.kernel.tasks.signals w.procs.currentPid signo })
  | .dispatch => ((), { w with kernel.tasks := signalDispatch w.kernel.tasks w.procs.currentPid })

/-- A process that has run before gets back what the frame held when it last lost the CPU. -/
def ResumesExactly (w : Traced) : CtxOp → Prop
  | .tick regs => ∀ next, resumed w.kernel = some next → ∀ l ∈ w.lost next,
      savedContext (schedTick w.kernel regs).1 = l.frame
  | _ => True

/-- The process that is resumed was RUNNING when it last lost the CPU, or had the very values
of that frame saved. -/
def LostRunning (w : Traced) : CtxOp → Prop
  | .tick _ => ∀ next, resumed w.kernel = some next → ∀ l ∈ w.lost next, l.saved = true
  | _ => True

instance (w : Traced) : (op : CtxOp) → Decidable (ResumesExactly w op)
  | .tick _ => inferInstanceAs (Decidable (∀ _, _ → _))
  | .send _ | .dispatch => inferInstanceAs (Decidable True)

instance (w : Traced) : (op : CtxOp) → Decidable (LostRunning w op)
  | .tick _ => inferInstanceAs (Decidable (∀ _, _ → _))
  | .send _ | .dispatch => inferInstanceAs (Decidable True)

/-- A process table with a current process, and no two processes of one pid. -/
structure ProcessSet (t : ProcTable) : Prop where
  distinct : ∀ i j, (t.slot i).state ≠ .unused → (t.slot j).pid = (t.slot i).pid → j = i
  current : ∃ c, procCurrent t = some c ∧ (t.slot c).state ≠ .unused

/-- Nothing changes but states, and no slot is freed. -/
structure Kept (t u : ProcTable) : Prop where
  current : u.currentPid = t.currentPid
  pid : ∀ i, (u.slot i).pid = (t.slot i).pid
  ctx : ∀ i, (u.slot i).ctx = (t.slot i).ctx
  used : ∀ i, (u.slot i).state = .unused ↔ (t.slot i).state = .unused

/-- What the trace says of every process that is not running: whether it was saved. -/
structure Tracked (w : Traced) : Prop where
  set : ProcessSet w.procs
  known : ∀ i, some i ≠ procCurrent w.procs → ∀ l ∈ w.lost i,
    l.saved = true ↔ (w.procs.slot i).ctx = l.frame

variable {t u : ProcTable} {w : Traced} {m : Tasks} {i j c next : Fin procMax} {regs : Registers}

theorem Kept.refl (t : ProcTable) : Kept t t := ⟨rfl, fun _ => rfl, fun _ => rfl, fun _ => Iff.rfl⟩

theorem Kept.trans {v : ProcTable} (h : Kept t u) (h' : Kept u v) : Kept t v :=
  ⟨h'.current.trans h.current, fun i => (h'.pid i).trans (h.pid i), fun i => (h'.ctx i).trans (h.ctx i),
    fun i => (h'.used i).trans (h.used i)⟩

theorem Kept.write (t : ProcTable) (c : Fin procMax) (p : Process) (hpid : p.pid = (t.slot c).pid)
    (hctx : p.ctx = (t.slot c).ctx) (hold : (t.slot c).state ≠ .unused) (hnew : p.state ≠ .unused) :
    Kept t (t.setSlot c p) := by
  refine ⟨rfl, fun i => ?_, fun i => ?_, fun i => ?_⟩
  all_goals
    by_cases hi : i = c
    · subst hi
      rw [set_slot_self]
      first
      | exact hpid
      | exact hctx
      | exact iff_of_false hnew hold
    · rw [set_slot_ne t p hi]

theorem Kept.set (h : Kept t u) (hset : ProcessSet t) : ProcessSet u := by
  refine ⟨fun i j hi hpid => ?_, ?_⟩
  · rw [h.pid, h.pid] at hpid
    exact hset.distinct i j (fun hu => hi ((h.used i).mpr hu)) hpid
  · obtain ⟨c, hc, hused⟩ := hset.current
    refine ⟨c, ?_, fun hu => hused ((h.used c).mp hu)⟩
    rw [current_congr h.pid h.current]
    exact hc

/-- Default actions write the state, and the exit code, of the current process only. -/
theorem default_kept (hset : ProcessSet t) (s : Nat) : Kept t (defaultAction t s) := by
  obtain ⟨c, hc, hused⟩ := hset.current
  unfold defaultAction
  rw [hc]
  dsimp only
  split_ifs
  · exact Kept.write t c _ rfl rfl hused ProcState.noConfusion
  · exact Kept.write t c _ rfl rfl hused ProcState.noConfusion
  · exact Kept.write t c _ rfl rfl hused ProcState.noConfusion
  · exact Kept.refl t

theorem dispatch_signal_cases (m : Tasks) (e : Fin sigTableSize) (s : Nat) :
    (dispatchSignal m e s).procs = m.procs ∨ (dispatchSignal m e s).procs = defaultAction m.procs s := by
  unfold dispatchSignal
  split
  · exact Or.inl rfl
  · split
    · exact Or.inl rfl
    · dsimp only
      split
      · exact Or.inl rfl
      · exact Or.inr rfl

theorem dispatch_kept (hset : ProcessSet m.procs) (pid : UInt32) :
    Kept m.procs (signalDispatch m pid).procs := by
  have hrun : ∀ (e : Fin sigTableSize) (ss : List Nat) (m : Tasks), ProcessSet m.procs →
      Kept m.procs (ss.foldl (fun m s => dispatchSignal m e s) m).procs := by
    intro e ss
    induction ss with
    | nil => exact fun m _ => Kept.refl m.procs
    | cons s ss ih =>
      intro m hset
      have hstep : Kept m.procs (dispatchSignal m e s).procs := by
        rcases dispatch_signal_cases m e s with h | h
        · rw [h]
          exact Kept.refl m.procs
        · rw [h]
          exact default_kept hset s
      exact hstep.trans (ih _ (hstep.set hset))
  unfold signalDispatch
  split
  · exact Kept.refl m.procs
  · split
    · exact Kept.refl m.procs
    · exact hrun _ _ m hset

/-- The process handed the CPU becomes the current one. -/
theorem hand_over_set (hset : ProcessSet t) (regs : Registers) (hready : (t.slot next).state = .ready)
    (hne : some next ≠ procCurrent t) :
    ProcessSet (handOver t regs next) ∧ procCurrent (handOver t regs next) = some next := by
  have hused : (t.slot next).state ≠ .unused := by
    rw [hready]
    decide
  have hcur : procCurrent (handOver t regs next) = some next := by
    apply first_slot_unique
    · rw [hand_over_pid t regs hne]
      exact beq_iff_eq.mpr rfl
    · intro j hj
      rw [hand_over_pid t regs hne] at hj
      exact hset.distinct next j hused (beq_iff_eq.mp hj)
  refine ⟨⟨fun i j hi hpid => ?_, next, hcur, ?_⟩, hcur⟩
  · rw [hand_over_pid t regs hne, hand_over_pid t regs hne] at hpid
    refine hset.distinct i j (fun hu => ?_) hpid
    by_cases hin : i = next
    · exact hused (hin ▸ hu)
    · rw [hand_over_state t regs hin, hu, if_neg (fun hrun => ProcState.noConfusion hrun.2)] at hi
      exact hi rfl
  · rw [hand_over_self t regs hne]
    exact ProcState.noConfusion

/-- Losing the CPU saves the frame when, and only when, the process is RUNNING. -/
theorem loss_saved (t : ProcTable) (regs : Registers) (hc : procCurrent t = some c) (hne : some next ≠ procCurrent t) :
    (loss (t.slot c) regs).saved = true ↔ ((handOver t regs next).slot c).ctx = (loss (t.slot c) regs).frame := by
  have hcn : c ≠ next := by
    rintro rfl
    exact hne hc.symm
  rw [hand_over_ne t regs hcn, hc, save_slot_self]
  unfold loss
  dsimp only
  by_cases hrun : (t.slot c).state = .running
  · rw [if_pos hrun, hrun]
    exact iff_of_true rfl rfl
  · rw [if_neg hrun, Bool.or_eq_true_iff, beq_iff_eq, beq_iff_eq]
    exact or_iff_right hrun

theorem Tracked.kept (h : Tracked w) {u : Traced} (hkept : Kept w.procs u.procs) (hlost : u.lost = w.lost) :
    Tracked u := by
  refine ⟨hkept.set h.set, fun i hi => ?_⟩
  rw [current_congr hkept.pid hkept.current] at hi
  rw [hkept.ctx, hlost]
  exact h.known i hi

theorem Tracked.tick (h : Tracked w) (regs : Registers) : Tracked (ctxStep w (.tick regs)).2 := by
  cases hr : resumed w.kernel with
  | none =>
    apply h.kept
    · have hsame : (ctxStep w (.tick regs)).2.procs = w.procs := tick_stays regs hr
      rw [hsame]
      exact Kept.refl w.procs
    · unfold ctxStep recordLoss
      dsimp only
      rw [hr]
  | some next =>
    obtain ⟨-, hne, hready, -, hprocs⟩ := tick_resumes regs hr
    obtain ⟨hset, hcur⟩ := hand_over_set h.set regs hready hne
    obtain ⟨c, hc, -⟩ := h.set.current
    have hlost : (ctxStep w (.tick regs)).2.lost
        = Function.update w.lost c (some (loss (w.procs.slot c) regs)) := by
      unfold ctxStep recordLoss
      dsimp only
      rw [hr, hc]
    have hstep : (ctxStep w (.tick regs)).2.procs = handOver w.procs regs next := hprocs
    refine ⟨?_, fun i hi l hl => ?_⟩
    · rw [hstep]
      exact hset
    · rw [hstep, hcur] at hi
      have hin : i ≠ next := fun heq => hi (congrArg some heq)
      rw [hlost] at hl
      rw [hstep]
      by_cases hic : i = c
      · subst hic
        rw [Function.update_self] at hl
        cases hl
        exact loss_saved w.procs regs hc hne
      · have hnc : some i ≠ procCurrent w.procs := by
          rw [hc]
          exact fun heq => hic (Option.some.inj heq)
        rw [Function.update_of_ne hic] at hl
        rw [hand_over_ne _ _ hin, save_slot_ne _ _ hnc]
        exact h.known i hnc l hl

theorem Tracked.step (h : Tracked w) (op : CtxOp) : Tracked (ctxStep w op).2 := by
  cases op with
  | tick regs => exact h.tick regs
  | send signo => exact h.kept (Kept.refl w.procs) rfl
  | dispatch => exact h.kept (dispatch_kept h.set w.procs.currentPid) rfl

theorem saved_restore (ctx : CpuContext) (regs : Registers) : savedContext (restoreContext ctx regs) = ctx := rfl

theorem Tracked.resumes_iff (h : Tracked w) (op : CtxOp) : ResumesExactly w op ↔ LostRunning w op := by
  cases op with
  | tick regs =>
    refine forall_congr' (fun next => forall_congr' (fun hr => ?_))
    obtain ⟨-, hne, -, hregs, -⟩ := tick_resumes regs hr
    refine forall_congr' (fun l => forall_congr' (fun hl => ?_))
    rw [hregs, saved_restore]
    exact (h.known next hne l hl).symm
  | _ => exact Iff.rfl

/-- From any set of processes none of which has lost the CPU yet: over a whole run, every
process that is resumed gets its registers back exactly when each was RUNNING when it
lost the CPU, or had the frame's values saved anyway. -/
theorem resumes_exactly_iff (k : SchedState) (hset : ProcessSet k.tasks.procs) (ops : List CtxOp) :
    Along ResumesExactly ctxStep ⟨k, fun _ => none⟩ ops ↔ Along LostRunning ctxStep ⟨k, fun _ => none⟩ ops := by
  have hstart : Tracked ⟨k, fun _ => none⟩ := by
    refine ⟨hset, fun i _ l hl => ?_⟩
    cases hl
  exact Along.congr (I := Tracked) (fun _ op h _ => h.step op) (fun _ op h => h.resumes_iff op) hstart ops

/-- The shell, running, and a program that has not run yet. -/
def shellAndProgram : SchedState :=
  let k := kmainTasks 0
  { k with tasks.procs := (procCreate k.tasks.procs 0x400000).2 }

theorem shell_and_program_set : ProcessSet shellAndProgram.tasks.procs :=
  ⟨by decide, by decide⟩

/-- A whole quantum with one frame. -/
def quantum (eip : UInt32) : List CtxOp :=
  List.replicate schedTicks (.tick ⟨0, 0, 0, 0, 0, 0, 0, 0, 0, 0, eip, 8, 0x202⟩)

theorem two_quanta_resume :
    Along ResumesExactly ctxStep ⟨shellAndProgram, fun _ => none⟩ (quantum 0x1000 ++ quantum 0x400010) :=
  (resumes_exactly_iff shellAndProgram shell_and_program_set (quantum 0x1000 ++ quantum 0x400010)).mpr
    (by decide)

/-- A SIGCONT makes the shell READY while it runs; what its quantum ends with is lost. -/
theorem continued_shell_restarts :
    ¬ Along ResumesExactly ctxStep ⟨shellAndProgram, fun _ => none⟩
      (.send sigCont :: .dispatch :: quantum 0x1000 ++ quantum 0x400010) := by
  decide

end BaSic.Proofs.SchedContexts
