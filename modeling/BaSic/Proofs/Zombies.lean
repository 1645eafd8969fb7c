import BaSic.Proofs.TaskTable
import BaSic.Lib.Steps

namespace BaSic.Proofs.Zombies
open Kernel Lib TaskTable

inductive TaskOp where
  | create (entry : UInt32)
  | fork (parentEsp : UInt32)
  | exit (code : Int)
  | send (pid : UInt32) (signo : Int)
  | setMask (pid : UInt32) (how : Int) (mask : UInt8)
  | dispatch (pid : UInt32)
  | tick (regs : Registers)
  | wait (childPid : UInt32)

def taskStep (k : SchedState) : TaskOp → Unit × SchedState
  | .create entry => ((), { k with tasks.procs := (procCreate k.tasks.procs entry).2 })
  | .fork parentEsp => ((), { k with tasks.procs := (procFork k.tasks.procs parentEsp).2 })
  | .exit code => ((), { k with tasks := sysExit k.tasks code })
  | .send pid signo => ((), { k with tasks.signals := signalSend k.tasks.signals pid signo })
  | .setMask pid how mask => ((), { k with tasks.signals := signalSetMask k.tasks.signals pid how mask })
  | .dispatch pid => ((), { k with tasks := signalDispatch k.tasks pid })
  | .tick regs => ((), (schedTick k regs).2)
  | .wait childPid => ((), { k with tasks.procs := (waitRound k.tasks.procs childPid).2 })

/-- The process tables a dispatch goes through, one for each signal looked at. -/
def dispatchTables (k : Tasks) (e : Fin sigTableSize) : List Nat → List ProcTable
  | [] => []
  | s :: ss => (dispatchSignal k e s).procs :: dispatchTables (dispatchSignal k e s) e ss

/-- The process tables an operation goes through; only a dispatch writes one slot's
state more than once. -/
def tables (k : SchedState) (op : TaskOp) : List ProcTable :=
  match op with
  | .dispatch pid =>
    match dispatchEntry k.tasks.signals pid with
    | none => []
    | some e =>
      if (k.tasks.signals e).pending = 0 then [] else dispatchTables k.tasks e (List.range sigMax).tail
  | op => [(taskStep k op).2.tasks.procs]

/-- A zombie stays one, unless this very operation reaps it. -/
def Keeps (op : TaskOp) (t u : ProcTable) : Prop :=
  ∀ i, (t.slot i).state = .zombie → (u.slot i).state = .zombie ∨
    ∃ childPid, op = .wait childPid ∧ waitFind t childPid = some i ∧ u = procCleanup t i

/-- Throughout the operation zombies stay zombies until they are reaped. -/
def ZombiesStay (k : SchedState) (op : TaskOp) : Prop :=
  (k.tasks.procs :: tables k op).IsChain (Keeps op)

/-- Signal `s` of the entry is pending and not masked, and has no handler. -/
def Acts (g : SigTable) (e : Fin sigTableSize) (s : Nat) : Prop :=
  (g e).pending &&& sigBit s ≠ 0 ∧ (g e).mask &&& sigBit s = 0 ∧ ¬ (g e).handlers (s - 1) > 1

instance (g : SigTable) (e : Fin sigTableSize) (s : Nat) : Decidable (Acts g e s) :=
  inferInstanceAs (Decidable (_ ∧ _))

/-- The current process is a zombie. -/
def CurrentZombie (t : ProcTable) : Prop := ∃ c, procCurrent t = some c ∧ (t.slot c).state = .zombie

/-- A dispatch does not act on SIGSTOP or SIGCONT when the current process is a zombie
or the same dispatch acts on SIGTERM or SIGKILL. -/
def Gentle (k : SchedState) : TaskOp → Prop
  | .dispatch pid => ∀ e, dispatchEntry k.tasks.signals pid = some e →
      CurrentZombie k.tasks.procs ∨ (∃ c, procCurrent k.tasks.procs = some c) ∧
        (Acts k.tasks.signals e sigTerm ∨ Acts k.tasks.signals e sigKill) →
      ¬ Acts k.tasks.signals e sigStop ∧ ¬ Acts k.tasks.signals e sigCont
  | _ => True

variable {k : SchedState} {t u : ProcTable} {m : Tasks} {e : Fin sigTableSize} {s r : Nat} {op : TaskOp}

theorem keeps_same (op : TaskOp) (h : u.slot = t.slot) : Keeps op t u := by
  intro i hz
  left
  rw [h]
  exact hz

/-- Writing a slot that is no zombie, or making it one, keeps the zombies. -/
theorem keeps_one {i : Fin procMax} (hne : ∀ j, j ≠ i → u.slot j = t.slot j)
    (h : (t.slot i).state ≠ .zombie ∨ (u.slot i).state = .zombie) (op : TaskOp) : Keeps op t u := by
  intro j hz
  left
  by_cases hj : j = i
  · subst hj
    exact h.resolve_left (not_not.mpr hz)
  · rw [hne j hj]
    exact hz

theorem keeps_set_slot {i : Fin procMax} {p : Process}
    (h : (t.slot i).state ≠ .zombie ∨ p.state = .zombie) (op : TaskOp) : Keeps op t (t.setSlot i p) := by
  refine keeps_one (i := i) (fun j hj => set_slot_ne t p hj) ?_ op
  rwa [set_slot_self]

theorem sig_bit_apart : ∀ s ∈ (List.range sigMax).tail, ∀ r ∈ (List.range sigMax).tail, r ≠ s →
    ∀ x : UInt8, x &&& ~~~sigBit s &&& sigBit r = x &&& sigBit r := by
  have hclear : ∀ s ∈ (List.range sigMax).tail, ∀ r ∈ (List.range sigMax).tail, r ≠ s →
      ~~~sigBit s &&& sigBit r = sigBit r := by decide
  intro s hs r hr h x
  rw [UInt8.and_assoc, hclear s hs r hr h]

theorem dispatch_procs (m : Tasks) (e : Fin sigTableSize) (s : Nat) :
    (dispatchSignal m e s).procs = if Acts m.signals e s then defaultAction m.procs s else m.procs := by
  unfold dispatchSignal Acts
  by_cases hp : (m.signals e).pending &&& sigBit s = 0
  · simp [hp]
  by_cases hm : (m.signals e).mask &&& sigBit s = 0
  · by_cases hh : (m.signals e).handlers (s - 1) > 1
    · simp [hp, hm, hh]
    · simp [hp, hm, hh]
  · simp [hp, hm]

/-- Acting on one signal leaves the others as they are. -/
theorem dispatch_acts (m : Tasks) (e : Fin sigTableSize) (hs : s ∈ (List.range sigMax).tail)
    (hr : r ∈ (List.range sigMax).tail) (h : r ≠ s) :
    Acts (dispatchSignal m e s).signals e r ↔ Acts m.signals e r := by
  have hbit := sig_bit_apart s hs r hr h (m.signals e).pending
  have hsame : ∀ p, Function.update m.signals e { m.signals e with pending := p } e
      = { m.signals e with pending := p } := fun p => Function.update_self ..
  unfold dispatchSignal
  split
  · rfl
  · split
    · rfl
    · unfold Acts
      dsimp only
      split
      all_goals
        dsimp only
        rw [hsame]
        dsimp only
        rw [hbit]

theorem default_current (t : ProcTable) (s : Nat) : procCurrent (defaultAction t s) = procCurrent t := by
  unfold defaultAction
  cases hc : procCurrent t with
  | none => exact hc
  | some c =>
    dsimp only
    split_ifs
    · refine (current_set_slot ?_).trans hc
      rfl
    · exact (current_set_state t c .sleeping).trans hc
    · exact (current_set_state t c .ready).trans hc
    · exact hc

/-- Only SIGSTOP and SIGCONT, on a current process that is a zombie, bring a zombie back. -/
theorem default_keeps (t : ProcTable) (s : Nat) (pid : UInt32) :
    Keeps (.dispatch pid) t (defaultAction t s) ↔ (CurrentZombie t → s ≠ sigStop ∧ s ≠ sigCont) := by
  constructor
  · rintro hkeep ⟨c, hc, hz⟩
    have hstill : ((defaultAction t s).slot c).state = .zombie := by
      rcases hkeep c hz with h | ⟨_, h, _⟩
      · exact h
      · cases h
    unfold defaultAction at hstill
    simp only [hc] at hstill
    refine ⟨?_, ?_⟩
    · rintro rfl
      rw [if_neg (by decide), if_pos rfl, set_state_self] at hstill
      cases hstill
    · rintro rfl
      rw [if_neg (by decide), if_neg (by decide), if_pos rfl, set_state_self] at hstill
      cases hstill
  · intro h
    unfold defaultAction
    cases hc : procCurrent t with
    | none => exact keeps_same _ rfl
    | some c =>
      dsimp only
      by_cases hz : (t.slot c).state = .zombie
      · obtain ⟨hstop, hcont⟩ := h ⟨c, hc, hz⟩
        rw [if_neg hstop, if_neg hcont]
        split
        · exact keeps_set_slot (Or.inr rfl) _
        · exact keeps_same _ rfl
      · split_ifs
        · exact keeps_set_slot (Or.inr rfl) _
        · exact keeps_set_slot (Or.inl hz) _
        · exact keeps_set_slot (Or.inl hz) _
        · exact keeps_same _ rfl

/-- Whether the current process is a zombie after the default action of a signal. -/
theorem default_zombie (t : ProcTable) (s : Nat) :
    CurrentZombie (defaultAction t s) ↔
      (procCurrent t).isSome ∧ (s = sigKill ∨ s = sigTerm) ∨
        CurrentZombie t ∧ s ≠ sigStop ∧ s ≠ sigCont := by
  unfold CurrentZombie
  rw [default_current]
  unfold defaultAction
  cases hc : procCurrent t with
  | none => simp
  | some c =>
    have hcur : ∀ P : Fin procMax → Prop, (∃ d, some c = some d ∧ P d) ↔ P c := by simp
    dsimp only
    rw [hcur, hcur]
    split_ifs with hkill hstop hcont
    · simp [hkill]
    · rw [set_state_self]
      simp [hstop, sigStop, sigKill, sigTerm]
    · rw [set_state_self]
      simp [hcont, sigCont, sigKill, sigTerm]
    · simp [hkill, hstop, hcont]

theorem dispatch_keeps (m : Tasks) (e : Fin sigTableSize) (s : Nat) (pid : UInt32) :
    Keeps (.dispatch pid) m.procs (dispatchSignal m e s).procs ↔
      (CurrentZombie m.procs → s = sigStop ∨ s = sigCont → ¬ Acts m.signals e s) := by
  rw [dispatch_procs]
  split
  · rename_i ha
    rw [default_keeps]
    constructor
    · rintro h hz (hs | hs)
      · exact absurd hs (h hz).1
      · exact absurd hs (h hz).2
    · intro h hz
      exact ⟨fun hs => h hz (Or.inl hs) ha, fun hs => h hz (Or.inr hs) ha⟩
  · rename_i ha
    exact ⟨fun _ _ _ => ha, fun _ => keeps_same _ rfl⟩

theorem dispatch_current (m : Tasks) (e : Fin sigTableSize) (s : Nat) :
    procCurrent (dispatchSignal m e s).procs = procCurrent m.procs := by
  rw [dispatch_procs]
  split
  · exact default_current _ _
  · rfl

/-- Whether the current process is a zombie after a signal has been looked at. -/
theorem dispatch_zombie (m : Tasks) (e : Fin sigTableSize) (s : Nat) :
    CurrentZombie (dispatchSignal m e s).procs ↔
      Acts m.signals e s ∧ (procCurrent m.procs).isSome ∧ (s = sigKill ∨ s = sigTerm) ∨
        CurrentZombie m.procs ∧ ¬ (Acts m.signals e s ∧ (s = sigStop ∨ s = sigCont)) := by
  rw [dispatch_procs]
  split
  · rename_i ha
    rw [default_zombie]
    tauto
  · rename_i ha
    tauto

theorem chain_dispatch (m : Tasks) (e : Fin sigTableSize) (s : Nat) (ss : List Nat) (op : TaskOp) :
    (m.procs :: dispatchTables m e (s :: ss)).IsChain (Keeps op) ↔
      Keeps op m.procs (dispatchSignal m e s).procs ∧
        ((dispatchSignal m e s).procs :: dispatchTables (dispatchSignal m e s) e ss).IsChain (Keeps op) := by
  rw [dispatchTables, List.isChain_cons_cons]

/-- Looking at a signal other than SIGSTOP and SIGCONT leaves zombies alone. -/
theorem dispatch_keeps_other (m : Tasks) (e : Fin sigTableSize) (pid : UInt32)
    (hstop : s ≠ sigStop) (hcont : s ≠ sigCont) :
    Keeps (.dispatch pid) m.procs (dispatchSignal m e s).procs := by
  rw [dispatch_keeps]
  rintro - (h | h)
  · exact absurd h hstop
  · exact absurd h hcont

/-- After SIGTERM and SIGKILL the current process is a zombie if it was one, or if one
of the two was acted on. -/
theorem zombie_after_kill (m : Tasks) (e : Fin sigTableSize) :
    CurrentZombie (dispatchSignal (dispatchSignal m e sigTerm) e sigKill).procs ↔
      CurrentZombie m.procs ∨ (∃ c, procCurrent m.procs = some c) ∧
        (Acts m.signals e sigTerm ∨ Acts m.signals e sigKill) := by
  have hkill : Acts (dispatchSignal m e sigTerm).signals e sigKill ↔ Acts m.signals e sigKill :=
    dispatch_acts m e (by decide) (by decide) (by decide)
  have hterm : ¬ (sigTerm = sigStop ∨ sigTerm = sigCont) := by decide
  have hkill' : ¬ (sigKill = sigStop ∨ sigKill = sigCont) := by decide
  rw [dispatch_zombie, dispatch_zombie, dispatch_current, hkill, Option.isSome_iff_exists]
  tauto

/-- The signals of one dispatch, in order: SIGTERM and SIGKILL make the current process a
zombie before SIGSTOP and SIGCONT are looked at. -/
theorem chain_signals (m : Tasks) (e : Fin sigTableSize) (pid : UInt32) :
    (m.procs :: dispatchTables m e (List.range sigMax).tail).IsChain (Keeps (.dispatch pid)) ↔
      (CurrentZombie m.procs ∨ (∃ c, procCurrent m.procs = some c) ∧
          (Acts m.signals e sigTerm ∨ Acts m.signals e sigKill) →
        ¬ Acts m.signals e sigStop ∧ ¬ Acts m.signals e sigCont) := by
  have hlist : (List.range sigMax).tail = [sigTerm, sigKill, sigStop, sigCont, 5, 6] := by decide
  rw [hlist, ← zombie_after_kill]
  let m₁ := dispatchSignal m e sigTerm
  let m₂ := dispatchSignal m₁ e sigKill
  let m₃ := dispatchSignal m₂ e sigStop
  have hterm : Keeps (.dispatch pid) m.procs m₁.procs :=
    dispatch_keeps_other m e pid (by decide) (by decide)
  have hkill : Keeps (.dispatch pid) m₁.procs m₂.procs :=
    dispatch_keeps_other m₁ e pid (by decide) (by decide)
  have hstop : Acts m₂.signals e sigStop ↔ Acts m.signals e sigStop :=
    (dispatch_acts m₁ e (by decide) (by decide) (by decide)).trans
      (dispatch_acts m e (by decide) (by decide) (by decide))
  have hcont : Acts m₃.signals e sigCont ↔ Acts m.signals e sigCont :=
    (dispatch_acts m₂ e (by decide) (by decide) (by decide)).trans
      ((dispatch_acts m₁ e (by decide) (by decide) (by decide)).trans
        (dispatch_acts m e (by decide) (by decide) (by decide)))
  have hzombie : CurrentZombie m₃.procs ↔ CurrentZombie m₂.procs ∧ ¬ Acts m.signals e sigStop := by
    have hne : ¬ (sigStop = sigKill ∨ sigStop = sigTerm) := by decide
    rw [dispatch_zombie, hstop]
    tauto
  simp only [chain_dispatch]
  rw [dispatch_keeps m₂ e sigStop, dispatch_keeps m₃ e sigCont, hstop, hcont, hzombie]
  constructor
  · rintro ⟨-, -, hstops, hconts, -⟩ hz
    have hns : ¬ Acts m.signals e sigStop := hstops hz (Or.inl rfl)
    exact ⟨hns, hconts ⟨hz, hns⟩ (Or.inr rfl)⟩
  · intro h
    refine ⟨hterm, hkill, fun hz _ => (h hz).1, fun hz _ => (h hz.1).2, ?_, ?_, ?_⟩
    · exact dispatch_keeps_other _ e pid (by decide) (by decide)
    · exact dispatch_keeps_other _ e pid (by decide) (by decide)
    · exact List.isChain_singleton _

/-- The last of the tables is the one a dispatch leaves. -/
theorem dispatch_last (m : Tasks) (e : Fin sigTableSize) (ss : List Nat) :
    (dispatchTables m e ss).getLastD m.procs = (ss.foldl (fun m s => dispatchSignal m e s) m).procs := by
  induction ss generalizing m with
  | nil => rfl
  | cons s ss ih =>
    rw [dispatchTables, List.getLastD_cons]
    exact ih (dispatchSignal m e s)

theorem tables_dispatch (k : SchedState) (pid : UInt32) (he : dispatchEntry k.tasks.signals pid = some e)
    (hp : (k.tasks.signals e).pending ≠ 0) :
    tables k (.dispatch pid) = dispatchTables k.tasks e (List.range sigMax).tail := by
  unfold tables
  dsimp only
  rw [he]
  exact if_neg hp

/-- Without a pending signal, or an entry for the pid, a dispatch does nothing. -/
theorem tables_idle (k : SchedState) (pid : UInt32)
    (h : ∀ e, dispatchEntry k.tasks.signals pid = some e → (k.tasks.signals e).pending = 0) :
    tables k (.dispatch pid) = [] ∧ signalDispatch k.tasks pid = k.tasks := by
  unfold tables signalDispatch
  dsimp only
  cases he : dispatchEntry k.tasks.signals pid with
  | none => exact ⟨rfl, rfl⟩
  | some e => exact ⟨if_pos (h e he), if_pos (h e he)⟩

/-- The last of the tables an operation goes through is the one it leaves. -/
theorem tables_last (k : SchedState) (op : TaskOp) :
    (tables k op).getLastD k.tasks.procs = (taskStep k op).2.tasks.procs := by
  cases op with
  | dispatch pid =>
    by_cases h : ∀ e, dispatchEntry k.tasks.signals pid = some e → (k.tasks.signals e).pending = 0
    · obtain ⟨hnil, hsame⟩ := tables_idle k pid h
      rw [hnil, taskStep, hsame]
      rfl
    · push Not at h
      obtain ⟨e, he, hp⟩ := h
      have hrun : signalDispatch k.tasks pid
          = ((List.range sigMax).tail).foldl (fun m s => dispatchSignal m e s) k.tasks := by
        unfold signalDispatch
        rw [he]
        exact if_neg hp
      rw [tables_dispatch k pid he hp, taskStep, hrun]
      exact dispatch_last k.tasks e _
  | _ => rfl

theorem stay_dispatch (k : SchedState) (pid : UInt32) :
    ZombiesStay k (.dispatch pid) ↔ Gentle k (.dispatch pid) := by
  unfold ZombiesStay Gentle
  by_cases h : ∀ e, dispatchEntry k.tasks.signals pid = some e → (k.tasks.signals e).pending = 0
  · rw [(tables_idle k pid h).1]
    constructor
    · intro _ e he _
      have hno : ∀ s, ¬ Acts k.tasks.signals e s := fun s ha => ha.1 (by rw [h e he, UInt8.zero_and])
      exact ⟨hno sigStop, hno sigCont⟩
    · intro _
      exact List.isChain_singleton _
  · push Not at h
    obtain ⟨e, he, hp⟩ := h
    rw [tables_dispatch k pid he hp, chain_signals]
    constructor
    · intro hgentle d hd
      cases he.symm.trans hd
      exact hgentle
    · intro hgentle
      exact hgentle e he

theorem keeps_spawned (h : Spawned t u) (op : TaskOp) : Keeps op t u := by
  obtain ⟨i, p, hi, -, -, rfl⟩ := h
  have hne : (t.slot i).state ≠ .zombie := by
    rw [first_in_state hi]
    decide
  exact keeps_one (u := { t.setSlot i p with nextPid := t.nextPid + 1 })
    (fun j hj => set_slot_ne t p hj) (Or.inl hne) op

theorem keeps_exit (m : Tasks) (code : Int) (op : TaskOp) : Keeps op m.procs (sysExit m code).procs := by
  rcases exit_procs m code with ⟨-, hprocs⟩ | ⟨c, -, hprocs⟩
  · rw [hprocs]
    exact keeps_same op rfl
  · rw [hprocs]
    apply keeps_one (i := c)
    · intro j hj
      exact set_slot_ne m.procs _ hj
    · exact Or.inr (congrArg Process.state (set_slot_self m.procs c _))

theorem keeps_wait (t : ProcTable) (childPid : UInt32) :
    Keeps (.wait childPid) t (waitRound t childPid).2 := by
  unfold waitRound
  cases hw : waitFind t childPid with
  | none => exact keeps_same _ rfl
  | some i =>
    intro j hz
    by_cases hj : j = i
    · subst hj
      exact Or.inr ⟨childPid, rfl, hw, rfl⟩
    · left
      exact (congrArg Process.state (set_slot_ne t zeroProcess hj)).trans hz

theorem keeps_save (t : ProcTable) (cur : Option (Fin procMax)) (regs : Registers) (op : TaskOp) :
    Keeps op t (saveCurrent t cur regs) := by
  unfold saveCurrent
  cases cur with
  | none => exact keeps_same op rfl
  | some c =>
    dsimp only
    split
    · rename_i hrun
      refine keeps_set_slot (Or.inl ?_) op
      rw [hrun]
      decide
    · exact keeps_same op rfl

theorem keeps_switch (t : ProcTable) (regs : Registers) (r : Registers) :
    Keeps (.tick r) t (switchTask t regs).2 := by
  rcases switch_cases t regs with ⟨hsame, -⟩ | ⟨next, hready, hcur, hrun⟩
  · rw [hsame]
    exact keeps_same _ rfl
  · rw [hrun]
    intro j hz
    left
    have hj : j ≠ next := by
      rintro rfl
      rw [hready] at hz
      cases hz
    rcases keeps_save t (procCurrent t) regs (.tick r) j hz with h | ⟨_, hwait, _⟩
    · exact (congrArg Process.state (set_state_ne _ _ hj)).trans h
    · cases hwait

/-- Nothing but a dispatch can bring a zombie back. -/
theorem stay_iff_gentle (k : SchedState) (op : TaskOp) : ZombiesStay k op ↔ Gentle k op := by
  cases op with
  | dispatch pid => exact stay_dispatch k pid
  | create entry =>
    refine iff_of_true (List.isChain_pair.mpr ?_) trivial
    rcases create_spawns k.tasks.procs entry with h | h
    · exact (congrArg (Keeps _ k.tasks.procs) h).mpr (keeps_same _ rfl)
    · exact keeps_spawned h _
  | fork parentEsp =>
    refine iff_of_true (List.isChain_pair.mpr ?_) trivial
    rcases fork_spawns k.tasks.procs parentEsp with h | h
    · exact (congrArg (Keeps _ k.tasks.procs) h).mpr (keeps_same _ rfl)
    · exact keeps_spawned h _
  | exit code => exact iff_of_true (List.isChain_pair.mpr (keeps_exit k.tasks code _)) trivial
  | send pid signo => exact iff_of_true (List.isChain_pair.mpr (keeps_same _ rfl)) trivial
  | setMask pid how mask => exact iff_of_true (List.isChain_pair.mpr (keeps_same _ rfl)) trivial
  | tick regs =>
    refine iff_of_true (List.isChain_pair.mpr ?_) trivial
    by_cases h : Expires k
    · exact (congrArg (fun x => Keeps _ k.tasks.procs x.2.tasks.procs) (tick_expires regs h)).mpr
        (keeps_switch _ _ _)
    · exact (congrArg (fun m => Keeps _ k.tasks.procs m.procs) (tick_early regs h).2).mpr (keeps_same _ rfl)
  | wait childPid => exact iff_of_true (List.isChain_pair.mpr (keeps_wait k.tasks.procs childPid)) trivial

/-- After boot, zombies stay zombies until they are reaped exactly when no dispatch acts
on SIGSTOP or SIGCONT while the current process is a zombie or becomes one by the same
dispatch. -/
theorem zombies_stay_iff (tableAddr : UInt32) (ops : List TaskOp) :
    Along ZombiesStay taskStep (kmainTasks tableAddr) ops ↔ Along Gentle taskStep (kmainTasks tableAddr) ops :=
  Along.congr (I := fun _ => True) (fun _ _ _ _ => trivial) (fun k op _ => stay_iff_gentle k op) trivial ops

/-- A SIGTERM and a SIGCONT for the shell, both pending at the next dispatch. -/
def termAndCont : List TaskOp := [.send 1 sigTerm, .send 1 sigCont, .dispatch 1]

theorem terminated_then_ready :
    (tables (run taskStep (kmainTasks 0) (termAndCont.take 2)).2 (.dispatch 1)).map
        (fun t => (t.slot 0).state) = [.zombie, .zombie, .zombie, .ready, .ready, .ready] ∧
      ¬ Along ZombiesStay taskStep (kmainTasks 0) termAndCont := by
  refine ⟨by decide +kernel, ?_⟩
  rintro ⟨-, -, hstay, -⟩
  rw [stay_iff_gentle] at hstay
  have hgentle := hstay 0 (by decide) (Or.inr ⟨⟨0, by decide⟩, Or.inl (by decide)⟩)
  exact hgentle.2 (by decide +kernel)

end BaSic.Proofs.Zombies
