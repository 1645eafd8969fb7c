import BaSic.Proofs.TaskTable
import BaSic.Lib.Steps

namespace BaSic.Proofs.Parents
open Kernel Lib TaskTable

inductive FamilyOp where
  | spawn (entry : UInt32)
  | exec (entry : UInt32)
  | fork (parentEsp : UInt32)
  | exit (code : Int)
  | wait (childPid : UInt32)
  | tick (regs : Registers)

def familyStep (k : SchedState) : FamilyOp → Unit × SchedState
  | .spawn entry => ((), { k with tasks.procs := cmdSpawn k.tasks.procs entry })
  | .exec entry => ((), { k with tasks.procs := (sysExec k.tasks.procs entry).2 })
  | .fork parentEsp => ((), { k with tasks.procs := (procFork k.tasks.procs parentEsp).2 })
  | .exit code => ((), { k with tasks := sysExit k.tasks code })
  | .wait childPid => ((), { k with tasks.procs := (waitRound k.tasks.procs childPid).2 })
  | .tick regs => ((), (schedTick k regs).2)

/-- The parent of every zombie is the process of some slot in use. -/
def Parented (t : ProcTable) : Prop :=
  ∀ i, (t.slot i).state = .zombie → ∃ j, (t.slot j).state ≠ .unused ∧ (t.slot j).pid = (t.slot i).parentPid

instance (t : ProcTable) : Decidable (Parented t) := inferInstanceAs (Decidable (∀ _, _ → ∃ _, _))

def AllParented (k : SchedState) : Prop := Parented k.tasks.procs

/-- Who exits has a parent in the table, and who is reaped leaves no zombie child behind. -/
def KeepsParents (k : SchedState) : FamilyOp → Prop
  | .exit _ => ∀ c, procCurrent k.tasks.procs = some c →
      ∃ j, (j = c ∨ (k.tasks.procs.slot j).state ≠ .unused) ∧
        (k.tasks.procs.slot j).pid = (k.tasks.procs.slot c).parentPid
  | .wait childPid => ∀ i, waitFind k.tasks.procs childPid = some i →
      ∀ j, j ≠ i → (k.tasks.procs.slot j).state = .zombie →
        (k.tasks.procs.slot j).parentPid = (k.tasks.procs.slot i).pid →
          ∃ l, l ≠ i ∧ (k.tasks.procs.slot l).state ≠ .unused ∧
            (k.tasks.procs.slot l).pid = (k.tasks.procs.slot i).pid
  | _ => True

variable {t u : ProcTable} {k : SchedState} {i c : Fin procMax}

theorem Parented.spawned (h : Parented t) (hs : u = t ∨ Spawned t u) : Parented u := by
  rcases hs with rfl | ⟨i, p, hi, -, hready, rfl⟩
  · exact h
  intro j hj
  have hji : j ≠ i := by
    rintro rfl
    dsimp only at hj
    rw [set_slot_self, hready] at hj
    cases hj
  dsimp only at hj ⊢
  rw [set_slot_ne t p hji] at hj ⊢
  obtain ⟨l, hl, hpid⟩ := h j hj
  -- the parent is in a slot in use, so not in the one filled
  have hli : l ≠ i := by
    rintro rfl
    exact hl (first_in_state hi)
  refine ⟨l, ?_⟩
  rw [set_slot_ne t p hli]
  exact ⟨hl, hpid⟩

theorem Parented.hand_over (h : Parented t) (regs : Registers)
    (hne : some i ≠ procCurrent t) : Parented (handOver t regs i) := by
  have hstate : ∀ j, ((handOver t regs i).slot j).state = .zombie → (t.slot j).state = .zombie := by
    intro j hj
    by_cases hji : j = i
    · rw [hji, hand_over_self t regs hne] at hj
      cases hj
    · rw [hand_over_state t regs hji] at hj
      split at hj
      · cases hj
      · exact hj
  have hused : ∀ j, (t.slot j).state ≠ .unused → ((handOver t regs i).slot j).state ≠ .unused := by
    intro j hj
    by_cases hji : j = i
    · rw [hji, hand_over_self t regs hne]
      exact ProcState.noConfusion
    · rw [hand_over_state t regs hji]
      split
      · exact ProcState.noConfusion
      · exact hj
  intro j hj
  obtain ⟨l, hl, hpid⟩ := h j (hstate j hj)
  refine ⟨l, hused l hl, ?_⟩
  rw [hand_over_pid t regs hne, hand_over_parent t regs hne]
  exact hpid

/-- An exit leaves all zombies parented exactly when the new one is. -/
theorem exit_parented_iff (h : Parented t) (c : Fin procMax) (code : Int) :
    Parented (procSetCurrent (t.setSlot c { t.slot c with exitCode := code, state := .zombie }) 1) ↔
      ∃ j, (j = c ∨ (t.slot j).state ≠ .unused) ∧ (t.slot j).pid = (t.slot c).parentPid := by
  let p := { t.slot c with exitCode := code, state := .zombie }
  have hself : (t.setSlot c p).slot c = p := set_slot_self t c p
  have hother : ∀ j, j ≠ c → (t.setSlot c p).slot j = t.slot j := fun j hj => set_slot_ne t p hj
  have hpid : ∀ j, ((t.setSlot c p).slot j).pid = (t.slot j).pid ∧
      ((t.setSlot c p).slot j).parentPid = (t.slot j).parentPid := by
    intro j
    by_cases hj : j = c
    · rw [hj, hself]
      exact ⟨rfl, rfl⟩
    · rw [hother j hj]
      exact ⟨rfl, rfl⟩
  have hused : ∀ j, ((t.setSlot c p).slot j).state ≠ .unused ↔ j = c ∨ (t.slot j).state ≠ .unused := by
    intro j
    by_cases hj : j = c
    · rw [hj, hself]
      exact iff_of_true ProcState.noConfusion (Or.inl rfl)
    · rw [hother j hj, or_iff_right hj]
  have hparent : ∀ i, (∃ j, ((t.setSlot c p).slot j).state ≠ .unused ∧
        ((t.setSlot c p).slot j).pid = ((t.setSlot c p).slot i).parentPid) ↔
      ∃ j, (j = c ∨ (t.slot j).state ≠ .unused) ∧ (t.slot j).pid = (t.slot i).parentPid := by
    intro i
    refine exists_congr (fun j => ?_)
    rw [hused j, (hpid j).1, (hpid i).2]
  constructor
  · intro hall
    exact (hparent c).mp (hall c (congrArg Process.state hself))
  · intro hc i hi
    apply (hparent i).mpr
    by_cases hic : i = c
    · rw [hic]
      exact hc
    · have hz : (t.slot i).state = .zombie := (congrArg Process.state (hother i hic)).symm.trans hi
      obtain ⟨j, hj, hjp⟩ := h i hz
      exact ⟨j, Or.inr hj, hjp⟩

/-- A reap leaves all zombies parented exactly when it leaves none of the reaped
process's zombie children without one. -/
theorem reap_parented_iff (h : Parented t) (i : Fin procMax) :
    Parented (procCleanup t i) ↔ ∀ j, j ≠ i → (t.slot j).state = .zombie →
      (t.slot j).parentPid = (t.slot i).pid →
        ∃ l, l ≠ i ∧ (t.slot l).state ≠ .unused ∧ (t.slot l).pid = (t.slot i).pid := by
  have hself : (procCleanup t i).slot i = zeroProcess := set_slot_self t i zeroProcess
  have hother : ∀ j, j ≠ i → (procCleanup t i).slot j = t.slot j := fun j hj => set_slot_ne t zeroProcess hj
  constructor
  · intro hall j hj hz hpid
    have hz' : ((procCleanup t i).slot j).state = .zombie := (congrArg Process.state (hother j hj)).trans hz
    obtain ⟨l, hl, hlp⟩ := hall j hz'
    have hli : l ≠ i := by
      rintro rfl
      exact hl (congrArg Process.state hself)
    rw [hother l hli] at hl hlp
    rw [hother j hj, hpid] at hlp
    exact ⟨l, hli, hl, hlp⟩
  · intro hchildren j hz
    have hj : j ≠ i := by
      rintro rfl
      rw [hself] at hz
      cases hz
    rw [hother j hj] at hz ⊢
    obtain ⟨l, hl, hlp⟩ : ∃ l, (l ≠ i ∧ (t.slot l).state ≠ .unused) ∧ (t.slot l).pid = (t.slot j).parentPid := by
      obtain ⟨l, hl, hlp⟩ := h j hz
      by_cases hli : l = i
      · obtain ⟨l', hl', hused, hlp'⟩ := hchildren j hj hz (hli ▸ hlp.symm)
        exact ⟨l', ⟨hl', hused⟩, hlp'.trans (hli ▸ hlp)⟩
      · exact ⟨l, ⟨hli, hl⟩, hlp⟩
    refine ⟨l, ?_⟩
    rw [hother l hl.1]
    exact ⟨hl.2, hlp⟩

theorem step_parented_iff (k : SchedState) (op : FamilyOp) (h : AllParented k) :
    AllParented (familyStep k op).2 ↔ KeepsParents k op := by
  cases op with
  | spawn entry => exact iff_of_true (h.spawned (spawn_spawns k.tasks.procs entry)) trivial
  | exec entry => exact iff_of_true (h.spawned (exec_spawns k.tasks.procs entry)) trivial
  | fork parentEsp => exact iff_of_true (h.spawned (fork_spawns k.tasks.procs parentEsp)) trivial
  | exit code =>
    rcases exit_procs k.tasks code with ⟨hnone, hprocs⟩ | ⟨c, hc, hprocs⟩
    · refine iff_of_true ?_ (fun c hc => ?_)
      · unfold AllParented familyStep
        dsimp only
        rw [hprocs]
        exact h
      · rw [hnone] at hc
        cases hc
    · unfold AllParented familyStep
      dsimp only
      rw [hprocs, exit_parented_iff h c code]
      constructor
      · intro hparent d hd
        cases hc.symm.trans hd
        exact hparent
      · exact fun hparent => hparent c hc
  | wait childPid =>
    unfold AllParented familyStep waitRound
    dsimp only
    cases hw : waitFind k.tasks.procs childPid with
    | none =>
      refine iff_of_true h (fun i hi => ?_)
      rw [hw] at hi
      cases hi
    | some i =>
      dsimp only
      rw [reap_parented_iff h i]
      constructor
      · intro hchildren j hj
        cases hw.symm.trans hj
        exact hchildren
      · exact fun hchildren => hchildren i hw
  | tick regs =>
    refine iff_of_true ?_ trivial
    unfold AllParented familyStep
    dsimp only
    by_cases hexp : Expires k
    · rw [tick_expires regs hexp]
      dsimp only
      rcases switch_cases k.tasks.procs regs with ⟨hsame, -⟩ | ⟨next, -, hne, hrun⟩
      · rw [hsame]
        exact h
      · rw [hrun]
        exact Parented.hand_over h regs hne
    · rw [(tick_early regs hexp).2]
      exact h

theorem boot_parented (tableAddr : UInt32) : AllParented (kmainTasks tableAddr) := by
  have hboot := boot_procs tableAddr
  intro i hi
  by_cases h0 : i = 0
  · rw [h0, hboot.running] at hi
    cases hi
  · rw [hboot.rest i h0] at hi
    cases hi

/-- In a run after boot every zombie has a parent in the table in every state reached exactly
when whoever exits has one and nobody is reaped before a zombie child. -/
theorem zombies_parented_iff (tableAddr : UInt32) (ops : List FamilyOp) :
    Along (After familyStep AllParented) familyStep (kmainTasks tableAddr) ops ↔
      Along KeepsParents familyStep (kmainTasks tableAddr) ops :=
  Along.after_iff (J := fun _ => True) (fun _ _ _ _ _ => trivial) (fun k op _ h => step_parented_iff k op h) trivial
    (boot_parented tableAddr) ops

/-- A program started with `spawn` gets the CPU at the end of a quantum and exits. -/
def spawnedProgram : List FamilyOp :=
  .spawn 0x400000 :: List.replicate schedTicks (.tick ⟨0, 0, 0, 0, 0, 0, 0, 0, 0, 0, 0x1000, 8, 0x202⟩) ++ [.exit 0]

/-- Its parent is pid 0, which no process ever has. -/
theorem spawned_zombie_orphaned :
    let t := (run familyStep (kmainTasks 0) spawnedProgram).2.tasks.procs
    (t.slot 1).state = .zombie ∧ (t.slot 1).parentPid = 0 ∧ ¬ Parented t := by
  decide

end BaSic.Proofs.Parents
