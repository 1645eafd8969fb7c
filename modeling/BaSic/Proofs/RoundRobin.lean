import BaSic.Lib.Circle
import BaSic.Proofs.Pids

namespace BaSic.Proofs.RoundRobin
open Kernel Lib Circle TaskTable

/-- How far slot `p` is ahead of the current one in the circle. The current slot itself is
a whole circle ahead; without one, slot 0 is next. -/
def ahead (cur : Option (Fin procMax)) (p : Fin procMax) : Nat :=
  match cur with
  | some c => if p = c then procMax else (p - c).val
  | none => p.val + 1

/-- Slot `n` is READY, and no READY slot comes before it. -/
def FirstReady (t : ProcTable) (cur : Option (Fin procMax)) (n : Fin procMax) : Prop :=
  (t.slot n).state = .ready ∧ ∀ j, (t.slot j).state = .ready → ahead cur n ≤ ahead cur j

/-- Every READY process is the one its pid stands for. -/
def Named (t : ProcTable) : Prop :=
  ∀ i, (t.slot i).state = .ready → firstSlot t (fun p => p.pid == (t.slot i).pid) = some i

/-- A timer tick, or whatever else changes the kernel. -/
inductive RunOp where
  | tick (regs : Registers)
  | rest (k : SchedState)

/-- The process switched to, if any, and the state after it. -/
def runStep (k : SchedState) : RunOp → Option (Fin procMax) × SchedState
  | .tick regs => (resumed k, (schedTick k regs).2)
  | .rest k' => (none, k')

/-- Only ticks change the current process, `p` stays READY, and it is not chosen. -/
def Passing (p : Fin procMax) (k : SchedState) : RunOp → Prop
  | .tick _ => resumed k ≠ some p
  | .rest k' => procCurrent k'.tasks.procs = procCurrent k.tasks.procs ∧ Named k'.tasks.procs ∧
      (k'.tasks.procs.slot p).state = .ready

/-- The switches of a run. -/
def switches (trace : List (RunOp × Option (Fin procMax))) : Nat := trace.countP (fun x => x.2.isSome)

variable {t : ProcTable} {k k' : SchedState} {cur : Option (Fin procMax)} {c p q i n : Fin procMax}

/-- Where `pick_next` starts. -/
def start : Option (Fin procMax) → Fin procMax
  | some c => c + 1
  | none => 0

theorem ahead_eq (cur : Option (Fin procMax)) (p : Fin procMax) : ahead cur p = around (start cur) p + 1 := by
  cases cur with
  | none =>
    revert p
    decide
  | some c =>
    revert c p
    decide

theorem ahead_pos (cur : Option (Fin procMax)) (p : Fin procMax) : 1 ≤ ahead cur p := by
  rw [ahead_eq]
  omega

theorem ahead_le (cur : Option (Fin procMax)) (p : Fin procMax) : ahead cur p ≤ 16 := by
  rw [ahead_eq]
  exact (p - start cur).isLt

/-- `pick_next` returns the first READY slot after the current one. -/
theorem pick_next_first (h : (t.slot p).state = .ready) (cur : Option (Fin procMax)) :
    ∃ n, pickNext t cur = some n ∧ FirstReady t cur n := by
  have hsome : ((circleFrom (start cur)).find? (fun i => (t.slot i).state == .ready)).isSome :=
    List.find?_isSome.mpr ⟨p, mem_circle_from _ p, beq_iff_eq.mpr h⟩
  obtain ⟨n, hn⟩ := Option.isSome_iff_exists.mp hsome
  obtain ⟨hready, hleast⟩ := find_circle hn
  refine ⟨n, ?_, beq_iff_eq.mp hready, fun j hj => ?_⟩
  · unfold circleFrom at hn
    unfold pickNext
    cases cur with
    | none =>
      simp only [start] at hn
      simp only [hn]
    | some c =>
      simp only [start] at hn
      simp only [hn]
  · have hle := hleast j (beq_iff_eq.mpr hj)
    rw [ahead_eq, ahead_eq]
    omega

/-- Going on from a slot before `p`, one is nearer to `p`. -/
theorem ahead_after (h : ahead cur n < ahead cur p) : ahead cur p = ahead cur n + ahead (some n) p := by
  rw [ahead_eq, ahead_eq] at h
  have hafter := around_after (s := start cur) (a := n) (b := p) (by omega)
  rw [ahead_eq, ahead_eq, ahead_eq, hafter]
  simp only [start]
  omega

theorem ahead_ne (hne : n ≠ p) : ahead cur n ≠ ahead cur p := by
  rw [ahead_eq, ahead_eq]
  intro he
  exact hne (around_inj (Nat.succ.inj he))

/-- A process switched to is the first READY one, and the current one afterwards. -/
theorem resumed_first (h : resumed k = some n) : FirstReady k.tasks.procs (procCurrent k.tasks.procs) n := by
  unfold resumed at h
  split at h
  · obtain ⟨hn, hne⟩ := Option.filter_eq_some_iff.mp h
    have hready := pick_next_ready hn (bne_iff_ne.mp hne)
    obtain ⟨m, hpick, hfirst⟩ := pick_next_first hready (procCurrent k.tasks.procs)
    rw [hpick, Option.some.injEq] at hn
    exact hn ▸ hfirst
  · cases h

theorem handed_current (hn : Named t) (regs : Registers) (hready : (t.slot n).state = .ready)
    (hne : some n ≠ procCurrent t) : procCurrent (handOver t regs n) = some n := by
  rw [← hn n hready]
  refine first_slot_congr (fun i => ?_)
  rw [hand_over_pid t regs hne]
  rfl

theorem handed_named (hn : Named t) (regs : Registers) (hne : some n ≠ procCurrent t) :
    Named (handOver t regs n) := by
  intro i hi
  have hfind : firstSlot t (fun p => p.pid == (t.slot i).pid) = some i := by
    by_cases hin : i = n
    · rw [hin, hand_over_self t regs hne] at hi
      cases hi
    · rw [hand_over_state t regs hin] at hi
      split at hi
      · -- the process that lost the CPU is named by `current_pid`
        rename_i hcur
        rw [current_pid hcur.1.symm]
        exact hcur.1.symm
      · exact hn i hi
  rw [← hfind, hand_over_pid t regs hne]
  refine first_slot_congr (fun j => ?_)
  rw [hand_over_pid t regs hne]

/-- What a run that passes `p` by keeps. -/
structure Waiting (p : Fin procMax) (k : SchedState) : Prop where
  named : Named k.tasks.procs
  ready : (k.tasks.procs.slot p).state = .ready

/-- A tick brings the current slot nearer to `p` if it switches at all. -/
theorem Waiting.tick (h : Waiting p k) (regs : Registers) (hp : resumed k ≠ some p) :
    Waiting p (schedTick k regs).2 ∧
      ((resumed k = none ∧ procCurrent (schedTick k regs).2.tasks.procs = procCurrent k.tasks.procs) ∨
        (∃ n, resumed k = some n ∧ procCurrent (schedTick k regs).2.tasks.procs = some n ∧
          ahead (some n) p < ahead (procCurrent k.tasks.procs) p)) := by
  cases hr : resumed k with
  | none =>
    have hsame := tick_stays regs hr
    refine ⟨⟨?_, ?_⟩, Or.inl ⟨rfl, ?_⟩⟩
    · rw [hsame]
      exact h.named
    · rw [hsame]
      exact h.ready
    · rw [hsame]
  | some n =>
    obtain ⟨-, hne, hready, -, hprocs⟩ := tick_resumes regs hr
    have hnp : n ≠ p := by
      rintro rfl
      exact hp hr
    have hlt : ahead (procCurrent k.tasks.procs) n < ahead (procCurrent k.tasks.procs) p :=
      Nat.lt_of_le_of_ne ((resumed_first hr).2 p h.ready) (ahead_ne hnp)
    have hnear := ahead_after hlt
    have hpos := ahead_pos (procCurrent k.tasks.procs) n
    rw [hprocs]
    refine ⟨⟨?_, ?_⟩, Or.inr ⟨n, rfl, handed_current h.named regs hready hne, by omega⟩⟩
    · rw [hprocs]
      exact handed_named h.named regs hne
    · rw [hprocs, hand_over_state _ _ hnp.symm, h.ready]
      simp

theorem Waiting.step (h : Waiting p k) {op : RunOp} (hop : Passing p k op) :
    Waiting p (runStep k op).2 ∧
      switches [(op, (runStep k op).1)] + ahead (procCurrent (runStep k op).2.tasks.procs) p ≤
        ahead (procCurrent k.tasks.procs) p := by
  cases op with
  | tick regs =>
    obtain ⟨hw, ⟨hr, hcur⟩ | ⟨n, hr, hcur, hlt⟩⟩ := h.tick regs hop
    · refine ⟨hw, ?_⟩
      simp [runStep, switches, hr, hcur]
    · refine ⟨hw, ?_⟩
      simp only [runStep, switches, hr, hcur, List.countP_singleton, Option.isSome_some, ↓reduceIte]
      omega
  | rest k' =>
    obtain ⟨hcur, hnamed, hready⟩ := hop
    refine ⟨⟨hnamed, hready⟩, ?_⟩
    simp [runStep, switches, hcur]

/-- Over a run that passes `p` by, every switch takes the current slot nearer to it. -/
theorem Waiting.run (h : Waiting p k) {trace : List (RunOp × Option (Fin procMax))}
    (hrun : Steps (Guarded (Passing p) runStep) k trace k') : Waiting p k' ∧
      switches trace + ahead (procCurrent k'.tasks.procs) p ≤ ahead (procCurrent k.tasks.procs) p := by
  induction hrun with
  | nil k => exact ⟨h, by simp [switches]⟩
  | @cons k₁ k₂ k₃ op r trace head tail ih =>
    obtain ⟨hop, hstep⟩ := head
    obtain ⟨hw, hle⟩ := h.step hop
    rw [hstep] at hw hle
    obtain ⟨hend, hrest⟩ := ih hw
    refine ⟨hend, ?_⟩
    have hcount : switches ((op, r) :: trace) = switches [(op, r)] + switches trace := by
      unfold switches
      rw [← List.countP_append]
      rfl
    rw [hcount]
    simp only at hle
    omega

/-- In the tables that come about after boot every process is the one its pid stands for. -/
theorem named_of_fresh {m : Nat} (h : Pids.Fresh t m) : Named t := by
  intro i hi
  have hused : (t.slot i).state ≠ .unused := by
    rw [hi]
    exact ProcState.noConfusion
  have hpos : (t.slot i).pid ≠ 0 := by
    intro hz
    have hle := (h.used i hused).1
    rw [hz] at hle
    exact absurd hle (by decide)
  apply first_slot_unique
  · exact beq_self_eq_true _
  · intro j hj
    have hpid : (t.slot j).pid = (t.slot i).pid := beq_iff_eq.mp hj
    apply h.distinct j i _ hused hpid
    intro hu
    exact hpos (hpid.symm.trans (h.free j hu))

theorem pick_next_none (h : ∀ p, (t.slot p).state ≠ .ready) (cur : Option (Fin procMax)) :
    pickNext t cur = cur := by
  unfold pickNext
  simp only
  split
  · rename_i i hi
    have hready := List.find?_some hi
    exact absurd (beq_iff_eq.mp hready) (h i)
  · rfl

/-- `pick_next` chooses the first READY slot after the current one, and the current one only
for want of another; so in a run in which only ticks change the current process every switch
brings the current slot nearer to a process that stays READY, and less than sixteen of them
pass it by. -/
theorem round_robin :
    (∀ (t : ProcTable) (cur : Option (Fin procMax)),
      (∀ p, (t.slot p).state = .ready → ∃ n, pickNext t cur = some n ∧ FirstReady t cur n) ∧
        ((∀ p, (t.slot p).state ≠ .ready) → pickNext t cur = cur) ∧
          (pickNext t cur = cur → ∀ j, some j ≠ cur → (t.slot j).state ≠ .ready)) ∧
      ∀ (k k' : SchedState) (p : Fin procMax) (trace : List (RunOp × Option (Fin procMax))), Waiting p k →
        Steps (Guarded (Passing p) runStep) k trace k' →
          (∀ regs n, resumed k' = some n → n ≠ p →
            procCurrent (schedTick k' regs).2.tasks.procs = some n ∧
              ahead (some n) p < ahead (procCurrent k'.tasks.procs) p) ∧
            switches trace + ahead (procCurrent k'.tasks.procs) p ≤ ahead (procCurrent k.tasks.procs) p ∧
              switches trace < 16 := by
  refine ⟨fun t cur => ⟨?_, ?_, ?_⟩, fun k k' p trace h hrun => ?_⟩
  · exact fun p hp => pick_next_first hp cur
  · exact fun hnone => pick_next_none hnone cur
  · exact fun hkeep j hj => pick_next_keeps hkeep hj
  · obtain ⟨hw, hle⟩ := h.run hrun
    have hpos := ahead_pos (procCurrent k'.tasks.procs) p
    have htop := ahead_le (procCurrent k.tasks.procs) p
    refine ⟨fun regs n hr hne => ?_, hle, by omega⟩
    have hpass : resumed k' ≠ some p := by
      rw [hr]
      exact fun he => hne (Option.some.inj he)
    obtain ⟨-, ⟨hnone, -⟩ | ⟨m, hm, hcur, hlt⟩⟩ := hw.tick regs hpass
    · rw [hr] at hnone
      cases hnone
    · rw [hr] at hm
      cases hm
      exact ⟨hcur, hlt⟩

/-- The shell and two programs, at the end of a quantum. -/
def threeTasks : SchedState :=
  let k := kmainTasks 0x120000
  { k with tasks.procs := (sysExec (sysExec k.tasks.procs 0x400000).2 0x500000).2, tickCounter := 9 }

/-- The first program is chosen before the second, which is next then. -/
theorem round_robin_three :
    let regs : Registers := ⟨0, 0, 0, 0, 0, 0, 0, 0, 32, 0, 0x1000, 8, 0x202⟩
    pickNext threeTasks.tasks.procs (some 0) = some 1 ∧
      switches [(.tick regs, some 1)] + ahead (procCurrent (schedTick threeTasks regs).2.tasks.procs) 2 ≤
        ahead (procCurrent threeTasks.tasks.procs) 2 := by
  intro regs
  have hfresh := ((Pids.boot_fresh 0x120000).run [.exec 0x400000, .exec 0x500000] (by decide +kernel)).1
  have hw : Waiting 2 threeTasks := ⟨named_of_fresh hfresh, by decide⟩
  have hrun : Steps (Guarded (Passing 2) runStep) threeTasks [(.tick regs, some 1)] (schedTick threeTasks regs).2 := by
    refine .cons ⟨?_, ?_⟩ (.nil _)
    · exact show resumed threeTasks ≠ some 2 by decide
    · exact Prod.ext (show resumed threeTasks = some 1 by decide) rfl
  exact ⟨by decide +kernel, (round_robin.2 _ _ 2 _ hw hrun).2.1⟩

end BaSic.Proofs.RoundRobin
