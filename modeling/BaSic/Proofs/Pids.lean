import BaSic.Proofs.TaskTable
import BaSic.Lib.Steps

namespace BaSic.Proofs.Pids
open Kernel Lib TaskTable

inductive PidOp where
  | create (entry : UInt32)
  | fork (parentEsp : UInt32)
  | exec (entry : UInt32)
  | exit (code : Int)
  | wait (childPid : UInt32)
  | tick (regs : Registers)

/-- The pid in the slot a creation has filled. -/
def given (r : Option (Fin procMax) × ProcTable) : Option UInt32 := r.1.map (fun i => (r.2.slot i).pid)

/-- An operation and the pid it gives out, if it creates a process. -/
def pidStep (k : SchedState) : PidOp → Option UInt32 × SchedState
  | .create entry =>
    (given (procCreate k.tasks.procs entry), { k with tasks.procs := (procCreate k.tasks.procs entry).2 })
  | .fork parentEsp =>
    (given (procFork k.tasks.procs parentEsp), { k with tasks.procs := (procFork k.tasks.procs parentEsp).2 })
  | .exec entry =>
    (given ((procCreate k.tasks.procs entry).1, (sysExec k.tasks.procs entry).2),
      { k with tasks.procs := (sysExec k.tasks.procs entry).2 })
  | .exit code => (none, { k with tasks := sysExit k.tasks code })
  | .wait childPid => (none, { k with tasks.procs := (waitRound k.tasks.procs childPid).2 })
  | .tick regs => (none, (schedTick k regs).2)

/-- What a creation that fails returns. -/
def Fails (t : ProcTable) : PidOp → Prop
  | .create entry => (procCreate t entry).1 = none
  | .fork parentEsp => (procFork t parentEsp).1 = none
  | .exec entry => (sysExec t entry).1 = -1
  | _ => False

def IsCreation : PidOp → Prop
  | .create _ | .fork _ | .exec _ => True
  | _ => False

/-- A creation writes at most one slot, an UNUSED one, and with no such slot it fails
and changes nothing. -/
def CleanCreation (k : SchedState) (op : PidOp) : Prop :=
  IsCreation op →
    ((pidStep k op).2.tasks.procs = k.tasks.procs ∨
      ∃ i, (k.tasks.procs.slot i).state = .unused ∧
        ∀ j, j ≠ i → (pidStep k op).2.tasks.procs.slot j = k.tasks.procs.slot j) ∧
    ((∀ i, (k.tasks.procs.slot i).state ≠ .unused) →
      Fails k.tasks.procs op ∧ (pidStep k op).2.tasks.procs = k.tasks.procs)

/-- The pids of the slots in use are pairwise distinct. -/
def DistinctPids (t : ProcTable) : Prop :=
  ∀ i j, (t.slot i).state ≠ .unused → (t.slot j).state ≠ .unused → (t.slot i).pid = (t.slot j).pid → i = j

/-- After `n` pids have been given out, they are 1 to `n`, and no two slots in use have the same. -/
structure Fresh (t : ProcTable) (n : Nat) : Prop where
  next : t.nextPid = UInt32.ofNat (n + 1)
  used : ∀ i, (t.slot i).state ≠ .unused → 1 ≤ (t.slot i).pid.toNat ∧ (t.slot i).pid.toNat ≤ n
  free : ∀ i, (t.slot i).state = .unused → (t.slot i).pid = 0
  current : t.currentPid ≠ 0
  distinct : DistinctPids t

variable {t u : ProcTable} {k : SchedState} {n : Nat} {op : PidOp}

/-- Writing states alone, and freeing slots for good, keeps the pids fresh. -/
theorem Fresh.restate (h : Fresh t n) (hnext : u.nextPid = t.nextPid) (hcur : u.currentPid ≠ 0)
    (hslot : ∀ i, (u.slot i).state = .unused ∧ (u.slot i).pid = 0 ∨
      (u.slot i).state ≠ .unused ∧ (t.slot i).state ≠ .unused ∧ (u.slot i).pid = (t.slot i).pid) :
    Fresh u n := by
  have hold : ∀ i, (u.slot i).state ≠ .unused → (t.slot i).state ≠ .unused ∧ (u.slot i).pid = (t.slot i).pid :=
    fun i hi => ((hslot i).resolve_left (fun hu => hi hu.1)).2
  refine ⟨hnext.trans h.next, fun i hi => ?_, fun i hi => ?_, hcur, fun i j hi hj hpid => ?_⟩
  · obtain ⟨hused, hpid⟩ := hold i hi
    rw [hpid]
    exact h.used i hused
  · exact ((hslot i).resolve_right (fun hu => hu.1 hi)).2
  · obtain ⟨hi, hpi⟩ := hold i hi
    obtain ⟨hj, hpj⟩ := hold j hj
    exact h.distinct i j hi hj (hpi.symm.trans (hpid.trans hpj))

theorem Fresh.keep (h : Fresh t n) (i : Fin procMax) :
    (t.slot i).state = .unused ∧ (t.slot i).pid = 0 ∨
      (t.slot i).state ≠ .unused ∧ (t.slot i).state ≠ .unused ∧ (t.slot i).pid = (t.slot i).pid := by
  by_cases hi : (t.slot i).state = .unused
  · exact Or.inl ⟨hi, h.free i hi⟩
  · exact Or.inr ⟨hi, hi, rfl⟩

theorem Fresh.spawned (h : Fresh t n) (hs : Spawned t u) (hn : n + 1 < 4294967296) : Fresh u (n + 1) := by
  obtain ⟨i, p, hi, hpid, hready, rfl⟩ := hs
  have hnew : p.pid.toNat = n + 1 := by
    rw [hpid, h.next, UInt32.toNat_ofNat']
    exact Nat.mod_eq_of_lt hn
  have hself := set_slot_self t i p
  have hother : ∀ j, j ≠ i → (t.setSlot i p).slot j = t.slot j := fun j hj => set_slot_ne t p hj
  have hbelow : ∀ j, j ≠ i → ((t.setSlot i p).slot j).state ≠ .unused →
      ((t.setSlot i p).slot j).pid.toNat ≤ n := by
    intro j hj hused
    rw [hother j hj] at hused ⊢
    exact (h.used j hused).2
  refine ⟨?_, fun j hj => ?_, fun j hj => ?_, h.current, fun j l hj hl hjl => ?_⟩
  · dsimp only
    rw [h.next, ← UInt32.ofNat_one, ← UInt32.ofNat_add]
  · by_cases hji : j = i
    · subst hji
      dsimp only at hj ⊢
      rw [hself, hnew]
      exact ⟨Nat.le_add_left 1 n, Nat.le_refl _⟩
    · dsimp only at hj ⊢
      rw [hother j hji] at hj ⊢
      exact ⟨(h.used j hj).1, Nat.le_succ_of_le (h.used j hj).2⟩
  · have hji : j ≠ i := by
      rintro rfl
      dsimp only at hj
      rw [hself, hready] at hj
      cases hj
    dsimp only at hj ⊢
    rw [hother j hji] at hj ⊢
    exact h.free j hj
  · -- the new pid lies above all the others
    dsimp only at hj hl hjl
    by_cases hji : j = i
    · by_cases hli : l = i
      · exact hji.trans hli.symm
      · have hle := hbelow l hli hl
        rw [← hjl, hji, hself, hnew] at hle
        omega
    · by_cases hli : l = i
      · have hle := hbelow j hji hj
        rw [hjl, hli, hself, hnew] at hle
        omega
      · rw [hother j hji] at hj hjl
        rw [hother l hli] at hl hjl
        exact h.distinct j l hj hl hjl

/-- A creation gives out the next pid, or fails. -/
theorem Creation.given_next {r : Option (Fin procMax) × ProcTable} (h : Creation t r) :
    r = (none, t) ∨ given r = some t.nextPid ∧ Spawned t r.2 := by
  refine h.imp_right ?_
  rintro ⟨i, p, hi, hpid, hready, rfl⟩
  refine ⟨?_, i, p, hi, hpid, hready, rfl⟩
  rw [← hpid]
  exact congrArg (fun p => some (Process.pid p)) (set_slot_self t i p)

theorem create_given (t : ProcTable) (entry : UInt32) :
    procCreate t entry = (none, t) ∨
      given (procCreate t entry) = some t.nextPid ∧ Spawned t (procCreate t entry).2 :=
  Creation.given_next (create_creation t entry)

theorem fork_given (t : ProcTable) (parentEsp : UInt32) :
    procFork t parentEsp = (none, t) ∨
      given (procFork t parentEsp) = some t.nextPid ∧ Spawned t (procFork t parentEsp).2 :=
  Creation.given_next (fork_creation t parentEsp)

theorem exec_given (t : ProcTable) (entry : UInt32) :
    procCreate t entry = (none, t) ∧ sysExec t entry = (-1, t) ∨
      given ((procCreate t entry).1, (sysExec t entry).2) = some t.nextPid ∧ Spawned t (sysExec t entry).2 := by
  cases hi : firstSlot t (fun p => p.state == .unused) with
  | none => exact Or.inl (exec_none entry hi)
  | some i =>
    refine Or.inr ⟨?_, exec_some entry hi⟩
    unfold given sysExec procCreate
    rw [hi]
    dsimp only [Option.map_some]
    rw [set_slot_self]
    exact congrArg (fun p => some (Process.pid p)) (set_slot_self t i _)

theorem Fresh.exit {m : Tasks} (h : Fresh m.procs n) (code : Int) : Fresh (sysExit m code).procs n := by
  have hone : (1 : UInt32) ≠ 0 := by decide
  rcases exit_procs m code with ⟨-, hprocs⟩ | ⟨c, hc, hprocs⟩
  · rw [hprocs]
    exact h.restate rfl hone h.keep
  · rw [hprocs]
    refine h.restate rfl hone (fun i => ?_)
    unfold procSetCurrent
    dsimp only
    by_cases hi : i = c
    · subst hi
      -- the current slot has a pid other than 0, so it is in use
      have hused : (m.procs.slot i).state ≠ .unused := by
        intro hu
        have hpid := h.free i hu
        rw [current_pid hc] at hpid
        exact h.current hpid
      rw [set_slot_self]
      exact Or.inr ⟨ProcState.noConfusion, hused, rfl⟩
    · rw [set_slot_ne _ _ hi]
      exact h.keep i

theorem Fresh.wait (h : Fresh t n) (childPid : UInt32) : Fresh (waitRound t childPid).2 n := by
  unfold waitRound
  cases waitFind t childPid with
  | none => exact h
  | some i =>
    refine h.restate rfl h.current (fun j => ?_)
    dsimp only [procCleanup]
    by_cases hj : j = i
    · subst hj
      rw [set_slot_self]
      exact Or.inl ⟨rfl, rfl⟩
    · rw [set_slot_ne _ _ hj]
      exact h.keep j

theorem Fresh.tick (h : Fresh k.tasks.procs n) (regs : Registers) :
    Fresh (schedTick k regs).2.tasks.procs n := by
  by_cases hexp : Expires k
  · rw [tick_expires regs hexp]
    dsimp only
    rcases switch_cases k.tasks.procs regs with ⟨hsame, -⟩ | ⟨next, hready, hne, hrun⟩
    · rw [hsame]
      exact h
    · rw [hrun]
      have hused : (k.tasks.procs.slot next).state ≠ .unused := by
        rw [hready]
        exact ProcState.noConfusion
      have hpos : (k.tasks.procs.slot next).pid ≠ 0 := by
        intro hzero
        have hle := (h.used next hused).1
        rw [hzero] at hle
        exact absurd hle (by decide)
      refine h.restate (hand_over_next_pid ..) hpos (fun i => ?_)
      rw [hand_over_pid _ _ hne]
      by_cases hi : i = next
      · subst hi
        rw [hand_over_self _ _ hne]
        exact Or.inr ⟨ProcState.noConfusion, hused, rfl⟩
      · rw [hand_over_state _ _ hi]
        split
        · rename_i hcur
          rw [hcur.2]
          exact Or.inr ⟨ProcState.noConfusion, ProcState.noConfusion, rfl⟩
        · exact h.keep i
  · rw [(tick_early regs hexp).2]
    exact h

/-- An operation gives out the next pid, or none, and keeps the pids fresh. -/
theorem Fresh.step (h : Fresh k.tasks.procs n) (op : PidOp) :
    (pidStep k op).1 = none ∧ Fresh (pidStep k op).2.tasks.procs n ∨
      (pidStep k op).1 = some (UInt32.ofNat (n + 1)) ∧
        (n + 1 < 4294967296 → Fresh (pidStep k op).2.tasks.procs (n + 1)) := by
  cases op with
  | create entry =>
    rcases create_given k.tasks.procs entry with hfail | ⟨hpid, hs⟩
    · exact Or.inl ⟨congrArg given hfail, (congrArg (fun x => Fresh x.2 n) hfail).mpr h⟩
    · exact Or.inr ⟨hpid.trans (congrArg some h.next), h.spawned hs⟩
  | fork parentEsp =>
    rcases fork_given k.tasks.procs parentEsp with hfail | ⟨hpid, hs⟩
    · exact Or.inl ⟨congrArg given hfail, (congrArg (fun x => Fresh x.2 n) hfail).mpr h⟩
    · exact Or.inr ⟨hpid.trans (congrArg some h.next), h.spawned hs⟩
  | exec entry =>
    rcases exec_given k.tasks.procs entry with ⟨hcreate, hfail⟩ | ⟨hpid, hs⟩
    · exact Or.inl ⟨congrArg (fun r : Option (Fin procMax) × ProcTable => given (r.1, (sysExec k.tasks.procs entry).2)) hcreate,
        (congrArg (fun x => Fresh x.2 n) hfail).mpr h⟩
    · exact Or.inr ⟨hpid.trans (congrArg some h.next), h.spawned hs⟩
  | exit code => exact Or.inl ⟨rfl, h.exit code⟩
  | wait childPid => exact Or.inl ⟨rfl, h.wait childPid⟩
  | tick regs => exact Or.inl ⟨rfl, h.tick regs⟩

/-- Over a run the pids given out are the next ones in order. -/
theorem Fresh.run (h : Fresh k.tasks.procs n) (ops : List PidOp)
    (hfew : n + (run pidStep k ops).1.reduceOption.length < 4294967296) :
    Fresh (run pidStep k ops).2.tasks.procs (n + (run pidStep k ops).1.reduceOption.length) ∧
      (run pidStep k ops).1.reduceOption
        = (List.range' (n + 1) (run pidStep k ops).1.reduceOption.length).map UInt32.ofNat := by
  induction ops generalizing k n with
  | nil => exact ⟨h, rfl⟩
  | cons op ops ih =>
    have hrun : run pidStep k (op :: ops)
        = ((pidStep k op).1 :: (run pidStep (pidStep k op).2 ops).1, (run pidStep (pidStep k op).2 ops).2) := rfl
    rw [hrun] at hfew ⊢
    rcases h.step op with ⟨hr, hstep⟩ | ⟨hr, hstep⟩
    · rw [hr] at hfew ⊢
      simp only [List.reduceOption_cons_of_none] at hfew ⊢
      exact ih hstep hfew
    · rw [hr] at hfew ⊢
      simp only [List.reduceOption_cons_of_some, List.length_cons] at hfew ⊢
      obtain ⟨hend, hpids⟩ := ih (hstep (by omega)) (by omega)
      refine ⟨?_, ?_⟩
      · rw [Nat.add_comm _ 1, ← Nat.add_assoc]
        exact hend
      · rw [List.range'_succ, List.map_cons, ← hpids]

theorem boot_fresh (tableAddr : UInt32) : Fresh (kmainTasks tableAddr).tasks.procs 1 := by
  have hboot := boot_procs tableAddr
  have hused : ∀ i, ((kmainTasks tableAddr).tasks.procs.slot i).state ≠ .unused → i = 0 := by
    intro i hi
    by_contra h0
    rw [hboot.rest i h0] at hi
    exact hi rfl
  refine ⟨hboot.nextPid, fun i hi => ?_, fun i hi => ?_, ?_, fun i j hi hj _ => (hused i hi).trans (hused j hj).symm⟩
  · rw [hused i hi, hboot.pid]
    decide
  · by_cases h0 : i = 0
    · rw [h0, hboot.running] at hi
      cases hi
    · rw [hboot.rest i h0]
      rfl
  · rw [hboot.currentPid]
    decide

theorem spawned_clean (h : u = t ∨ Spawned t u) :
    u = t ∨ ∃ i, (t.slot i).state = .unused ∧ ∀ j, j ≠ i → u.slot j = t.slot j := by
  rcases h with h | ⟨i, p, hi, -, -, rfl⟩
  · exact Or.inl h
  · exact Or.inr ⟨i, first_in_state hi, fun j hj => set_slot_ne t p hj⟩

/-- Whatever the table, a creation writes one UNUSED slot at most. -/
theorem creation_clean (k : SchedState) (op : PidOp) : CleanCreation k op := by
  intro hop
  cases op with
  | create entry =>
    refine ⟨spawned_clean (create_spawns k.tasks.procs entry), fun hfull => ?_⟩
    obtain ⟨hcreate, -⟩ := exec_none entry (no_unused hfull)
    exact ⟨congrArg Prod.fst hcreate, congrArg Prod.snd hcreate⟩
  | fork parentEsp =>
    refine ⟨spawned_clean (fork_spawns k.tasks.procs parentEsp), fun hfull => ?_⟩
    have hfork := fork_none parentEsp (no_unused hfull)
    exact ⟨congrArg Prod.fst hfork, congrArg Prod.snd hfork⟩
  | exec entry =>
    refine ⟨spawned_clean (exec_spawns k.tasks.procs entry), fun hfull => ?_⟩
    obtain ⟨-, hexec⟩ := exec_none entry (no_unused hfull)
    exact ⟨congrArg Prod.fst hexec, congrArg Prod.snd hexec⟩
  | exit code => exact hop.elim
  | wait childPid => exact hop.elim
  | tick regs => exact hop.elim

theorem of_nat_inj {a b : Nat} (ha : a < 4294967296) (hb : b < 4294967296)
    (h : UInt32.ofNat a = UInt32.ofNat b) : a = b := by
  have hab := congrArg UInt32.toNat h
  rw [UInt32.toNat_ofNat', UInt32.toNat_ofNat'] at hab
  omega

/-- In every run after boot with fewer than 2^32 - 1 creations no pid is given out twice, the
slots in use have distinct pids, and creations write UNUSED slots only. -/
theorem pids_stay_distinct (tableAddr : UInt32) (ops : List PidOp)
    (hfew : (run pidStep (kmainTasks tableAddr) ops).1.reduceOption.length < 4294967295) :
    (1 :: (run pidStep (kmainTasks tableAddr) ops).1.reduceOption).Nodup ∧
      DistinctPids (run pidStep (kmainTasks tableAddr) ops).2.tasks.procs ∧
        Along CleanCreation pidStep (kmainTasks tableAddr) ops := by
  obtain ⟨hend, hpids⟩ := (boot_fresh tableAddr).run ops (by omega)
  refine ⟨?_, hend.distinct, ?_⟩
  · generalize (run pidStep (kmainTasks tableAddr) ops).1.reduceOption.length = len at hfew hpids
    have hall : 1 :: (run pidStep (kmainTasks tableAddr) ops).1.reduceOption
        = (List.range' 1 (len + 1)).map UInt32.ofNat := by
      rw [hpids, List.range'_succ, List.map_cons]
      rfl
    rw [hall]
    refine List.Nodup.map_on (fun a ha b hb hab => ?_) List.nodup_range'
    rw [List.mem_range'_1] at ha hb
    exact of_nat_inj (by omega) (by omega) hab
  · exact Along.of_forall creation_clean _ ops

/-- A program is started, forks, and exits; its child is reaped and the slot used again. -/
theorem pids_of_reused_slot :
    let ops := [.exec 0x400000, .fork 0x124000, .exit 0, .wait 1, .create 0x500000]
    (1 :: (run pidStep (kmainTasks 0x120000) ops).1.reduceOption).Nodup ∧
      DistinctPids (run pidStep (kmainTasks 0x120000) ops).2.tasks.procs ∧
        Along CleanCreation pidStep (kmainTasks 0x120000) ops :=
  pids_stay_distinct 0x120000 _ (by decide)

end BaSic.Proofs.Pids
