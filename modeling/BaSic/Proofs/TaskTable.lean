import BaSic.Kernel.Sched

namespace BaSic.Proofs.TaskTable
open Kernel

variable {t : ProcTable} {i j c : Fin procMax} {p : Process} {st : ProcState} {cur : Option (Fin procMax)} {f : Process → Bool}

@[simp] theorem set_slot_self (t : ProcTable) (i : Fin procMax) (p : Process) :
    (t.setSlot i p).slot i = p := Function.update_self ..

theorem set_slot_ne (t : ProcTable) (p : Process) (h : j ≠ i) : (t.setSlot i p).slot j = t.slot j :=
  Function.update_of_ne h ..

theorem set_state_self (t : ProcTable) (i : Fin procMax) (st : ProcState) :
    (t.setState i st).slot i = { t.slot i with state := st } := set_slot_self ..

theorem set_state_ne (t : ProcTable) (st : ProcState) (h : j ≠ i) :
    (t.setState i st).slot j = t.slot j := set_slot_ne t _ h

theorem first_slot_some (h : firstSlot t f = some i) : f (t.slot i) = true := by
  have hp := List.find?_some h
  exact hp

theorem first_slot_none (h : firstSlot t f = none) (i : Fin procMax) : f (t.slot i) = false := by
  have hp := List.find?_eq_none.mp h i (List.mem_finRange i)
  simpa using hp

theorem first_in_state (h : firstSlot t (fun p => p.state == st) = some i) :
    (t.slot i).state = st := by
  have hp := first_slot_some h
  exact beq_iff_eq.mp hp

theorem first_slot_unique (h : f (t.slot i) = true) (hone : ∀ j, f (t.slot j) = true → j = i) :
    firstSlot t f = some i := by
  cases hj : firstSlot t f with
  | none =>
    have hno := first_slot_none hj i
    rw [h] at hno
    cases hno
  | some j => exact congrArg some (hone j (first_slot_some hj))

/-- No slot before the one found will do. -/
theorem first_slot_least (h : firstSlot t f = some i) (hj : j < i) : f (t.slot j) = false := by
  obtain ⟨-, n, hn, hi, hbefore⟩ := List.find?_eq_some_iff_getElem.mp h
  have hni : n = i.val := by
    rw [List.getElem_finRange] at hi
    exact congrArg Fin.val hi
  have hlt : j.val < n := by
    rw [hni]
    exact hj
  have hno := hbefore j.val hlt
  rw [List.getElem_finRange] at hno
  simpa using hno

/-- Looking for a slot only depends on what is asked of each slot. -/
theorem first_slot_congr {u : ProcTable} {g : Process → Bool} (h : ∀ i, f (t.slot i) = g (u.slot i)) :
    firstSlot t f = firstSlot u g := by
  unfold firstSlot
  congr 1
  funext i
  exact h i

/-- The current process stays the current one while no pid changes. -/
theorem current_congr {u : ProcTable} (hpid : ∀ i, (u.slot i).pid = (t.slot i).pid)
    (hcur : u.currentPid = t.currentPid) : procCurrent u = procCurrent t := by
  unfold procCurrent
  refine first_slot_congr (fun i => ?_)
  rw [hpid, hcur]

theorem current_set_slot (h : p.pid = (t.slot i).pid) : procCurrent (t.setSlot i p) = procCurrent t := by
  refine current_congr (fun j => ?_) rfl
  by_cases hj : j = i
  · subst hj
    rw [set_slot_self, h]
  · rw [set_slot_ne t p hj]

theorem current_set_state (t : ProcTable) (i : Fin procMax) (st : ProcState) :
    procCurrent (t.setState i st) = procCurrent t := current_set_slot rfl

theorem current_pid (h : procCurrent t = some c) : (t.slot c).pid = t.currentPid := by
  have hp := first_slot_some h
  exact beq_iff_eq.mp hp

/-- A new READY process, with the next pid, in the first unused slot. -/
def Spawned (t : ProcTable) (u : ProcTable) : Prop :=
  ∃ i p, firstSlot t (fun p => p.state == .unused) = some i ∧ p.pid = t.nextPid ∧ p.state = .ready ∧
    u = { t.setSlot i p with nextPid := t.nextPid + 1 }

/-- What a creation comes to: it fails, or the new process is in the slot it returns. -/
def Creation (t : ProcTable) (r : Option (Fin procMax) × ProcTable) : Prop :=
  r = (none, t) ∨ ∃ i p, firstSlot t (fun p => p.state == .unused) = some i ∧ p.pid = t.nextPid ∧
    p.state = .ready ∧ r = (some i, { t.setSlot i p with nextPid := t.nextPid + 1 })

theorem create_creation (t : ProcTable) (entry : UInt32) : Creation t (procCreate t entry) := by
  unfold procCreate
  cases hi : firstSlot t (fun p => p.state == .unused) with
  | none => exact Or.inl rfl
  | some i => exact Or.inr ⟨i, _, hi, rfl, rfl, rfl⟩

theorem fork_creation (t : ProcTable) (parentEsp : UInt32) : Creation t (procFork t parentEsp) := by
  unfold procFork
  cases procCurrent t with
  | none => exact Or.inl rfl
  | some c =>
    cases hi : firstSlot t (fun p => p.state == .unused) with
    | none => exact Or.inl rfl
    | some i => exact Or.inr ⟨i, _, hi, rfl, rfl, rfl⟩

theorem Creation.spawned {r : Option (Fin procMax) × ProcTable} (h : Creation t r) : r.2 = t ∨ Spawned t r.2 := by
  rcases h with rfl | ⟨i, p, hi, hpid, hready, rfl⟩
  · exact Or.inl rfl
  · exact Or.inr ⟨i, p, hi, hpid, hready, rfl⟩

theorem create_spawns (t : ProcTable) (entry : UInt32) :
    (procCreate t entry).2 = t ∨ Spawned t (procCreate t entry).2 := (create_creation t entry).spawned

theorem fork_spawns (t : ProcTable) (parentEsp : UInt32) :
    (procFork t parentEsp).2 = t ∨ Spawned t (procFork t parentEsp).2 := (fork_creation t parentEsp).spawned

theorem no_unused (h : ∀ i, (t.slot i).state ≠ .unused) :
    firstSlot t (fun p => p.state == .unused) = none := by
  cases hi : firstSlot t (fun p => p.state == .unused) with
  | none => rfl
  | some i => exact absurd (first_in_state hi) (h i)

theorem fork_none (parentEsp : UInt32) (h : firstSlot t (fun p => p.state == .unused) = none) :
    procFork t parentEsp = (none, t) := by
  unfold procFork
  cases procCurrent t with
  | none => rfl
  | some c =>
    dsimp only
    rw [h]

theorem exec_none (entry : UInt32) (h : firstSlot t (fun p => p.state == .unused) = none) :
    procCreate t entry = (none, t) ∧ sysExec t entry = (-1, t) := by
  have hcreate : procCreate t entry = (none, t) := by
    unfold procCreate
    rw [h]
  refine ⟨hcreate, ?_⟩
  unfold sysExec
  rw [hcreate]

theorem create_some (entry : UInt32) (hi : firstSlot t (fun p => p.state == .unused) = some i) :
    ∃ p : Process, p.pid = t.nextPid ∧ p.state = .ready ∧
      procCreate t entry = (some i, { t.setSlot i p with nextPid := t.nextPid + 1 }) := by
  unfold procCreate
  rw [hi]
  exact ⟨_, rfl, rfl, rfl⟩

/-- `sys_exec` writes the slot of the process it has created once more. -/
theorem exec_some (entry : UInt32) (hi : firstSlot t (fun p => p.state == .unused) = some i) :
    Spawned t (sysExec t entry).2 := by
  obtain ⟨p, hpid, -, hcreate⟩ := create_some entry hi
  refine ⟨i, { p with parentPid := t.currentPid, state := .ready }, hi, hpid, rfl, ?_⟩
  unfold sysExec
  rw [hcreate]
  unfold ProcTable.setSlot
  dsimp only
  rw [Function.update_self, Function.update_idem]

theorem spawn_spawns (t : ProcTable) (entry : UInt32) : cmdSpawn t entry = t ∨ Spawned t (cmdSpawn t entry) := by
  cases hi : firstSlot t (fun p => p.state == .unused) with
  | none =>
    unfold cmdSpawn
    rw [(exec_none entry hi).1]
    exact Or.inl rfl
  | some i =>
    obtain ⟨p, hpid, -, hcreate⟩ := create_some entry hi
    refine Or.inr ⟨i, { p with state := .ready }, hi, hpid, rfl, ?_⟩
    unfold cmdSpawn
    rw [hcreate]
    unfold ProcTable.setState ProcTable.setSlot
    dsimp only
    rw [Function.update_self, Function.update_idem]

theorem exec_spawns (t : ProcTable) (entry : UInt32) :
    (sysExec t entry).2 = t ∨ Spawned t (sysExec t entry).2 := by
  cases hi : firstSlot t (fun p => p.state == .unused) with
  | none => exact Or.inl (congrArg Prod.snd (exec_none entry hi).2)
  | some i => exact Or.inr (exec_some entry hi)

theorem sys_fork_procs (t : ProcTable) (curEsp : UInt32) : (sysFork t curEsp).2 = (procFork t curEsp).2 := by
  unfold sysFork
  cases procFork t curEsp with
  | mk r u =>
    cases r with
    | none => rfl
    | some i => rfl

/-- Whoever is current when `sys_exit` runs becomes a zombie, if there is anyone. -/
theorem exit_procs (m : Tasks) (code : Int) :
    procCurrent m.procs = none ∧ (sysExit m code).procs = procSetCurrent m.procs 1 ∨
      ∃ c, procCurrent m.procs = some c ∧ (sysExit m code).procs =
        procSetCurrent (m.procs.setSlot c { m.procs.slot c with exitCode := code, state := .zombie }) 1 := by
  unfold sysExit
  cases procCurrent m.procs with
  | none => exact Or.inl ⟨rfl, rfl⟩
  | some c => exact Or.inr ⟨c, rfl, rfl⟩

/-- The shell in slot 0, and nothing in the others. -/
structure Booted (t : ProcTable) : Prop where
  pid : (t.slot 0).pid = 1
  parent : (t.slot 0).parentPid = 0
  running : (t.slot 0).state = .running
  rest : ∀ i, i ≠ 0 → t.slot i = zeroProcess
  nextPid : t.nextPid = 2
  currentPid : t.currentPid = 1

/-- After boot the shell is RUNNING and current, and nobody else is there. -/
theorem boot_procs (tableAddr : UInt32) : Booted (kmainTasks tableAddr).tasks.procs := by
  have hfirst : firstSlot (procInit tableAddr) (fun p => p.state == .unused) = some 0 := rfl
  unfold kmainTasks procCreate
  dsimp only [schedInit, schedStart]
  rw [hfirst]
  dsimp only [ProcTable.setState, ProcTable.setSlot, procSetCurrent, procInit]
  rw [Function.update_idem, Function.update_self]
  exact ⟨rfl, rfl, rfl, fun i hi => Function.update_of_ne hi _ (fun _ => zeroProcess), rfl, rfl⟩

/-- The slots in the order `pick_next` tries them, from `start` on in a circle. -/
def circle (start : Fin procMax) : List (Fin procMax) := (List.finRange procMax).map (fun i => start + i)

theorem mem_circle (start i : Fin procMax) : i ∈ circle start :=
  List.mem_map.mpr ⟨i - start, List.mem_finRange _, add_sub_cancel start i⟩

/-- Started behind `c`, the circle ends with `c` after all the others. -/
theorem circle_ends (c : Fin procMax) :
    circle (c + 1) = (circle (c + 1)).dropLast ++ [c] ∧ c ∉ (circle (c + 1)).dropLast ∧
      ∀ j, j ≠ c → j ∈ (circle (c + 1)).dropLast := by
  revert c
  decide

theorem pick_next_ready (h : pickNext t cur = some i) (hne : some i ≠ cur) : (t.slot i).state = .ready := by
  unfold pickNext at h
  dsimp only at h
  split at h
  · rename_i j hj
    cases h
    have hready := List.find?_some hj
    exact beq_iff_eq.mp hready
  · exact absurd h.symm hne

/-- `pick_next` keeps the current slot only when no other one is READY. -/
theorem pick_next_keeps (h : pickNext t cur = cur) (hj : some j ≠ cur) : (t.slot j).state ≠ .ready := by
  intro hready
  cases cur with
  | none =>
    have hfind : (circle 0).find? (fun i => (t.slot i).state == .ready) = none := by
      unfold pickNext at h
      dsimp only at h
      split at h
      · cases h
      · assumption
    exact List.find?_eq_none.mp hfind j (mem_circle 0 j) (beq_iff_eq.mpr hready)
  | some c =>
    obtain ⟨hends, hc, hothers⟩ := circle_ends c
    have hmem : j ∈ (circle (c + 1)).dropLast := hothers j (fun hjc => hj (congrArg some hjc))
    have hsome : ((circle (c + 1)).dropLast.find? (fun i => (t.slot i).state == .ready)).isSome :=
      List.find?_isSome.mpr ⟨j, hmem, beq_iff_eq.mpr hready⟩
    obtain ⟨i, hi⟩ := Option.isSome_iff_exists.mp hsome
    have hpick : pickNext t (some c) = some i := by
      have hfind : (circle (c + 1)).find? (fun i => (t.slot i).state == .ready) = some i := by
        rw [hends, List.find?_append, hi]
        rfl
      unfold pickNext
      unfold circle at hfind
      dsimp only
      rw [hfind]
    have hic : i = c := Option.some.inj (hpick.symm.trans h)
    subst hic
    exact hc (List.mem_of_find?_eq_some hi)

/-- Saving the current process writes no other slot. -/
theorem save_slot_ne (t : ProcTable) (regs : Registers) (h : some j ≠ cur) :
    (saveCurrent t cur regs).slot j = t.slot j := by
  unfold saveCurrent
  cases cur with
  | none => rfl
  | some c =>
    have hj : j ≠ c := fun hj => h (congrArg some hj)
    dsimp only
    split
    · exact set_slot_ne t _ hj
    · rfl

theorem save_slot_self (t : ProcTable) (c : Fin procMax) (regs : Registers) :
    (saveCurrent t (some c) regs).slot c = if (t.slot c).state = .running then
      { t.slot c with ctx := savedContext regs, state := .ready } else t.slot c := by
  unfold saveCurrent
  dsimp only
  split
  · exact set_slot_self ..
  · rfl

/-- Saving changes the state of a process and its context alone. -/
theorem save_kept {α : Type} (f : Process → α) (hf : ∀ p ctx state, f { p with ctx := ctx, state := state } = f p)
    (t : ProcTable) (cur : Option (Fin procMax)) (regs : Registers) (i : Fin procMax) :
    f ((saveCurrent t cur regs).slot i) = f (t.slot i) := by
  by_cases hi : some i = cur
  · subst hi
    rw [save_slot_self]
    split
    · exact hf _ _ _
    · rfl
  · rw [save_slot_ne t regs hi]

theorem save_pid (t : ProcTable) (cur : Option (Fin procMax)) (regs : Registers) (i : Fin procMax) :
    ((saveCurrent t cur regs).slot i).pid = (t.slot i).pid := save_kept Process.pid (fun _ _ _ => rfl) t cur regs i

theorem save_parent (t : ProcTable) (cur : Option (Fin procMax)) (regs : Registers) (i : Fin procMax) :
    ((saveCurrent t cur regs).slot i).parentPid = (t.slot i).parentPid :=
  save_kept Process.parentPid (fun _ _ _ => rfl) t cur regs i

theorem save_state (t : ProcTable) (cur : Option (Fin procMax)) (regs : Registers) (i : Fin procMax) :
    ((saveCurrent t cur regs).slot i).state =
      if some i = cur ∧ (t.slot i).state = .running then .ready else (t.slot i).state := by
  by_cases hi : some i = cur
  · subst hi
    rw [save_slot_self]
    by_cases hrun : (t.slot i).state = .running
    · rw [if_pos hrun, if_pos ⟨rfl, hrun⟩]
    · rw [if_neg hrun, if_neg (fun h => hrun h.2)]
  · rw [save_slot_ne t regs hi, if_neg (fun h => hi h.1)]

/-- The table once the CPU has been handed from the current process to `next`. -/
def handOver (t : ProcTable) (regs : Registers) (next : Fin procMax) : ProcTable :=
  procSetCurrent ((saveCurrent t (procCurrent t) regs).setState next .running) (t.slot next).pid

theorem hand_over_self (t : ProcTable) (regs : Registers) (hne : some i ≠ procCurrent t) :
    (handOver t regs i).slot i = { t.slot i with state := .running } := by
  rw [← save_slot_ne t regs hne]
  exact set_state_self ..

theorem hand_over_ne (t : ProcTable) (regs : Registers) (h : j ≠ i) :
    (handOver t regs i).slot j = (saveCurrent t (procCurrent t) regs).slot j := set_state_ne _ _ h

theorem hand_over_pid (t : ProcTable) (regs : Registers) (hne : some i ≠ procCurrent t) (j : Fin procMax) :
    ((handOver t regs i).slot j).pid = (t.slot j).pid := by
  by_cases hj : j = i
  · rw [hj, hand_over_self t regs hne]
  · rw [hand_over_ne t regs hj, save_pid]

theorem hand_over_parent (t : ProcTable) (regs : Registers) (hne : some i ≠ procCurrent t) (j : Fin procMax) :
    ((handOver t regs i).slot j).parentPid = (t.slot j).parentPid := by
  by_cases hj : j = i
  · rw [hj, hand_over_self t regs hne]
  · rw [hand_over_ne t regs hj, save_parent]

theorem hand_over_state (t : ProcTable) (regs : Registers) (h : j ≠ i) :
    ((handOver t regs i).slot j).state =
      if some j = procCurrent t ∧ (t.slot j).state = .running then .ready else (t.slot j).state := by
  rw [hand_over_ne t regs h, save_state]

theorem hand_over_next_pid (t : ProcTable) (regs : Registers) (i : Fin procMax) :
    (handOver t regs i).nextPid = t.nextPid := by
  unfold handOver saveCurrent
  cases procCurrent t with
  | none => rfl
  | some c =>
    dsimp only
    split
    · rfl
    · rfl

theorem switch_stays (t : ProcTable) (regs : Registers)
    (h : ∀ next, pickNext t (procCurrent t) = some next → some next = procCurrent t) :
    switchTask t regs = (regs, t) := by
  unfold switchTask
  dsimp only
  cases hp : pickNext t (procCurrent t) with
  | none => rfl
  | some next => exact if_pos (h next hp)

theorem switch_to {next : Fin procMax} (regs : Registers) (hp : pickNext t (procCurrent t) = some next)
    (hne : some next ≠ procCurrent t) :
    switchTask t regs = (restoreContext (t.slot next).ctx regs, handOver t regs next) := by
  have hset := set_state_self (saveCurrent t (procCurrent t) regs) next .running
  rw [save_slot_ne t regs hne] at hset
  unfold switchTask
  dsimp only
  rw [hp]
  dsimp only
  rw [if_neg hne]
  unfold handOver procSetCurrent
  dsimp only
  rw [hset]

/-- The end of a quantum either finds no other READY process and leaves everything as it
is, or hands over to one. -/
theorem switch_cases (t : ProcTable) (regs : Registers) :
    switchTask t regs = (regs, t) ∧ (∀ i, some i ≠ procCurrent t → (t.slot i).state ≠ .ready) ∨
      ∃ next, (t.slot next).state = .ready ∧ some next ≠ procCurrent t ∧
        switchTask t regs = (restoreContext (t.slot next).ctx regs, handOver t regs next) := by
  by_cases h : ∀ next, pickNext t (procCurrent t) = some next → some next = procCurrent t
  · have hcur : pickNext t (procCurrent t) = procCurrent t := by
      cases hp : pickNext t (procCurrent t) with
      | none =>
        unfold pickNext at hp
        dsimp only at hp
        split at hp
        · cases hp
        · exact hp.symm
      | some next => exact h next hp
    exact Or.inl ⟨switch_stays t regs h, fun i hi => pick_next_keeps hcur hi⟩
  · push Not at h
    obtain ⟨next, hp, hne⟩ := h
    exact Or.inr ⟨next, pick_next_ready hp hne, hne, switch_to regs hp hne⟩

/-- The next tick ends the quantum. -/
def Expires (k : SchedState) : Prop := k.schedEnabled = true ∧ schedTicks ≤ k.tickCounter + 1

instance (k : SchedState) : Decidable (Expires k) := inferInstanceAs (Decidable (_ ∧ _))

theorem tick_early {k : SchedState} (regs : Registers) (h : ¬ Expires k) :
    (schedTick k regs).1 = regs ∧ (schedTick k regs).2.tasks = k.tasks := by
  unfold schedTick
  by_cases hon : k.schedEnabled = false
  · rw [if_pos hon]
    exact ⟨rfl, rfl⟩
  · have hlt : k.tickCounter + 1 < schedTicks :=
      Nat.lt_of_not_le (fun hle => h ⟨Bool.eq_true_of_not_eq_false hon, hle⟩)
    rw [if_neg hon, if_pos hlt]
    exact ⟨rfl, rfl⟩

theorem tick_expires {k : SchedState} (regs : Registers) (h : Expires k) :
    schedTick k regs = ((switchTask k.tasks.procs regs).1,
      { k with tickCounter := 0, tasks.procs := (switchTask k.tasks.procs regs).2 }) := by
  have hon : ¬ k.schedEnabled = false := by
    rw [h.1]
    decide
  unfold schedTick
  rw [if_neg hon, if_neg (Nat.not_lt.mpr h.2)]

/-- The process the next tick hands the CPU to, when it hands it over at all. -/
def resumed (k : SchedState) : Option (Fin procMax) :=
  if Expires k then (pickNext k.tasks.procs (procCurrent k.tasks.procs)).filter
    (fun next => some next != procCurrent k.tasks.procs)
  else none

theorem tick_resumes {k : SchedState} {next : Fin procMax} (regs : Registers) (h : resumed k = some next) :
    Expires k ∧ some next ≠ procCurrent k.tasks.procs ∧ (k.tasks.procs.slot next).state = .ready ∧
      (schedTick k regs).1 = restoreContext (k.tasks.procs.slot next).ctx regs ∧
        (schedTick k regs).2.tasks.procs = handOver k.tasks.procs regs next := by
  unfold resumed at h
  split at h
  · rename_i hexp
    obtain ⟨hp, hne⟩ := Option.filter_eq_some_iff.mp h
    have hne : some next ≠ procCurrent k.tasks.procs := bne_iff_ne.mp hne
    have hswitch := switch_to regs hp hne
    rw [tick_expires regs hexp, hswitch]
    exact ⟨hexp, hne, pick_next_ready hp hne, rfl, rfl⟩
  · cases h

theorem tick_stays {k : SchedState} (regs : Registers) (h : resumed k = none) :
    (schedTick k regs).2.tasks.procs = k.tasks.procs := by
  unfold resumed at h
  split at h
  · rename_i hexp
    have hstay : switchTask k.tasks.procs regs = (regs, k.tasks.procs) := by
      apply switch_stays
      intro next hp
      have hno := Option.filter_eq_none_iff.mp h next hp
      simpa using hno
    rw [tick_expires regs hexp, hstay]
  · rename_i hexp
    rw [(tick_early regs hexp).2]

end BaSic.Proofs.TaskTable
