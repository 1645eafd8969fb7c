import BaSic.Proofs.TaskTable
import BaSic.Lib.Steps
import BaSic.Lib.Words

namespace BaSic.Proofs.SigTable
open Kernel Lib

section Table

inductive CallOp where
  | create (entry : UInt32)
  | exec (entry : UInt32)
  | fork (parentEsp : UInt32)
  | exit (code : Int)
  | wait (childPid : UInt32)
  | tick (regs : Registers)
  | send (pid : UInt32) (signo : Int)
  | setHandler (pid : UInt32) (signo : Int) (handler : UInt32)
  | setMask (pid : UInt32) (how : Int) (mask : UInt8)
  | dispatch (pid : UInt32)

def callStep (k : SchedState) : CallOp → Unit × SchedState
  | .create entry => ((), { k with tasks.procs := (procCreate k.tasks.procs entry).2 })
  | .exec entry => ((), { k with tasks.procs := (sysExec k.tasks.procs entry).2 })
  | .fork parentEsp => ((), { k with tasks.procs := (procFork k.tasks.procs parentEsp).2 })
  | .exit code => ((), { k with tasks := sysExit k.tasks code })
  | .wait childPid => ((), { k with tasks.procs := (waitRound k.tasks.procs childPid).2 })
  | .tick regs => ((), (schedTick k regs).2)
  | .send pid signo => ((), { k with tasks.signals := signalSend k.tasks.signals pid signo })
  | .setHandler pid signo handler =>
    ((), { k with tasks.signals := signalSetHandler k.tasks.signals pid signo handler })
  | .setMask pid how mask => ((), { k with tasks.signals := signalSetMask k.tasks.signals pid how mask })
  | .dispatch pid => ((), { k with tasks := signalDispatch k.tasks pid })

/-- Entry `i` is in use for the pid. -/
def EntryOf (g : SigTable) (pid : UInt32) (i : Fin sigTableSize) : Prop := (g i).used = true ∧ (g i).pid = pid

instance entry_decidable (g : SigTable) (pid : UInt32) (i : Fin sigTableSize) : Decidable (EntryOf g pid i) :=
  inferInstanceAs (Decidable (_ ∧ _))

/-- Signal `signo` is pending for the pid. -/
def Pending (g : SigTable) (pid : UInt32) (signo : Int) : Prop :=
  ∃ i, EntryOf g pid i ∧ (g i).pending &&& sigBit signo.toNat ≠ 0

instance pending_decidable (g : SigTable) (pid : UInt32) (signo : Int) : Decidable (Pending g pid signo) :=
  inferInstanceAs (Decidable (∃ _, _))

/-- The pid has an entry, or there is one left for it. -/
def Room (g : SigTable) (pid : UInt32) : Prop := ∃ i, EntryOf g pid i ∨ (g i).used = false

instance room_decidable (g : SigTable) (pid : UInt32) : Decidable (Room g pid) :=
  inferInstanceAs (Decidable (∃ _, _))

/-- An entry taken for the pid, as `find_or_alloc` leaves it. -/
def taken (g : SigTable) (pid : UInt32) (i : Fin sigTableSize) : SigTable :=
  Function.update g i { g i with pid := pid, pending := 0, used := true }

variable {g : SigTable} {pid : UInt32} {signo : Int} {i j : Fin sigTableSize} {m : Tasks}

/-- The entry of the pid is found; else the first free one is taken; else there is none. -/
theorem find_or_alloc_cases (g : SigTable) (pid : UInt32) :
    (∃ i, EntryOf g pid i ∧ findOrAlloc g pid = (some i, g)) ∨
      (∀ j, ¬ EntryOf g pid j) ∧
        ((∃ i, (g i).used = false ∧ (∀ j, j < i → (g j).used = true) ∧
            findOrAlloc g pid = (some i, taken g pid i)) ∨
          (∀ j, (g j).used = true) ∧ findOrAlloc g pid = (none, g)) := by
  unfold findOrAlloc
  cases hfind : (List.finRange sigTableSize).find? (fun i => (g i).used && (g i).pid == pid) with
  | some i =>
    have hi := List.find?_some hfind
    refine Or.inl ⟨i, ?_, rfl⟩
    simpa [EntryOf] using hi
  | none =>
    have hno : ∀ j, ¬ EntryOf g pid j := by
      intro j hj
      have hp := List.find?_eq_none.mp hfind j (List.mem_finRange j)
      apply hp
      simpa [EntryOf] using hj
    refine Or.inr ⟨hno, ?_⟩
    cases hfree : (List.finRange sigTableSize).find? (fun i => !(g i).used) with
    | some i =>
      have hi := List.find?_some hfree
      refine Or.inl ⟨i, by simpa using hi, fun j hj => ?_, rfl⟩
      obtain ⟨-, n, hn, hin, hbefore⟩ := List.find?_eq_some_iff_getElem.mp hfree
      have hni : n = i.val := by
        rw [List.getElem_finRange] at hin
        exact congrArg Fin.val hin
      have hused := hbefore j.val (by omega)
      rw [List.getElem_finRange] at hused
      simpa using hused
    | none =>
      refine Or.inr ⟨fun j => ?_, rfl⟩
      have hused := List.find?_eq_none.mp hfree j (List.mem_finRange j)
      simpa using hused

/-- The same entries are in use, for the same pids. -/
def SameEntries (g h : SigTable) : Prop := ∀ i, (h i).used = (g i).used ∧ (h i).pid = (g i).pid

theorem SameEntries.trans {a b c : SigTable} (h : SameEntries a b) (h' : SameEntries b c) : SameEntries a c :=
  fun i => ⟨(h' i).1.trans (h i).1, (h' i).2.trans (h i).2⟩

theorem SameEntries.entry_iff {h : SigTable} (hsame : SameEntries g h) : EntryOf h pid i ↔ EntryOf g pid i := by
  unfold EntryOf
  rw [(hsame i).1, (hsame i).2]

@[simp] theorem entry_taken (g : SigTable) (pid : UInt32) (i : Fin sigTableSize) : EntryOf (taken g pid i) pid i := by
  simp [EntryOf, taken]

theorem signo_valid (h : 1 ≤ signo) (h' : signo < sigMax) : ¬ (signo < 1 ∨ signo ≥ sigMax) := by omega

theorem signal_bounds {s : Nat} (hs : s ∈ (List.range sigMax).tail) : 1 ≤ s ∧ s ≤ 6 := by
  revert s
  decide

theorem signo_mem (h : ¬ (signo < 1 ∨ signo ≥ sigMax)) : signo.toNat ∈ (List.range sigMax).tail := by
  have hmem : ∀ n < sigMax, 1 ≤ n → n ∈ (List.range sigMax).tail := by decide
  apply hmem
  · omega
  · omega

/-- The pid an operation looks an entry up for. A child's exit looks up none: SIGCHLD is
no valid signal. -/
def addressed : CallOp → Option UInt32
  | .send pid signo | .setHandler pid signo _ => if signo < 1 ∨ signo ≥ sigMax then none else some pid
  | .setMask pid _ _ => some pid
  | _ => none

/-- Every entry is free or in use for its pid as before, and what is pending in it is the
same or has the bits `b` added. -/
def Grown (b : UInt8) (g h : SigTable) : Prop :=
  ∀ i, (h i).used = (g i).used ∧ (h i).pid = (g i).pid ∧
    ((h i).pending = (g i).pending ∨ (h i).pending = (g i).pending ||| b)

theorem Grown.entries {b : UInt8} {h : SigTable} (hg : Grown b g h) : SameEntries g h :=
  fun i => ⟨(hg i).1, (hg i).2.1⟩

theorem grown_self (b : UInt8) (g : SigTable) : Grown b g g := fun _ => ⟨rfl, rfl, Or.inl rfl⟩

theorem grown_update {b : UInt8} (e : SigEntry) (hused : e.used = (g i).used) (hpid : e.pid = (g i).pid)
    (hpending : e.pending = (g i).pending ∨ e.pending = (g i).pending ||| b) :
    Grown b g (Function.update g i e) := by
  intro j
  by_cases hj : j = i
  · rw [hj, Function.update_self]
    exact ⟨hused, hpid, hpending⟩
  · rw [Function.update_of_ne hj]
    exact grown_self b g j

theorem send_grows (g : SigTable) (pid : UInt32) (h : ¬ (signo < 1 ∨ signo ≥ sigMax)) :
    Grown (sigBit signo.toNat) (findOrAlloc g pid).2 (signalSend g pid signo) := by
  unfold signalSend
  rw [if_neg h]
  cases findOrAlloc g pid with
  | mk r g' =>
    cases r with
    | none => exact grown_self _ g'
    | some i => exact grown_update _ rfl rfl (Or.inr rfl)

theorem set_handler_grows (g : SigTable) (pid handler : UInt32) (h : ¬ (signo < 1 ∨ signo ≥ sigMax)) :
    Grown 0 (findOrAlloc g pid).2 (signalSetHandler g pid signo handler) := by
  unfold signalSetHandler
  rw [if_neg h]
  cases findOrAlloc g pid with
  | mk r g' =>
    cases r with
    | none => exact grown_self _ g'
    | some i => exact grown_update _ rfl rfl (Or.inl rfl)

theorem set_mask_grows (g : SigTable) (pid : UInt32) (how : Int) (mask : UInt8) :
    Grown 0 (findOrAlloc g pid).2 (signalSetMask g pid how mask) := by
  unfold signalSetMask
  cases findOrAlloc g pid with
  | mk r g' =>
    cases r with
    | none => exact grown_self _ g'
    | some i =>
      dsimp only
      split_ifs
      · exact grown_update _ rfl rfl (Or.inl rfl)
      · exact grown_update _ rfl rfl (Or.inl rfl)
      · exact grown_update _ rfl rfl (Or.inl rfl)
      · exact grown_self _ g'

/-- What looking at each signal of an entry in turn preserves, a dispatch preserves. -/
theorem dispatch_invariant {I : SigTable → Prop}
    (hstep : ∀ m e s, I m.signals → I (dispatchSignal m e s).signals) (m : Tasks) (pid : UInt32)
    (h : I m.signals) : I (signalDispatch m pid).signals := by
  unfold signalDispatch
  cases dispatchEntry m.signals pid with
  | none => exact h
  | some e =>
    dsimp only
    split_ifs
    · exact h
    · exact List.foldlRecOn (motive := fun m' : Tasks => I m'.signals) _ _ h (fun m' hm' s _ => hstep m' e s hm')

/-- A dispatch of one signal takes a bit from the pending set of the entry, or nothing. -/
theorem dispatch_signals (m : Tasks) (e : Fin sigTableSize) (s : Nat) :
    (dispatchSignal m e s).signals = m.signals ∨ (dispatchSignal m e s).signals =
      Function.update m.signals e
        { m.signals e with pending := (m.signals e).pending &&& ~~~sigBit s } := by
  unfold dispatchSignal
  split_ifs
  · exact Or.inl rfl
  · exact Or.inl rfl
  · dsimp only
    split_ifs
    · exact Or.inr rfl
    · exact Or.inr rfl

theorem dispatch_entries (m : Tasks) (pid : UInt32) : SameEntries m.signals (signalDispatch m pid).signals := by
  refine dispatch_invariant (I := SameEntries m.signals) (fun m' e s h => ?_) m pid (fun i => ⟨rfl, rfl⟩)
  rcases dispatch_signals m' e s with hs | hs
  · rw [hs]
    exact h
  · rw [hs]
    refine h.trans (fun i => ?_)
    by_cases hi : i = e
    · rw [hi, Function.update_self]
      exact ⟨rfl, rfl⟩
    · rw [Function.update_of_ne hi]
      exact ⟨rfl, rfl⟩

/-- The exit of a process leaves the signal table as it is: SIGCHLD is past the last signal. -/
theorem exit_signals (m : Tasks) (code : Int) : (sysExit m code).signals = m.signals := by
  have hchld : ∀ q, signalSend m.signals q sigChld = m.signals := by
    intro q
    unfold signalSend
    rw [if_pos (by decide)]
  unfold sysExit
  cases procCurrent m.procs with
  | none => rfl
  | some c =>
    dsimp only
    rw [hchld, ite_self]

theorem tick_signals (k : SchedState) (regs : Registers) :
    (schedTick k regs).2.tasks.signals = k.tasks.signals := by
  unfold schedTick
  split_ifs
  · rfl
  · rfl
  · rfl

/-- The entries after an operation are those `find_or_alloc` leaves for the pid it addresses. -/
theorem step_entries (k : SchedState) (op : CallOp) :
    SameEntries ((addressed op).elim k.tasks.signals (fun pid => (findOrAlloc k.tasks.signals pid).2))
      (callStep k op).2.tasks.signals := by
  have hsame : SameEntries k.tasks.signals k.tasks.signals := fun i => ⟨rfl, rfl⟩
  cases op with
  | create entry => exact hsame
  | exec entry => exact hsame
  | fork parentEsp => exact hsame
  | exit code =>
    rw [callStep, exit_signals]
    exact hsame
  | wait childPid => exact hsame
  | tick regs =>
    rw [callStep, tick_signals]
    exact hsame
  | send pid signo =>
    by_cases h : signo < 1 ∨ signo ≥ sigMax
    · simp only [addressed, callStep, signalSend, if_pos h, Option.elim]
      exact hsame
    · simp only [addressed, if_neg h, Option.elim]
      exact (send_grows _ pid h).entries
  | setHandler pid signo handler =>
    by_cases h : signo < 1 ∨ signo ≥ sigMax
    · simp only [addressed, callStep, signalSetHandler, if_pos h, Option.elim]
      exact hsame
    · simp only [addressed, if_neg h, Option.elim]
      exact (set_handler_grows _ pid handler h).entries
  | setMask pid how mask => exact (set_mask_grows _ pid how mask).entries
  | dispatch pid => exact dispatch_entries k.tasks pid

/-- A valid signal sent to a pid is pending for it when there was room, and only then. -/
theorem send_pending_iff (g : SigTable) (pid : UInt32) (h : 1 ≤ signo) (h' : signo < sigMax) :
    Pending (signalSend g pid signo) pid signo ↔ Room g pid := by
  have hvalid := signo_valid h h'
  have hbit : ∀ s ∈ (List.range sigMax).tail, ∀ x : UInt8, (x ||| sigBit s) &&& sigBit s ≠ 0 := by
    decide +kernel
  have hset : ∀ (g' : SigTable) i, EntryOf g' pid i →
      Pending (Function.update g' i { g' i with pending := (g' i).pending ||| sigBit signo.toNat }) pid signo := by
    intro g' i hi
    refine ⟨i, ?_⟩
    unfold EntryOf
    rw [Function.update_self]
    exact ⟨hi, hbit _ (signo_mem hvalid) _⟩
  unfold signalSend
  rw [if_neg hvalid]
  rcases find_or_alloc_cases g pid with ⟨i, hi, hfind⟩ | ⟨hno, ⟨i, hfree, -, hfind⟩ | ⟨hfull, hfind⟩⟩
  · rw [hfind]
    exact iff_of_true (hset g i hi) ⟨i, Or.inl hi⟩
  · rw [hfind]
    exact iff_of_true (hset _ i (entry_taken g pid i)) ⟨i, Or.inr hfree⟩
  · rw [hfind]
    refine iff_of_false ?_ ?_
    · rintro ⟨j, hj, -⟩
      exact hno j hj
    · rintro ⟨j, hj | hj⟩
      · exact hno j hj
      · rw [hfull j] at hj
        cases hj

end Table

section Notice

/-- After the current process exits, SIGCHLD is pending for pid `q`, and stays so while no
dispatch is made for `q`. -/
def Notified (k : SchedState) (q : UInt32) (code : Int) : Prop :=
  ∀ ops, (∀ op ∈ ops, op ≠ .dispatch q) →
    Pending (run callStep (callStep k (.exit code)).2 ops).2.tasks.signals q sigChld

/-- The bit of SIGCHLD is in no pending set. -/
def NoChild (g : SigTable) : Prop := ∀ i, (g i).pending &&& sigBit sigChld.toNat = 0

variable {g : SigTable} {i : Fin sigTableSize} {m : Tasks} {k : SchedState}

theorem NoChild.update (h : NoChild g) (e : SigEntry) (he : e.pending &&& sigBit sigChld.toNat = 0) :
    NoChild (Function.update g i e) := by
  intro j
  by_cases hj : j = i
  · rw [hj, Function.update_self]
    exact he
  · rw [Function.update_of_ne hj]
    exact h j

theorem NoChild.find (h : NoChild g) (pid : UInt32) : NoChild (findOrAlloc g pid).2 := by
  rcases find_or_alloc_cases g pid with ⟨i, -, hfind⟩ | ⟨-, ⟨i, -, -, hfind⟩ | ⟨-, hfind⟩⟩
  · rw [hfind]
    exact h
  · rw [hfind]
    exact h.update _ UInt8.zero_and
  · rw [hfind]
    exact h

/-- What adds no bit of SIGCHLD to a pending set keeps it out. -/
theorem NoChild.grown {b : UInt8} {g' : SigTable} (h : NoChild g) (hg : Grown b g g')
    (hb : b &&& sigBit sigChld.toNat = 0) : NoChild g' := by
  intro i
  rcases (hg i).2.2 with hsame | hadd
  · rw [hsame]
    exact h i
  · rw [hadd, byte_or_and, h i, hb]
    rfl

theorem NoChild.send (h : NoChild g) (pid : UInt32) (signo : Int) : NoChild (signalSend g pid signo) := by
  have hbit : ∀ s ∈ (List.range sigMax).tail, sigBit s &&& sigBit sigChld.toNat = 0 := by decide
  by_cases hvalid : signo < 1 ∨ signo ≥ sigMax
  · unfold signalSend
    rw [if_pos hvalid]
    exact h
  · exact (h.find pid).grown (send_grows g pid hvalid) (hbit _ (signo_mem hvalid))

theorem NoChild.set_handler (h : NoChild g) (pid : UInt32) (signo : Int) (handler : UInt32) :
    NoChild (signalSetHandler g pid signo handler) := by
  by_cases hvalid : signo < 1 ∨ signo ≥ sigMax
  · unfold signalSetHandler
    rw [if_pos hvalid]
    exact h
  · exact (h.find pid).grown (set_handler_grows g pid handler hvalid) UInt8.zero_and

theorem NoChild.set_mask (h : NoChild g) (pid : UInt32) (how : Int) (mask : UInt8) :
    NoChild (signalSetMask g pid how mask) := (h.find pid).grown (set_mask_grows g pid how mask) UInt8.zero_and

theorem NoChild.dispatch (h : NoChild m.signals) (pid : UInt32) : NoChild (signalDispatch m pid).signals := by
  refine dispatch_invariant (fun m' e s h' => ?_) m pid h
  rcases dispatch_signals m' e s with hs | hs
  · rw [hs]
    exact h'
  · rw [hs]
    refine h'.update _ ?_
    dsimp only
    rw [UInt8.and_assoc, UInt8.and_comm (~~~sigBit s), ← UInt8.and_assoc, h' e]
    exact UInt8.zero_and

theorem step_no_child (k : SchedState) (op : CallOp) (h : NoChild k.tasks.signals) :
    NoChild (callStep k op).2.tasks.signals := by
  cases op with
  | create entry => exact h
  | exec entry => exact h
  | fork parentEsp => exact h
  | exit code =>
    rw [callStep, exit_signals]
    exact h
  | wait childPid => exact h
  | tick regs =>
    rw [callStep, tick_signals]
    exact h
  | send pid signo => exact h.send pid signo
  | setHandler pid signo handler => exact h.set_handler pid signo handler
  | setMask pid how mask => exact h.set_mask pid how mask
  | dispatch pid => exact h.dispatch pid

theorem boot_signals (tableAddr : UInt32) : (kmainTasks tableAddr).tasks.signals = signalInit := rfl

theorem run_no_child (tableAddr : UInt32) (ops : List CallOp) :
    NoChild (run callStep (kmainTasks tableAddr) ops).2.tasks.signals := by
  refine run_invariant (Q := fun _ => True) (fun k op _ h => step_no_child k op h) (fun _ _ => trivial) ?_
  rw [boot_signals]
  exact fun i => UInt8.zero_and

/-- In no state reached after boot does an exit notify any parent. -/
theorem parent_never_notified (tableAddr : UInt32) (ops : List CallOp) (q : UInt32) (code : Int) :
    ¬ Notified (run callStep (kmainTasks tableAddr) ops).2 q code := by
  intro h
  obtain ⟨i, -, hi⟩ := h [] (fun _ hop => absurd hop List.not_mem_nil)
  exact hi (step_no_child _ _ (run_no_child tableAddr ops) i)

/-- The shell runs a program with `exec`, which gets the CPU at the end of a quantum. -/
def runChild : List CallOp :=
  .exec 0x400000 :: List.replicate schedTicks (.tick ⟨0, 0, 0, 0, 0, 0, 0, 0, 0, 0, 0x1000, 8, 0x202⟩)

/-- Its exit does not reach the shell, whose pid 1 could have any of the sixteen entries. -/
theorem shell_not_notified :
    let k := (run callStep (kmainTasks 0) runChild).2
    procCurrent k.tasks.procs = some 1 ∧ (k.tasks.procs.slot 1).parentPid = 1 ∧ Room k.tasks.signals 1 ∧
      ¬ Notified k 1 0 := by
  have hnone : ¬ Pending (callStep (run callStep (kmainTasks 0) runChild).2 (.exit 0)).2.tasks.signals 1 sigChld := by
    decide
  refine ⟨by decide, by decide, by decide, fun h => hnone ?_⟩
  exact h [] (fun _ hop => absurd hop List.not_mem_nil)

end Notice

end BaSic.Proofs.SigTable
