import BaSic.Proofs.SigTable

namespace BaSic.Proofs.SignalDelivery
open Kernel Lib SigTable

/-- A slot in use holds the pid. -/
def Exists (t : ProcTable) (pid : UInt32) : Prop := ∃ i, (t.slot i).state ≠ .unused ∧ (t.slot i).pid = pid

instance exists_decidable (t : ProcTable) (pid : UInt32) : Decidable (Exists t pid) :=
  inferInstanceAs (Decidable (∃ _, _))

/-- A valid signal sent to a process that exists is pending for it afterwards. -/
def Delivers (k : SchedState) (op : CallOp) : Prop :=
  ∀ pid (signo : Int), op = .send pid signo → 1 ≤ signo → signo < sigMax → Exists k.tasks.procs pid →
    Pending (callStep k op).2.tasks.signals pid signo

/-- The pids addressed, each where it was first, up to the sixteenth. -/
def addPid (pids : List UInt32) (op : CallOp) : List UInt32 :=
  match addressed op with
  | none => pids
  | some pid => if pid ∈ pids ∨ pids.length = sigTableSize then pids else pids ++ [pid]

def firstPids (ops : List CallOp) : List UInt32 := ops.foldl addPid []

/-- Whoever is sent a valid signal is among the first sixteen pids addressed, counting this
time too. -/
def FirstSixteen (tableAddr : UInt32) (ops : List CallOp) : Prop :=
  ∀ before pid (signo : Int) after, ops = before ++ .send pid signo :: after → 1 ≤ signo → signo < sigMax →
    Exists (run callStep (kmainTasks tableAddr) before).2.tasks.procs pid →
      pid ∈ firstPids before ∨ (firstPids before).length < sigTableSize

/-- The entries in use come first, one for each of the pids. -/
structure Mirrors (g : SigTable) (pids : List UInt32) : Prop where
  fits : pids.length ≤ sigTableSize
  entry : ∀ i, pids[i.val]? = if (g i).used then some (g i).pid else none

variable {g h : SigTable} {pids : List UInt32} {pid : UInt32}

theorem Mirrors.used_iff (hm : Mirrors g pids) (i : Fin sigTableSize) : (g i).used = true ↔ i.val < pids.length := by
  have hi := hm.entry i
  by_cases hlt : i.val < pids.length
  · refine iff_of_true ?_ hlt
    by_contra hfree
    rw [if_neg hfree, List.getElem?_eq_getElem hlt] at hi
    cases hi
  · refine iff_of_false (fun hused => ?_) hlt
    rw [if_pos hused, List.getElem?_eq_none (Nat.le_of_not_lt hlt)] at hi
    cases hi

theorem Mirrors.entry_iff (hm : Mirrors g pids) : (∃ i, EntryOf g pid i) ↔ pid ∈ pids := by
  constructor
  · rintro ⟨i, hused, hpid⟩
    have hi := hm.entry i
    rw [if_pos hused, hpid] at hi
    exact List.mem_of_getElem? hi
  · intro hmem
    obtain ⟨n, hn, hpid⟩ := List.mem_iff_getElem.mp hmem
    have hi := hm.entry ⟨n, Nat.lt_of_lt_of_le hn hm.fits⟩
    have hused := (hm.used_iff ⟨n, Nat.lt_of_lt_of_le hn hm.fits⟩).mpr hn
    rw [if_pos hused, List.getElem?_eq_getElem hn, hpid] at hi
    exact ⟨_, hused, (Option.some.inj hi).symm⟩

theorem Mirrors.room_iff (hm : Mirrors g pids) : Room g pid ↔ pid ∈ pids ∨ pids.length < sigTableSize := by
  unfold Room
  rw [exists_or, hm.entry_iff]
  apply or_congr_right
  constructor
  · rintro ⟨i, hfree⟩
    by_contra hfull
    have hused := (hm.used_iff i).mpr (Nat.lt_of_lt_of_le i.isLt (Nat.le_of_not_lt hfull))
    rw [hfree] at hused
    cases hused
  · intro hlt
    refine ⟨⟨pids.length, hlt⟩, ?_⟩
    have hfree := (hm.used_iff ⟨pids.length, hlt⟩).not.mpr (Nat.lt_irrefl _)
    simpa using hfree

theorem Mirrors.same (hm : Mirrors g pids) (hsame : SameEntries g h) : Mirrors h pids := by
  refine ⟨hm.fits, fun i => ?_⟩
  rw [(hsame i).1, (hsame i).2]
  exact hm.entry i

/-- Taking the first free entry adds the pid at the end. -/
theorem Mirrors.taken (hm : Mirrors g pids) {i : Fin sigTableSize} (hfree : (g i).used = false)
    (hbefore : ∀ j, j < i → (g j).used = true) : Mirrors (taken g pid i) (pids ++ [pid]) := by
  have hi : i.val = pids.length := by
    have hge : ¬ i.val < pids.length := fun hlt => by
      rw [← hm.used_iff i, hfree] at hlt
      cases hlt
    by_contra hne
    have hlt : pids.length < i.val := by omega
    have hused := hbefore ⟨pids.length, Nat.lt_trans hlt i.isLt⟩ hlt
    exact Nat.lt_irrefl _ ((hm.used_iff _).mp hused)
  refine ⟨?_, fun j => ?_⟩
  · rw [List.length_append, ← hi]
    exact i.isLt
  · unfold SigTable.taken
    by_cases hj : j = i
    · rw [hj, Function.update_self, hi, List.getElem?_concat_length]
      rfl
    · have hval : j.val ≠ pids.length := fun h => hj (Fin.ext (h.trans hi.symm))
      rw [Function.update_of_ne hj, ← hm.entry j]
      by_cases hlt : j.val < pids.length
      · exact List.getElem?_append_left hlt
      · rw [List.getElem?_eq_none (Nat.le_of_not_lt hlt), List.getElem?_eq_none]
        rw [List.length_append, List.length_singleton]
        omega

theorem Mirrors.find (hm : Mirrors g pids) (pid : UInt32) : Mirrors (findOrAlloc g pid).2
    (if pid ∈ pids ∨ pids.length = sigTableSize then pids else pids ++ [pid]) := by
  rcases find_or_alloc_cases g pid with ⟨i, hi, hfind⟩ | ⟨hno, ⟨i, hfree, hbefore, hfind⟩ | ⟨hfull, hfind⟩⟩
  · rw [hfind, if_pos (Or.inl (hm.entry_iff.mp ⟨i, hi⟩))]
    exact hm
  · have hmem : pid ∉ pids := fun hp => by
      obtain ⟨j, hj⟩ := hm.entry_iff.mpr hp
      exact hno j hj
    have hlt : pids.length ≠ sigTableSize := fun hlen => by
      have hused := (hm.used_iff i).mpr (Nat.lt_of_lt_of_eq i.isLt hlen.symm)
      rw [hfree] at hused
      cases hused
    rw [hfind, if_neg (not_or.mpr ⟨hmem, hlt⟩)]
    exact hm.taken hfree hbefore
  · have hlen : pids.length = sigTableSize := by
      refine Nat.le_antisymm hm.fits (Nat.le_of_not_lt (fun hlt => ?_))
      exact Nat.lt_irrefl _ ((hm.used_iff ⟨pids.length, hlt⟩).mp (hfull _))
    rw [hfind, if_pos (Or.inr hlen)]
    exact hm

theorem step_mirrors (k : SchedState) (op : CallOp) (hm : Mirrors k.tasks.signals pids) :
    Mirrors (callStep k op).2.tasks.signals (addPid pids op) := by
  have hentries := step_entries k op
  unfold addPid
  cases ha : addressed op with
  | none =>
    rw [ha] at hentries
    exact hm.same hentries
  | some pid =>
    rw [ha] at hentries
    exact (hm.find pid).same hentries

theorem run_mirrors (ops : List CallOp) {k : SchedState} (hm : Mirrors k.tasks.signals pids) :
    Mirrors (run callStep k ops).2.tasks.signals (ops.foldl addPid pids) := by
  induction ops generalizing k pids with
  | nil => exact hm
  | cons op ops ih => exact ih (step_mirrors k op hm)

theorem boot_mirrors (tableAddr : UInt32) : Mirrors (kmainTasks tableAddr).tasks.signals [] :=
  ⟨Nat.zero_le _, fun _ => rfl⟩

/-- No signal to a process that exists is dropped in a run after boot exactly when all of
them go to the first sixteen pids addressed. -/
theorem delivered_iff (tableAddr : UInt32) (ops : List CallOp) :
    Along Delivers callStep (kmainTasks tableAddr) ops ↔ FirstSixteen tableAddr ops := by
  have hsend : ∀ before pid (signo : Int), 1 ≤ signo → signo < sigMax →
      (Pending (callStep (run callStep (kmainTasks tableAddr) before).2 (.send pid signo)).2.tasks.signals pid signo ↔
        pid ∈ firstPids before ∨ (firstPids before).length < sigTableSize) := by
    intro before pid signo h h'
    exact (send_pending_iff _ pid h h').trans (run_mirrors before (boot_mirrors tableAddr)).room_iff
  rw [Along.iff_split]
  constructor
  · intro hall before pid signo after hops h h' hpid
    exact (hsend before pid signo h h').mp (hall before _ after hops pid signo rfl h h' hpid)
  · intro hfirst before op after hops pid signo hop h h' hpid
    subst hop
    exact (hsend before pid signo h h').mpr (hfirst before pid signo after hops h h' hpid)

/-- Sixteen processes are sent SIGCONT; one then exits and is reaped, and another one takes its slot. -/
def seventeenthProcess : List CallOp :=
  List.replicate 15 (.create 0x400000) ++
    (List.range 16).map (fun n => .send (UInt32.ofNat (n + 1)) sigCont) ++
      List.replicate schedTicks (.tick ⟨0, 0, 0, 0, 0, 0, 0, 0, 0, 0, 0x1000, 8, 0x202⟩) ++
        [.exit 0, .wait 2, .create 0x400000]

/-- No signal reaches it: the entry of the process reaped is never given back. -/
theorem seventeenth_not_signalled :
    let k := (run callStep (kmainTasks 0) seventeenthProcess).2
    Exists k.tasks.procs 17 ∧ ¬ Delivers k (.send 17 sigCont) := by
  have hexists : Exists (run callStep (kmainTasks 0) seventeenthProcess).2.tasks.procs 17 := by
    decide +kernel
  refine ⟨hexists, fun h => ?_⟩
  have hlost : ¬ Pending (callStep (run callStep (kmainTasks 0) seventeenthProcess).2
      (.send 17 sigCont)).2.tasks.signals 17 sigCont := by
    decide +kernel
  exact hlost (h 17 sigCont rfl (by decide) (by decide) hexists)

end BaSic.Proofs.SignalDelivery
