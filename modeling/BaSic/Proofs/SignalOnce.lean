import BaSic.Proofs.Dispatch

namespace BaSic.Proofs.SignalOnce
open Kernel Lib SigTable Dispatch

inductive SigOp where
  | send (pid : UInt32) (signo : Int)
  | setMask (pid : UInt32) (how : Int) (mask : UInt8)
  | dispatch (pid : UInt32)

/-- An operation, with the actions a dispatch makes and the pid they are for. -/
def sigStep (m : Tasks) : SigOp → List (UInt32 × SigAction) × Tasks
  | .send pid signo => ([], { m with signals := signalSend m.signals pid signo })
  | .setMask pid how mask => ([], { m with signals := signalSetMask m.signals pid how mask })
  | .dispatch pid => ((signalActions m pid).map (fun a => (pid, a)), signalDispatch m pid)

/-- Signal `s` is masked for the pid. -/
def Blocked (g : SigTable) (pid : UInt32) (s : Nat) : Prop :=
  ∃ e, EntryOf g pid e ∧ (g e).mask &&& sigBit s ≠ 0

/-- The pid's signals are dispatched only while `s` is masked. -/
def WhileBlocked (pid : UInt32) (s : Nat) (m : Tasks) : SigOp → Prop
  | .dispatch q => q = pid → Blocked m.signals pid s
  | _ => True

/-- How many of the actions are on signal `s` for the pid. -/
def actsOn (pid : UInt32) (s : Nat) (acts : List (UInt32 × SigAction)) : Nat :=
  acts.countP (fun a => a.1 == pid && a.2.signo == s)

/-- Signal `s` waits in entry `e` of the pid. -/
structure Waits (g : SigTable) (pid : UInt32) (e : Fin sigTableSize) (s : Nat) : Prop where
  single : SingleEntries g
  entry : EntryOf g pid e
  pending : (g e).pending &&& sigBit s ≠ 0

variable {g : SigTable} {m : Tasks} {pid q : UInt32} {e : Fin sigTableSize} {s : Nat} {signo : Int}

theorem bit_or (hs : s ∈ (List.range sigMax).tail) {x : UInt8} (h : x &&& sigBit s ≠ 0) (y : UInt8) :
    (x ||| y) &&& sigBit s ≠ 0 := by
  rw [bit_set_iff hs] at h ⊢
  simp [h]

/-- Looking an entry up leaves the entries in use. -/
theorem find_keeps (he : (g e).used = true) (q : UInt32) : (findOrAlloc g q).2 e = g e := by
  rcases find_or_alloc_cases g q with ⟨i, -, hfind⟩ | ⟨-, ⟨i, hfree, -, hfind⟩ | ⟨-, hfind⟩⟩
  · rw [hfind]
  · rw [hfind]
    apply Function.update_of_ne
    rintro rfl
    rw [he] at hfree
    cases hfree
  · rw [hfind]

theorem EntryOf.find (he : EntryOf g pid e) (q : UInt32) : EntryOf (findOrAlloc g q).2 pid e := by
  unfold SigTable.EntryOf
  rw [find_keeps he.1 q]
  exact he

/-- A signal waits on while its entry is looked up, and bits are added to pending sets. -/
theorem Waits.grown (h : Waits g pid e s) (hs : s ∈ (List.range sigMax).tail) {b : UInt8} {g' : SigTable}
    (hg : Grown b (findOrAlloc g q).2 g') : Waits g' pid e s := by
  refine ⟨(h.single.find q).same hg.entries, hg.entries.entry_iff.mpr (EntryOf.find h.entry q), ?_⟩
  obtain ⟨-, -, hpending⟩ := hg e
  rw [find_keeps h.entry.1] at hpending
  rcases hpending with hsame | hadd
  · rw [hsame]
    exact h.pending
  · rw [hadd]
    exact bit_or hs h.pending b

theorem Waits.send (h : Waits g pid e s) (hs : s ∈ (List.range sigMax).tail) (q : UInt32) (signo : Int) :
    Waits (signalSend g q signo) pid e s := by
  by_cases hv : signo < 1 ∨ signo ≥ sigMax
  · unfold signalSend
    rw [if_pos hv]
    exact h
  · exact h.grown hs (send_grows g q hv)

/-- How often a dispatch for `q` acts on the signal for the pid. -/
theorem acts_on_count (pid q : UInt32) (s : Nat) (acts : List SigAction) :
    actsOn pid s (acts.map (fun a => (q, a))) = if q = pid then (acts.map SigAction.signo).count s else 0 := by
  unfold actsOn
  rw [List.countP_map]
  split
  · rename_i hq
    rw [List.count, List.countP_map]
    apply List.countP_congr
    intro a _
    simp [hq]
  · rename_i hq
    apply List.countP_eq_zero.mpr
    intro a _
    simp [hq]

theorem actions_idle (hd : dispatchEntry m.signals q = none) :
    signalActions m q = [] ∧ signalDispatch m q = m := by
  unfold signalActions signalDispatch
  simp [hd]

/-- A dispatch while the signal is masked leaves it pending and does nothing about it. -/
theorem Waits.dispatch (h : Waits m.signals pid e s) (hs : s ∈ (List.range sigMax).tail)
    (hblocked : q = pid → Blocked m.signals pid s) :
    Waits (signalDispatch m q).signals pid e s ∧
      actsOn pid s ((signalActions m q).map (fun a => (q, a))) = 0 := by
  cases hd : dispatchEntry m.signals q with
  | none =>
    obtain ⟨hacts, hm⟩ := actions_idle hd
    rw [hacts, hm]
    exact ⟨h, rfl⟩
  | some d =>
    have hsame := dispatch_entries m q
    have hentry := hsame.entry_iff.mpr h.entry
    rw [acts_on_count, actions_signo hd]
    by_cases hq : q = pid
    · subst hq
      obtain ⟨e', he', hmask⟩ := hblocked rfl
      have hee : e' = e := h.single q e' e he' h.entry
      have hde : d = e := h.single q d e (dispatch_entry_of hd) h.entry
      subst hee hde
      have hno : s ∉ deliverable m.signals d := fun hmem => hmask (mem_deliverable.mp hmem).2.2
      refine ⟨⟨h.single.same hsame, hentry, (dispatch_pending hd hs).mpr ⟨h.pending, hno⟩⟩, ?_⟩
      rw [if_pos rfl, List.count_eq_zero_of_not_mem hno]
    · have hde : d ≠ e := by
        rintro rfl
        exact hq ((dispatch_entry_of hd).2.symm.trans h.entry.2)
      refine ⟨⟨h.single.same hsame, hentry, ?_⟩, if_neg hq⟩
      rw [dispatch_table hd, Function.update_of_ne hde.symm]
      exact h.pending

theorem Waits.step (h : Waits m.signals pid e s) (hs : s ∈ (List.range sigMax).tail) {op : SigOp}
    (hop : WhileBlocked pid s m op) :
    Waits (sigStep m op).2.signals pid e s ∧ actsOn pid s (sigStep m op).1 = 0 := by
  cases op with
  | send q signo => exact ⟨h.send hs q signo, rfl⟩
  | setMask q how mask => exact ⟨h.grown hs (set_mask_grows m.signals q how mask), rfl⟩
  | dispatch q => exact h.dispatch hs hop

/-- As long as it is masked, the signal waits and nothing is done about it. -/
theorem Waits.run (h : Waits m.signals pid e s) (hs : s ∈ (List.range sigMax).tail) {ops : List SigOp}
    (hops : Along (WhileBlocked pid s) sigStep m ops) :
    Waits (run sigStep m ops).2.signals pid e s ∧ actsOn pid s (run sigStep m ops).1.flatten = 0 := by
  induction ops generalizing m with
  | nil => exact ⟨h, rfl⟩
  | cons op ops ih =>
    obtain ⟨hw, hacts⟩ := h.step hs hops.1
    obtain ⟨hend, hrest⟩ := ih hw hops.2
    refine ⟨hend, ?_⟩
    have hflat : (Lib.run sigStep m (op :: ops)).1.flatten =
        (sigStep m op).1 ++ (Lib.run sigStep (sigStep m op).2 ops).1.flatten := rfl
    rw [hflat]
    unfold actsOn at hacts hrest ⊢
    rw [List.countP_append, hacts, hrest]

/-- A signal that is pending for a pid waits in its entry. -/
theorem Waits.of_pending (hg : SingleEntries g) (he : EntryOf g pid e) (hp : Pending g pid signo) :
    Waits g pid e signo.toNat := by
  obtain ⟨i, hi, hbit⟩ := hp
  rw [hg pid i e hi he] at hbit
  exact ⟨hg, he, hbit⟩

theorem Waits.pending_signo (h : Waits g pid e signo.toNat) : Pending g pid signo := ⟨e, h.entry, h.pending⟩

theorem deliverable_nodup (g : SigTable) (e : Fin sigTableSize) : (deliverable g e).Nodup :=
  List.Nodup.filter _ (by decide)

/-- The first dispatch once the signal is not masked any more acts on it, once, and takes it
from the pending set. -/
theorem Waits.released (h : Waits m.signals pid e s) (hs : s ∈ (List.range sigMax).tail)
    (hfree : ¬ Blocked m.signals pid s) :
    actsOn pid s (sigStep m (.dispatch pid)).1 = 1 ∧
      ¬ Waits (signalDispatch m pid).signals pid e s := by
  have hd : dispatchEntry m.signals pid = some e := h.single.dispatch_entry h.entry
  have hmask : (m.signals e).mask &&& sigBit s = 0 := by
    by_contra hm
    exact hfree ⟨e, h.entry, hm⟩
  have hmem : s ∈ deliverable m.signals e := mem_deliverable.mpr ⟨hs, h.pending, hmask⟩
  constructor
  · simp only [sigStep]
    rw [acts_on_count, if_pos rfl, actions_signo hd]
    exact List.count_eq_one_of_mem (deliverable_nodup m.signals e) hmem
  · intro hw
    exact ((dispatch_pending hd hs).mp hw.pending).2 hmem

/-- A dispatch acts on each pending signal that is not masked, once and in ascending order,
and leaves the masked ones pending. A signal sent while it is masked waits through every
sequence of sends, changes of masks and dispatches until the first dispatch at which it is
not masked any more, which acts on it once. -/
theorem signals_acted_once (m : Tasks) (hsingle : SingleEntries m.signals) (pid : UInt32)
    (e : Fin sigTableSize) (he : EntryOf m.signals pid e) :
    ((m.signals e).pending < 64 →
      ((signalDispatch m pid).signals e).pending = (m.signals e).pending &&& (m.signals e).mask ∧
        (signalActions m pid).map SigAction.signo = [1, 2, 3, 4, 5, 6].filter (fun s =>
          (m.signals e).pending &&& sigBit s ≠ 0 ∧ (m.signals e).mask &&& sigBit s = 0) ∧
          signalDispatch m pid = (signalActions m pid).foldl (perform e) m) ∧
      ∀ signo : Int, 1 ≤ signo → signo < sigMax → Blocked m.signals pid signo.toNat → ∀ ops,
        Along (WhileBlocked pid signo.toNat) sigStep (sigStep m (.send pid signo)).2 ops →
          let r := run sigStep (sigStep m (.send pid signo)).2 ops
          Pending r.2.signals pid signo ∧ actsOn pid signo.toNat r.1.flatten = 0 ∧
            (¬ Blocked r.2.signals pid signo.toNat →
              actsOn pid signo.toNat (sigStep r.2 (.dispatch pid)).1 = 1 ∧
                ¬ Pending (sigStep r.2 (.dispatch pid)).2.signals pid signo) := by
  have hd : dispatchEntry m.signals pid = some e := hsingle.dispatch_entry he
  refine ⟨fun hp => ⟨?_, actions_signo hd, signal_dispatch_perform hd⟩, fun signo h h' _ ops hops => ?_⟩
  · rw [dispatch_table hd, Function.update_self]
    exact pending_left hp
  · have hs := signo_mem (signo_valid h h')
    have hsent : Waits (sigStep m (.send pid signo)).2.signals pid e signo.toNat := by
      have hroom : Pending (signalSend m.signals pid signo) pid signo :=
        (send_pending_iff m.signals pid h h').mpr ⟨e, Or.inl he⟩
      have hsame := (send_grows m.signals pid (signo_valid h h')).entries
      exact .of_pending ((hsingle.find pid).same hsame) (hsame.entry_iff.mpr (EntryOf.find he pid)) hroom
    obtain ⟨hw, hacts⟩ := hsent.run hs hops
    refine ⟨hw.pending_signo, hacts, fun hfree => ?_⟩
    obtain ⟨hone, hgone⟩ := hw.released hs hfree
    refine ⟨hone, ?_⟩
    intro hpending
    apply hgone
    have hsame := dispatch_entries (run sigStep (sigStep m (.send pid signo)).2 ops).2 pid
    exact .of_pending (hw.single.same hsame) (hsame.entry_iff.mpr hw.entry) hpending

/-- The shell with SIGTERM masked. -/
def shellMasked : Tasks :=
  { (kmainTasks 0x120000).tasks with signals := signalSetMask signalInit 1 2 1 }

/-- A SIGTERM for the shell waits through a dispatch while it is masked. -/
theorem signals_acted_once_masked :
    let r := run sigStep (sigStep shellMasked (.send 1 1)).2 [.dispatch 1, .setMask 1 1 1]
    Pending r.2.signals 1 1 ∧ actsOn 1 1 r.1.flatten = 0 ∧ actsOn 1 1 (sigStep r.2 (.dispatch 1)).1 = 1 := by
  intro r
  have hsingle : SingleEntries shellMasked.signals :=
    single_entries 0x120000 [.setMask 1 2 1]
  have hrun : Along (WhileBlocked 1 1) sigStep (sigStep shellMasked (.send 1 1)).2 [.dispatch 1, .setMask 1 1 1] :=
    ⟨fun _ => ⟨0, by decide, by decide⟩, trivial, trivial⟩
  obtain ⟨hpending, hnone, hrelease⟩ := (signals_acted_once shellMasked hsingle 1 0 (by decide)).2 1
    (by decide) (by decide) ⟨0, by decide, by decide⟩ _ hrun
  refine ⟨hpending, hnone, (hrelease ?_).1⟩
  rintro ⟨i, hi, hmask⟩
  revert hmask
  have hall : ∀ i, EntryOf r.2.signals 1 i → ¬ (r.2.signals i).mask &&& sigBit 1 ≠ 0 := by decide
  exact hall i hi

end BaSic.Proofs.SignalOnce
