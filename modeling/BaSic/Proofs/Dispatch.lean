import BaSic.Proofs.SigTable
import BaSic.Proofs.Zombies

namespace BaSic.Proofs.Dispatch
open Kernel Lib SigTable

/-- What `signal_dispatch` does about one signal: a handler is called with it, or its
default action is run. -/
inductive SigAction where
  | call (handler : UInt32) (s : Nat)
  | default (s : Nat)
  deriving DecidableEq, Repr

def SigAction.signo : SigAction → Nat
  | .call _ s | .default s => s

/-- Signal `s` of the entry is pending and not masked. -/
def Deliverable (g : SigTable) (e : Fin sigTableSize) (s : Nat) : Prop :=
  (g e).pending &&& sigBit s ≠ 0 ∧ (g e).mask &&& sigBit s = 0

instance (g : SigTable) (e : Fin sigTableSize) (s : Nat) : Decidable (Deliverable g e s) :=
  inferInstanceAs (Decidable (_ ∧ _))

/-- What the loop decides to do about signal `s` of the entry. -/
def actionOf (entry : SigEntry) (s : Nat) : SigAction :=
  if entry.handlers (s - 1) > 1 then .call (entry.handlers (s - 1)) s else .default s

/-- Clearing the signal's bit and doing what was decided. -/
def perform (e : Fin sigTableSize) (m : Tasks) (a : SigAction) : Tasks :=
  let pending := (m.signals e).pending &&& ~~~sigBit a.signo
  let m := { m with signals := Function.update m.signals e { m.signals e with pending := pending } }
  match a with
  | .call handler s => { m with handled := (handler, s) :: m.handled }
  | .default s => { m with procs := defaultAction m.procs s }

/-- The actions of the loop over the signals, one after the other. -/
def dispatchActions (m : Tasks) (e : Fin sigTableSize) : List Nat → List SigAction
  | [] => []
  | s :: ss =>
    let rest := dispatchActions (dispatchSignal m e s) e ss
    if Deliverable m.signals e s then actionOf (m.signals e) s :: rest else rest

/-- The actions of a dispatch. -/
def signalActions (m : Tasks) (pid : UInt32) : List SigAction :=
  match dispatchEntry m.signals pid with
  | none => []
  | some e => if (m.signals e).pending = 0 then [] else dispatchActions m e (List.range sigMax).tail

/-- The signals a dispatch of the entry delivers, in ascending order. -/
def deliverable (g : SigTable) (e : Fin sigTableSize) : List Nat :=
  (List.range sigMax).tail.filter (fun s => Deliverable g e s)

/-- No pid has two entries. -/
def SingleEntries (g : SigTable) : Prop := ∀ pid i j, EntryOf g pid i → EntryOf g pid j → i = j

variable {g : SigTable} {m : Tasks} {e i j : Fin sigTableSize} {s r : Nat} {pid : UInt32} {ss : List Nat}
  {signo : Int}

theorem dispatch_signal_eq (m : Tasks) (e : Fin sigTableSize) (s : Nat) : dispatchSignal m e s =
    if Deliverable m.signals e s then perform e m (actionOf (m.signals e) s) else m := by
  unfold dispatchSignal Deliverable
  by_cases hp : (m.signals e).pending &&& sigBit s = 0
  · simp [hp]
  by_cases hm : (m.signals e).mask &&& sigBit s = 0
  · by_cases hh : (m.signals e).handlers (s - 1) > 1
    · simp [hp, hm, hh, perform, actionOf, SigAction.signo]
    · simp [hp, hm, hh, perform, actionOf, SigAction.signo]
  · simp [hp, hm]

/-- The loop does nothing but perform its actions. -/
theorem fold_perform (m : Tasks) (e : Fin sigTableSize) (ss : List Nat) :
    ss.foldl (fun m s => dispatchSignal m e s) m = (dispatchActions m e ss).foldl (perform e) m := by
  induction ss generalizing m with
  | nil => rfl
  | cons s ss ih =>
    rw [List.foldl_cons, ih, dispatchActions]
    split
    · rename_i hd
      rw [List.foldl_cons, dispatch_signal_eq, if_pos hd]
    · rename_i hd
      rw [dispatch_signal_eq, if_neg hd]

theorem signal_dispatch_perform (he : dispatchEntry m.signals pid = some e) :
    signalDispatch m pid = (signalActions m pid).foldl (perform e) m := by
  unfold signalDispatch signalActions
  simp only [he]
  split
  · rfl
  · exact fold_perform m e _

/-- Performing an action takes its bit from the pending set and leaves the rest of the table. -/
theorem perform_signals (e : Fin sigTableSize) (m : Tasks) (a : SigAction) :
    (perform e m a).signals = Function.update m.signals e
      { m.signals e with pending := (m.signals e).pending &&& ~~~sigBit a.signo } := by
  cases a with
  | call handler s => rfl
  | default s => rfl

theorem perform_entry (e : Fin sigTableSize) (m : Tasks) (a : SigAction) : (perform e m a).signals e =
    { m.signals e with pending := (m.signals e).pending &&& ~~~sigBit a.signo } := by
  rw [perform_signals, Function.update_self]

@[simp] theorem action_signo (entry : SigEntry) (s : Nat) : (actionOf entry s).signo = s := by
  unfold actionOf
  split
  · rfl
  · rfl

/-- Looking at one signal leaves what is to be done about the others. -/
theorem dispatch_other (m : Tasks) (e : Fin sigTableSize) (hs : s ∈ (List.range sigMax).tail)
    (hr : r ∈ (List.range sigMax).tail) (h : r ≠ s) :
    (Deliverable (dispatchSignal m e s).signals e r ↔ Deliverable m.signals e r) ∧
      actionOf ((dispatchSignal m e s).signals e) r = actionOf (m.signals e) r := by
  rw [dispatch_signal_eq]
  split
  · unfold Deliverable
    rw [perform_entry, action_signo]
    simp only
    rw [Zombies.sig_bit_apart s hs r hr h]
    exact ⟨Iff.rfl, rfl⟩
  · exact ⟨Iff.rfl, rfl⟩

theorem dispatch_actions_eq (hss : ss.Nodup) (hin : ∀ s ∈ ss, s ∈ (List.range sigMax).tail) (m : Tasks)
    (e : Fin sigTableSize) : dispatchActions m e ss =
      (ss.filter (fun s => Deliverable m.signals e s)).map (actionOf (m.signals e)) := by
  induction ss generalizing m with
  | nil => rfl
  | cons s ss ih =>
    obtain ⟨hs, hnodup⟩ := List.nodup_cons.mp hss
    have hkeep : ∀ r ∈ ss, (Deliverable (dispatchSignal m e s).signals e r ↔ Deliverable m.signals e r) ∧
        actionOf ((dispatchSignal m e s).signals e) r = actionOf (m.signals e) r := by
      intro r hr
      apply dispatch_other m e (hin s List.mem_cons_self) (hin r (List.mem_cons_of_mem _ hr))
      rintro rfl
      exact hs hr
    have hrest : dispatchActions (dispatchSignal m e s) e ss =
        (ss.filter (fun s => Deliverable m.signals e s)).map (actionOf (m.signals e)) := by
      rw [ih hnodup (fun r hr => hin r (List.mem_cons_of_mem _ hr))]
      rw [List.filter_congr (fun r hr => decide_eq_decide.mpr (hkeep r hr).1)]
      exact List.map_congr_left (fun r hr => (hkeep r (List.mem_of_mem_filter hr)).2)
    rw [dispatchActions, hrest, List.filter_cons]
    simp only [decide_eq_true_eq]
    split
    · rfl
    · rfl

theorem mem_deliverable : s ∈ deliverable g e ↔ s ∈ (List.range sigMax).tail ∧ Deliverable g e s := by
  simp [deliverable]

theorem no_deliverable (h : (g e).pending = 0) : deliverable g e = [] := by
  refine List.filter_eq_nil_iff.mpr (fun s _ => ?_)
  simp [Deliverable, h]

/-- A dispatch acts on each signal that is pending and not masked, once and in ascending
order, as its disposition says. -/
theorem signal_actions_eq (he : dispatchEntry m.signals pid = some e) :
    signalActions m pid = (deliverable m.signals e).map (actionOf (m.signals e)) := by
  unfold signalActions
  simp only [he]
  split
  · rename_i hp
    rw [no_deliverable hp]
    rfl
  · exact dispatch_actions_eq (by decide) (fun s hs => hs) m e

/-- The actions of a loop write the pending set of their entry only. -/
theorem fold_signals (e : Fin sigTableSize) (acts : List SigAction) (m : Tasks) :
    (acts.foldl (perform e) m).signals = Function.update m.signals e { m.signals e with
      pending := (acts.map SigAction.signo).foldl (fun p s => p &&& ~~~sigBit s) (m.signals e).pending } := by
  induction acts generalizing m with
  | nil => simp
  | cons a acts ih =>
    rw [List.foldl_cons, ih, perform_signals]
    simp

theorem actions_signo (he : dispatchEntry m.signals pid = some e) :
    (signalActions m pid).map SigAction.signo = deliverable m.signals e := by
  have hid : SigAction.signo ∘ actionOf (m.signals e) = id := funext (action_signo (m.signals e))
  rw [signal_actions_eq he, List.map_map, hid, List.map_id]

/-- A dispatch takes the signals it delivers from the pending set of its entry. -/
theorem dispatch_table (he : dispatchEntry m.signals pid = some e) :
    (signalDispatch m pid).signals = Function.update m.signals e { m.signals e with
      pending := (deliverable m.signals e).foldl (fun p s => p &&& ~~~sigBit s) (m.signals e).pending } := by
  rw [signal_dispatch_perform he, fold_signals, actions_signo he]

theorem sig_bit_at : ∀ s ∈ (List.range sigMax).tail, ∀ k < 8,
    (sigBit s).toBitVec.getLsbD k = decide (k + 1 = s) := by
  decide

theorem clear_bit (hs : s ∈ (List.range sigMax).tail) {k : Nat} (hk : k < 8) (x : UInt8) :
    (x &&& ~~~sigBit s).toBitVec.getLsbD k = (x.toBitVec.getLsbD k && !decide (k + 1 = s)) := by
  rw [UInt8.toBitVec_and, UInt8.toBitVec_not, BitVec.getLsbD_and, BitVec.getLsbD_not, sig_bit_at s hs k hk]
  simp [hk]

/-- The bit of signal `s` is the one below. -/
theorem bit_set_iff (hs : s ∈ (List.range sigMax).tail) (x : UInt8) :
    x &&& sigBit s ≠ 0 ↔ x.toBitVec.getLsbD (s - 1) = true := by
  obtain ⟨hpos, hlast⟩ := signal_bounds hs
  have hback : s - 1 + 1 = s := by omega
  have hbit : ∀ k < 8, (x &&& sigBit s).toBitVec.getLsbD k = (x.toBitVec.getLsbD k && decide (k + 1 = s)) := by
    intro k hk
    rw [UInt8.toBitVec_and, BitVec.getLsbD_and, sig_bit_at s hs k hk]
  constructor
  · intro h
    by_contra hclear
    apply h
    apply UInt8.toBitVec_inj.mp
    apply BitVec.eq_of_getLsbD_eq
    intro k hk
    rw [hbit k hk]
    by_cases hks : k + 1 = s
    · have hk' : k = s - 1 := by omega
      simp [hk', hclear]
    · simp [hks]
  · intro h hz
    have hset := hbit (s - 1) (by omega)
    rw [hz, h, hback] at hset
    simp at hset

/-- Clearing the bits of some signals leaves the bits of the others. -/
theorem clear_bits (hin : ∀ s ∈ ss, s ∈ (List.range sigMax).tail) (x : UInt8) {k : Nat} (hk : k < 8) :
    (ss.foldl (fun p s => p &&& ~~~sigBit s) x).toBitVec.getLsbD k =
      (x.toBitVec.getLsbD k && decide (k + 1 ∉ ss)) := by
  induction ss generalizing x with
  | nil => simp
  | cons s ss ih =>
    rw [List.foldl_cons, ih (fun r hr => hin r (List.mem_cons_of_mem _ hr)),
      clear_bit (hin s List.mem_cons_self) hk, Bool.and_assoc]
    congr 1
    by_cases hks : k + 1 = s
    · simp [hks]
    · simp [hks]

theorem signal_in_range {k : Nat} (hk : k < 6) : k + 1 ∈ (List.range sigMax).tail := by
  revert k
  decide

/-- Of the pending signals, the ones that are masked are left. -/
theorem pending_left (hp : (g e).pending < 64) :
    (deliverable g e).foldl (fun p s => p &&& ~~~sigBit s) (g e).pending = (g e).pending &&& (g e).mask := by
  have hin : ∀ s ∈ deliverable g e, s ∈ (List.range sigMax).tail := fun s hs => (mem_deliverable.mp hs).1
  have hhigh : ∀ k, 6 ≤ k → (g e).pending.toBitVec.getLsbD k = false := by
    intro k hk
    apply Nat.testBit_lt_two_pow
    calc (g e).pending.toNat < 2 ^ 6 := hp
      _ ≤ 2 ^ k := Nat.pow_le_pow_right (by decide) hk
  apply UInt8.toBitVec_inj.mp
  apply BitVec.eq_of_getLsbD_eq
  intro k hk
  rw [clear_bits hin _ hk, UInt8.toBitVec_and, BitVec.getLsbD_and]
  by_cases hk6 : k < 6
  · have hmem := signal_in_range hk6
    have hpend := bit_set_iff hmem (g e).pending
    have hmask := bit_set_iff hmem (g e).mask
    rw [Nat.add_sub_cancel] at hpend hmask
    have hdel : k + 1 ∈ deliverable g e ↔
        (g e).pending.toBitVec.getLsbD k = true ∧ ¬ (g e).mask.toBitVec.getLsbD k = true := by
      rw [← hpend, ← hmask, not_not, mem_deliverable]
      exact ⟨fun h => h.2, fun h => ⟨hmem, h⟩⟩
    rw [Bool.eq_iff_iff]
    simp only [Bool.and_eq_true, decide_eq_true_eq, hdel]
    constructor
    · rintro ⟨hpk, hno⟩
      exact ⟨hpk, by_contra (fun hmk => hno ⟨hpk, hmk⟩)⟩
    · rintro ⟨hpk, hmk⟩
      exact ⟨hpk, fun hd => hd.2 hmk⟩
  · rw [hhigh k (by omega), Bool.false_and, Bool.false_and]

/-- After a dispatch a signal is pending if it was and has not been delivered. -/
theorem dispatch_pending (he : dispatchEntry m.signals pid = some e) (hs : s ∈ (List.range sigMax).tail) :
    ((signalDispatch m pid).signals e).pending &&& sigBit s ≠ 0 ↔
      (m.signals e).pending &&& sigBit s ≠ 0 ∧ s ∉ deliverable m.signals e := by
  obtain ⟨hpos, hlast⟩ := signal_bounds hs
  have hin : ∀ r ∈ deliverable m.signals e, r ∈ (List.range sigMax).tail :=
    fun r hr => (mem_deliverable.mp hr).1
  have hback : s - 1 + 1 = s := by omega
  rw [bit_set_iff hs, bit_set_iff hs, dispatch_table he, Function.update_self, clear_bits hin _ (by omega), hback]
  simp

/-- The last entry in use for a pid, and the only one where no pid has two. -/
theorem dispatch_entry_of (h : dispatchEntry g pid = some e) : EntryOf g pid e := by
  have he := List.find?_some h
  simpa [EntryOf] using he

theorem SingleEntries.dispatch_entry (h : SingleEntries g) (he : EntryOf g pid e) :
    dispatchEntry g pid = some e := by
  cases hd : dispatchEntry g pid with
  | none =>
    have hno := List.find?_eq_none.mp hd e (by simp)
    have hyes : ((g e).used && (g e).pid == pid) = true := by simpa [EntryOf] using he
    exact absurd hyes hno
  | some d => rw [h pid d e (dispatch_entry_of hd) he]

theorem SingleEntries.same {h : SigTable} (hg : SingleEntries g) (hsame : SameEntries g h) : SingleEntries h := by
  intro pid i j hi hj
  exact hg pid i j (hsame.entry_iff.mp hi) (hsame.entry_iff.mp hj)

/-- An entry is taken for a pid only when it has none. -/
theorem SingleEntries.find (h : SingleEntries g) (pid : UInt32) : SingleEntries (findOrAlloc g pid).2 := by
  rcases find_or_alloc_cases g pid with ⟨i, -, hfind⟩ | ⟨hno, ⟨i, -, -, hfind⟩ | ⟨-, hfind⟩⟩
  · rw [hfind]
    exact h
  · rw [hfind]
    have hother : ∀ q k, EntryOf (taken g pid i) q k → k ≠ i → EntryOf g q k ∧ q ≠ pid := by
      intro q k hk hki
      unfold EntryOf taken at hk
      rw [Function.update_of_ne hki] at hk
      refine ⟨hk, ?_⟩
      rintro rfl
      exact hno k hk
    have hown : ∀ q, EntryOf (taken g pid i) q i → q = pid := by
      intro q hq
      unfold EntryOf taken at hq
      rw [Function.update_self] at hq
      exact hq.2.symm
    intro q j k hj hk
    by_cases hji : j = i
    · by_cases hki : k = i
      · rw [hji, hki]
      · rw [hji] at hj
        exact absurd (hown q hj) (hother q k hk hki).2
    · by_cases hki : k = i
      · rw [hki] at hk
        exact absurd (hown q hk) (hother q j hj hji).2
      · exact h q j k (hother q j hj hji).1 (hother q k hk hki).1
  · rw [hfind]
    exact h

/-- No operation gives a pid a second entry. -/
theorem SingleEntries.step {k : SchedState} (h : SingleEntries k.tasks.signals) (op : CallOp) :
    SingleEntries (callStep k op).2.tasks.signals := by
  have hsame := step_entries k op
  cases ha : addressed op with
  | none =>
    rw [ha] at hsame
    exact h.same hsame
  | some pid =>
    rw [ha] at hsame
    exact (h.find pid).same hsame

theorem single_entries_boot (tableAddr : UInt32) : SingleEntries (kmainTasks tableAddr).tasks.signals := by
  rintro pid i j ⟨hi, -⟩ -
  cases hi

/-- In every state after boot no pid has two entries. -/
theorem single_entries (tableAddr : UInt32) (ops : List CallOp) :
    SingleEntries (run callStep (kmainTasks tableAddr) ops).2.tasks.signals :=
  run_invariant (I := fun k : SchedState => SingleEntries k.tasks.signals) (Q := fun _ => True)
    (fun _ op _ h => h.step op) (fun _ _ => trivial) (single_entries_boot tableAddr)

end BaSic.Proofs.Dispatch
