import BaSic.Proofs.Dispatch

namespace BaSic.Proofs.SignalTarget
open Kernel TaskTable Dispatch

section Target

/-- The default action of signal `s` on a process's state and exit code. -/
def effect (x : ProcState × Int) (s : Nat) : ProcState × Int :=
  if s = sigKill ∨ s = sigTerm then (.zombie, -(s : Int))
  else if s = sigStop then (.sleeping, x.2)
  else if s = sigCont then (.ready, x.2)
  else x

/-- The default actions of some signals, one after the other. -/
def outcome (ss : List Nat) (x : ProcState × Int) : ProcState × Int := ss.foldl effect x

def vitals (p : Process) : ProcState × Int := (p.state, p.exitCode)

/-- The process whose pid is `pid`. -/
def target (t : ProcTable) (pid : UInt32) : Option (Fin procMax) := firstSlot t (fun p => p.pid == pid)

/-- The signals a dispatch for the pid delivers. -/
def signalsFor (g : SigTable) (pid : UInt32) : List Nat :=
  match dispatchEntry g pid with
  | none => []
  | some e => deliverable g e

/-- The pid's dispositions are all SIG_DFL. -/
def Defaults (g : SigTable) (pid : UInt32) : Prop :=
  ∀ e, dispatchEntry g pid = some e → ∀ s ∈ (List.range sigMax).tail, (g e).handlers (s - 1) = sigDfl

instance (g : SigTable) (pid : UInt32) : Decidable (Defaults g pid) :=
  inferInstanceAs (Decidable (∀ _, _ → ∀ _ ∈ _, _))

/-- The dispatch acts on the process with the pid, and on no other. -/
def OnTarget (m : Tasks) (pid : UInt32) : Prop :=
  ∀ i, vitals ((signalDispatch m pid).procs.slot i) =
    if some i = target m.procs pid then outcome (signalsFor m.signals pid) (vitals (m.procs.slot i))
    else vitals (m.procs.slot i)

variable {m : Tasks} {t : ProcTable} {pid : UInt32} {e : Fin sigTableSize} {i : Fin procMax} {s : Nat}

theorem default_vitals (t : ProcTable) (s : Nat) (i : Fin procMax) : vitals ((defaultAction t s).slot i) =
    if some i = procCurrent t then effect (vitals (t.slot i)) s else vitals (t.slot i) := by
  unfold defaultAction
  cases procCurrent t with
  | none => simp
  | some c =>
    by_cases hi : i = c
    · subst hi
      simp only [↓reduceIte, effect]
      split_ifs
      · rw [set_slot_self]
        rfl
      · rw [set_state_self]
        rfl
      · rw [set_state_self]
        rfl
      · rfl
    · simp only [Option.some.injEq, hi, ↓reduceIte]
      split_ifs
      · rw [set_slot_ne t _ hi]
      · rw [set_state_ne t _ hi]
      · rw [set_state_ne t _ hi]
      · rfl

/-- A row of default actions falls on the current process. -/
theorem defaults_vitals (ss : List Nat) (t : ProcTable) (i : Fin procMax) :
    vitals ((ss.foldl defaultAction t).slot i) =
      if some i = procCurrent t then outcome ss (vitals (t.slot i)) else vitals (t.slot i) := by
  induction ss generalizing t with
  | nil => simp [outcome]
  | cons s ss ih =>
    rw [List.foldl_cons, ih, Zombies.default_current, default_vitals]
    by_cases hi : some i = procCurrent t
    · rw [if_pos hi, if_pos hi, if_pos hi]
      rfl
    · rw [if_neg hi, if_neg hi, if_neg hi]

theorem perform_defaults (e : Fin sigTableSize) (ss : List Nat) (m : Tasks) :
    ((ss.map SigAction.default).foldl (perform e) m).procs = ss.foldl defaultAction m.procs := by
  induction ss generalizing m with
  | nil => rfl
  | cons s ss ih =>
    rw [List.map_cons, List.foldl_cons, ih, List.foldl_cons]
    rfl

/-- With default dispositions whatever is delivered falls on the current process, whoever
it is for. -/
theorem dispatch_vitals (h : Defaults m.signals pid) (i : Fin procMax) :
    vitals ((signalDispatch m pid).procs.slot i) =
      if some i = procCurrent m.procs then outcome (signalsFor m.signals pid) (vitals (m.procs.slot i))
      else vitals (m.procs.slot i) := by
  unfold signalsFor
  cases he : dispatchEntry m.signals pid with
  | none =>
    unfold signalDispatch
    simp [he, outcome]
  | some e =>
    have hacts : signalActions m pid = (deliverable m.signals e).map SigAction.default := by
      rw [signal_actions_eq he]
      refine List.map_congr_left (fun s hs => ?_)
      have hdfl := h e he s (List.mem_of_mem_filter hs)
      unfold actionOf
      rw [hdfl, if_neg (by decide)]
    rw [signal_dispatch_perform he, hacts, perform_defaults, defaults_vitals]

/-- A dispatch acts on the process it is for, and on no other, if and only if that process
is the current one or neither it nor the current process is changed by what is delivered. -/
theorem on_target_iff (h : Defaults m.signals pid) : OnTarget m pid ↔
    procCurrent m.procs = target m.procs pid ∨
      ∀ i, some i = procCurrent m.procs ∨ some i = target m.procs pid →
        outcome (signalsFor m.signals pid) (vitals (m.procs.slot i)) = vitals (m.procs.slot i) := by
  unfold OnTarget
  simp only [dispatch_vitals h]
  by_cases hsame : procCurrent m.procs = target m.procs pid
  · rw [hsame]
    exact iff_of_true (fun i => rfl) (Or.inl rfl)
  · rw [or_iff_right hsame]
    constructor
    · intro hon i hi
      rcases hi with hi | hi
      · have hne : some i ≠ target m.procs pid := fun ht => hsame (hi.symm.trans ht)
        have hon := hon i
        rwa [if_pos hi, if_neg hne] at hon
      · have hne : some i ≠ procCurrent m.procs := fun hc => hsame (hc.symm.trans hi)
        have hon := hon i
        rw [if_neg hne, if_pos hi] at hon
        exact hon.symm
    · intro hidle i
      split_ifs with hc ht ht
      · rfl
      · exact hidle i (Or.inl hc)
      · exact (hidle i (Or.inr ht)).symm
      · rfl

/-- The shell, a program with pid 2, and a signal for one of them. -/
def shellAndProgram (pid : UInt32) (signo : Int) : Tasks :=
  let k := (kmainTasks 0x120000).tasks
  { k with procs := (sysExec k.procs 0x400000).2, signals := signalSend k.signals pid signo }

/-- A SIGSTOP for the shell, which is current. -/
theorem shell_stopped : OnTarget (shellAndProgram 1 sigStop) 1 :=
  (on_target_iff (by decide)).mpr (Or.inl (by decide))

/-- A SIGKILL for the program, dispatched while the shell is current, kills the shell. -/
theorem shell_killed_for_program :
    let m := shellAndProgram 2 sigKill
    target m.procs 2 = some 1 ∧ procCurrent m.procs = some 0 ∧
      vitals ((signalDispatch m 2).procs.slot 0) = (.zombie, -2) ∧
        vitals ((signalDispatch m 2).procs.slot 1) = (.ready, 0) ∧ ¬ OnTarget m 2 := by
  intro m
  have hshell : vitals ((signalDispatch m 2).procs.slot 0) = (.zombie, -2) := by decide
  refine ⟨by decide, by decide, hshell, by decide, fun hon => ?_⟩
  have hon := hon 0
  rw [hshell] at hon
  revert hon
  decide

end Target

section Disposed
open SigTable

/-- What a disposition asks for when signal `s` is delivered: the default action, nothing,
or a call of the handler. -/
def asked (handler : UInt32) (s : Nat) : Option SigAction :=
  if handler = sigDfl then some (.default s)
  else if handler = sigIgn then none
  else some (.call handler s)

/-- Delivering signal `s` of the entry as its disposition asks. -/
def deliver (e : Fin sigTableSize) (m : Tasks) (s : Nat) : Tasks :=
  match asked ((m.signals e).handlers (s - 1)) s with
  | some a => perform e m a
  | none =>
    let entry := { m.signals e with pending := (m.signals e).pending &&& ~~~sigBit s }
    { m with signals := Function.update m.signals e entry }

/-- The dispatch does what the dispositions of the delivered signals ask for, in order, and
nothing else. -/
def AsDisposed (m : Tasks) (pid : UInt32) : Prop :=
  ∀ e, dispatchEntry m.signals pid = some e →
    signalActions m pid =
        (deliverable m.signals e).filterMap (fun s => asked ((m.signals e).handlers (s - 1)) s) ∧
      signalDispatch m pid = (deliverable m.signals e).foldl (deliver e) m

variable {m : Tasks} {g : SigTable} {pid handler : UInt32} {e i : Fin sigTableSize} {s : Nat} {ss : List Nat}
  {entry : SigEntry} {signo : Int}

theorem asked_iff (handler : UInt32) (s : Nat) : asked handler s ≠ none ↔ handler ≠ sigIgn := by
  unfold asked
  split_ifs with hdfl hign
  · rw [hdfl]
    exact iff_of_true nofun (by decide)
  · exact iff_of_false (not_not.mpr rfl) (not_not.mpr hign)
  · exact iff_of_true nofun hign

/-- Unless it is ignored, a signal is acted on as its disposition asks. -/
theorem asked_action (h : entry.handlers (s - 1) ≠ sigIgn) :
    asked (entry.handlers (s - 1)) s = some (actionOf entry s) := by
  unfold asked actionOf
  by_cases hdfl : entry.handlers (s - 1) = sigDfl
  · rw [if_pos hdfl, hdfl, if_neg (by decide)]
  · have hlarge : entry.handlers (s - 1) > 1 := by
      have hz : entry.handlers (s - 1) ≠ 0 := hdfl
      have hone : entry.handlers (s - 1) ≠ 1 := h
      generalize entry.handlers (s - 1) = x at hz hone ⊢
      rw [gt_iff_lt, UInt32.lt_iff_toNat_lt]
      have hz' : x.toNat ≠ 0 := fun hx => hz (UInt32.toNat_inj.mp hx)
      have hone' : x.toNat ≠ 1 := fun hx => hone (UInt32.toNat_inj.mp hx)
      have h1 : (1 : UInt32).toNat = 1 := rfl
      omega
    rw [if_neg hdfl, if_neg h, if_pos hlarge]

theorem deliver_eq (h : (m.signals e).handlers (s - 1) ≠ sigIgn) :
    deliver e m s = perform e m (actionOf (m.signals e) s) := by
  unfold deliver
  rw [asked_action h]

/-- Delivering signals none of which is ignored is performing what the loop decides. -/
theorem deliver_all (hss : ∀ s ∈ ss, (m.signals e).handlers (s - 1) ≠ sigIgn) :
    ss.foldl (deliver e) m = (ss.map (actionOf (m.signals e))).foldl (perform e) m := by
  induction ss generalizing m with
  | nil => rfl
  | cons s ss ih =>
    have hs := hss s List.mem_cons_self
    have hentry := perform_entry e m (actionOf (m.signals e) s)
    have hsame : ∀ r, actionOf ((perform e m (actionOf (m.signals e) s)).signals e) r =
        actionOf (m.signals e) r := by
      intro r
      rw [hentry]
      rfl
    rw [List.foldl_cons, deliver_eq hs, ih, List.map_cons, List.foldl_cons]
    · rw [List.map_congr_left (fun r _ => hsame r)]
    · intro r hr
      rw [hentry]
      exact hss r (List.mem_cons_of_mem _ hr)

/-- The disposition a dispatch finds is the one `signal_set_handler` has set. -/
theorem set_handler_found (hg : SingleEntries g) (he : EntryOf g pid e) (h : 1 ≤ signo) (h' : signo < sigMax)
    (handler : UInt32) :
    dispatchEntry (signalSetHandler g pid signo handler) pid = some e ∧
      (signalSetHandler g pid signo handler e).handlers (signo.toNat - 1) = handler := by
  have hvalid := signo_valid h h'
  have hsame := (set_handler_grows g pid handler hvalid).entries
  have hnow : SingleEntries (signalSetHandler g pid signo handler) := (hg.find pid).same hsame
  rcases find_or_alloc_cases g pid with ⟨i, hi, hfind⟩ | ⟨hno, -⟩
  · have hie : i = e := hg pid i e hi he
    subst hie
    have hentry : EntryOf (signalSetHandler g pid signo handler) pid i := by
      rw [hsame.entry_iff, hfind]
      exact hi
    refine ⟨hnow.dispatch_entry hentry, ?_⟩
    unfold signalSetHandler
    rw [if_neg hvalid, hfind]
    simp only [Function.update_self]
  · exact absurd he (hno e)

/-- A dispatch follows the dispositions if and only if none of the signals it delivers is
to be ignored. -/
theorem as_disposed_iff (m : Tasks) (pid : UInt32) : AsDisposed m pid ↔
    ∀ e, dispatchEntry m.signals pid = some e → ∀ s ∈ deliverable m.signals e,
      (m.signals e).handlers (s - 1) ≠ sigIgn := by
  constructor
  · intro h e he s hs hign
    obtain ⟨hacts, -⟩ := h e he
    -- the loop has an action on `s`, and its disposition asks for none
    have hmem : actionOf (m.signals e) s ∈ signalActions m pid := by
      rw [signal_actions_eq he]
      exact List.mem_map_of_mem hs
    rw [hacts] at hmem
    obtain ⟨r, -, hr⟩ := List.mem_filterMap.mp hmem
    have hrne : (m.signals e).handlers (r - 1) ≠ sigIgn := by
      rw [← asked_iff _ r, hr]
      exact nofun
    rw [asked_action hrne, Option.some.injEq] at hr
    have hsigno := congrArg SigAction.signo hr
    rw [action_signo, action_signo] at hsigno
    rw [hsigno] at hrne
    exact hrne hign
  · intro h e he
    have hnone := h e he
    constructor
    · rw [signal_actions_eq he, ← List.filterMap_eq_map]
      exact List.filterMap_congr (fun s hs => (asked_action (hnone s hs)).symm)
    · rw [signal_dispatch_perform he, signal_actions_eq he, deliver_all hnone]

/-- The shell ignores SIGTERM, and is sent one. -/
def shellIgnoring : Tasks :=
  let k := (sysSigaction (kmainTasks 0x120000).tasks sigTerm sigIgn).2
  { k with signals := signalSend k.signals 1 sigTerm }

theorem ignored_signal_kills :
    (shellIgnoring.signals 0).handlers (sigTerm - 1) = sigIgn ∧
      signalActions shellIgnoring 1 = [.default sigTerm] ∧
        ((signalDispatch shellIgnoring 1).procs.slot 0).state = .zombie ∧ ¬ AsDisposed shellIgnoring 1 := by
  refine ⟨by decide, by decide, by decide, fun h => ?_⟩
  have hacts := (h 0 (by decide)).1
  revert hacts
  decide

end Disposed

end BaSic.Proofs.SignalTarget
