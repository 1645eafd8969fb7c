import BaSic.Proofs.SysCalls
import BaSic.Lib.Steps
import BaSic.Fs.Ramfs
import BaSic.Kernel.Pipe
import BaSic.Lib.Fifo

namespace BaSic.Proofs.PipePool
open Kernel Fs Lib FdTable SysCalls

section Pool

variable {F N : Type}

/-- An open entry through which pipe `p` is read or written. -/
def EntryRefers (e : FdEntry N) (p : Fin pipeMax) : Prop := e.opened = true ∧ e.isPipe = true ∧ e.pipe = some p

instance entry_refers_decidable (e : FdEntry N) (p : Fin pipeMax) : Decidable (EntryRefers e p) :=
  inferInstanceAs (Decidable (_ ∧ _ ∧ _))

def Refers (s : SysState F N) (i : Fin fdMax) (p : Fin pipeMax) : Prop := EntryRefers (s.fds.table i) p

instance refers_decidable (s : SysState F N) (i : Fin fdMax) (p : Fin pipeMax) : Decidable (Refers s i p) :=
  entry_refers_decidable _ _

/-- A pipe of the pool is marked used exactly when some open descriptor refers to it. -/
def UsedIffOpen (s : SysState F N) : Prop := ∀ p, s.fds.used p = true ↔ ∃ i, Refers s i p

instance used_iff_open_decidable (s : SysState F N) : Decidable (UsedIffOpen s) :=
  inferInstanceAs (Decidable (∀ _, _ ↔ _))

/-- A call of `sys_pipe` that fails leaves descriptors and pipes as they were. -/
def FailsClean (s : SysState F N) (op : SysOp) : Prop :=
  op = .pipe → (sysPipe s).1.1 = -1 → (sysPipe s).2.fds.table = s.fds.table ∧
    (sysPipe s).2.fds.pool = s.fds.pool ∧ (sysPipe s).2.fds.used = s.fds.used

def Balanced (ops : VfsOps F N) (s : SysState F N) (op : SysOp) : Prop :=
  UsedIffOpen (sysStep ops s op).2 ∧ FailsClean s op

/-- Descriptor `i` is the only open one for its pipe. -/
def LastRef (s : SysState F N) (i : Fin fdMax) : Prop := ∃ p, Refers s i p ∧ ∀ j, j ≠ i → ¬ Refers s j p

/-- No call closes or overwrites the last descriptor of a pipe, and `sys_pipe` finds two
descriptors free whenever it finds a pipe free. -/
def KeepsPipes (s : SysState F N) : SysOp → Prop
  | .pipe => (∀ p, s.fds.used p = true) ∨
      ∃ i j, i ≠ j ∧ (s.fds.table i).opened = false ∧ (s.fds.table j).opened = false
  | .close fd => ∀ i, fdSlot fd = some i → ¬ LastRef s i
  | .dup2 oldfd newfd => ∀ i j, openSlot s.fds oldfd = some i → fdSlot newfd = some j → ¬ LastRef s j
  | _ => True

/-- Whatever pipe a slot was last filled with is marked used. -/
def PipesUsed (s : SysState F N) : Prop :=
  ∀ i, (s.fds.table i).isPipe = true → ∃ p, (s.fds.table i).pipe = some p ∧ s.fds.used p = true

variable {ops : VfsOps F N} {s : SysState F N} {fds : FdState F N} {i : Fin fdMax} {p : Fin pipeMax} {e : FdEntry N}

/-- The state with another entry in slot `i`. -/
def withEntry (s : SysState F N) (i : Fin fdMax) (e : FdEntry N) : SysState F N :=
  { s with fds := s.fds.setEntry i e }

theorem refers_self (s : SysState F N) (i : Fin fdMax) (e : FdEntry N) (p : Fin pipeMax) :
    Refers (withEntry s i e) i p ↔ EntryRefers e p := by
  unfold Refers withEntry
  rw [set_entry_self]

theorem refers_ne (s : SysState F N) (e : FdEntry N) {j : Fin fdMax} (h : j ≠ i) (p : Fin pipeMax) :
    Refers (withEntry s i e) j p ↔ Refers s j p := by
  unfold Refers withEntry
  rw [set_entry_ne s.fds e h]

theorem not_refers_closed (h : e.opened = false) : ¬ EntryRefers e p := by
  rintro ⟨hopen, -⟩
  rw [h] at hopen
  cases hopen

/-- Overwriting a slot with an entry for pipes others refer to as well goes well exactly
when it was not the last one for its own pipe. -/
theorem overwrite_iff (h : UsedIffOpen s) (i : Fin fdMax) (e : FdEntry N)
    (he : ∀ p, EntryRefers e p → ∃ j, j ≠ i ∧ Refers s j p) :
    UsedIffOpen (withEntry s i e) ↔ ¬ LastRef s i := by
  have hused : ∀ p, (withEntry s i e).fds.used p = s.fds.used p := fun _ => rfl
  constructor
  · rintro hall ⟨p, hp, hlast⟩
    obtain ⟨j, hj⟩ := (hall p).mp ((hused p).trans ((h p).mpr ⟨i, hp⟩))
    by_cases hji : j = i
    · rw [hji, refers_self] at hj
      obtain ⟨l, hl, hlp⟩ := he p hj
      exact hlast l hl hlp
    · exact hlast j hji ((refers_ne s e hji p).mp hj)
  · intro hlast p
    rw [hused, h p]
    constructor
    · rintro ⟨j, hj⟩
      by_cases hji : j = i
      · subst hji
        by_contra hnone
        refine hlast ⟨p, hj, fun l hl hlp => hnone ⟨l, ?_⟩⟩
        exact (refers_ne s e hl p).mpr hlp
      · exact ⟨j, (refers_ne s e hji p).mpr hj⟩
    · rintro ⟨j, hj⟩
      by_cases hji : j = i
      · rw [hji, refers_self] at hj
        obtain ⟨l, -, hlp⟩ := he p hj
        exact ⟨l, hlp⟩
      · exact ⟨j, (refers_ne s e hji p).mp hj⟩

theorem PipesUsed.set (h : PipesUsed s) (i : Fin fdMax) (e : FdEntry N)
    (he : e.isPipe = true → ∃ p, e.pipe = some p ∧ s.fds.used p = true) : PipesUsed (withEntry s i e) := by
  intro j
  unfold withEntry
  by_cases hj : j = i
  · rw [hj, set_entry_self]
    exact he
  · rw [set_entry_ne s.fds e hj]
    exact h j

/-- The same pipes are used, and referred to by the same descriptors. -/
structure SameRefs (s t : FdState F N) : Prop where
  used : t.used = s.used
  entry : ∀ i, (t.table i).opened = (s.table i).opened ∧ (t.table i).isPipe = (s.table i).isPipe ∧
    (t.table i).pipe = (s.table i).pipe

theorem same_refs (s : FdState F N) : SameRefs s s := ⟨rfl, fun _ => ⟨rfl, rfl, rfl⟩⟩

/-- Moving an offset keeps the references. -/
theorem same_refs_offset (h : fds.used = s.fds.used) (i : Fin fdMax) (offset : UInt32)
    (htable : fds.table = Function.update s.fds.table i { s.fds.table i with offset := offset }) :
    SameRefs s.fds fds := by
  refine ⟨h, fun j => ?_⟩
  rw [htable]
  by_cases hj : j = i
  · rw [hj, Function.update_self]
    exact ⟨rfl, rfl, rfl⟩
  · rw [Function.update_of_ne hj]
    exact ⟨rfl, rfl, rfl⟩

theorem UsedIffOpen.same (h : UsedIffOpen s) (hsame : SameRefs s.fds fds) : UsedIffOpen { s with fds := fds } := by
  intro p
  have hrefers : ∀ i, Refers { s with fds := fds } i p ↔ Refers s i p := by
    intro i
    unfold Refers EntryRefers
    rw [(hsame.entry i).1, (hsame.entry i).2.1, (hsame.entry i).2.2]
  rw [exists_congr hrefers, ← h p]
  dsimp only
  rw [hsame.used]

theorem PipesUsed.same (h : PipesUsed s) (hsame : SameRefs s.fds fds) : PipesUsed { s with fds := fds } := by
  intro i
  dsimp only
  rw [(hsame.entry i).2.1, (hsame.entry i).2.2, hsame.used]
  exact h i

theorem read_same {fd : Int} {count : UInt32} {r : Int × List UInt8} (h : fdRead ops s.fds fd count = .ok (r, fds)) :
    SameRefs s.fds fds := by
  unfold fdRead at h
  cases hi : openSlot s.fds fd with
  | none =>
    rw [hi] at h
    cases h
    exact same_refs _
  | some i =>
    rw [hi] at h
    dsimp only at h
    split at h
    · cases hp : (s.fds.table i).pipe with
      | none =>
        rw [hp] at h
        cases h
      | some p =>
        rw [hp] at h
        cases h
        exact ⟨rfl, fun _ => ⟨rfl, rfl, rfl⟩⟩
    · cases hv : vfsRead ops s.fds.fs (s.fds.table i).node (s.fds.table i).offset count with
      | error f =>
        rw [hv] at h
        cases h
      | ok buf =>
        rw [hv] at h
        cases h
        exact same_refs_offset rfl i _ rfl

theorem write_same {fd n : Int} {buf : List UInt8} (h : fdWrite ops s.fds fd buf = .ok (n, fds)) :
    SameRefs s.fds fds := by
  unfold fdWrite at h
  cases hi : openSlot s.fds fd with
  | none =>
    rw [hi] at h
    cases h
    exact same_refs _
  | some i =>
    rw [hi] at h
    dsimp only at h
    split at h
    · cases hp : (s.fds.table i).pipe with
      | none =>
        rw [hp] at h
        cases h
      | some p =>
        rw [hp] at h
        cases h
        exact ⟨rfl, fun _ => ⟨rfl, rfl, rfl⟩⟩
    · cases hv : vfsWrite ops s.fds.fs (s.fds.table i).node (s.fds.table i).offset buf with
      | error f =>
        rw [hv] at h
        cases h
      | ok r =>
        rw [hv] at h
        cases h
        exact same_refs_offset rfl i _ rfl

/-- A slot reopened for a file gets a second reference to the pipe its flag is still set for. -/
theorem UsedIffOpen.reopen (h : UsedIffOpen s) (hpipes : PipesUsed s) (hclosed : (s.fds.table i).opened = false)
    (hflag : e.isPipe = (s.fds.table i).isPipe) (hpipe : e.pipe = (s.fds.table i).pipe) :
    UsedIffOpen (withEntry s i e) := by
  refine (overwrite_iff h i e (fun p hp => ?_)).mpr ?_
  · obtain ⟨q, hq, hused⟩ := hpipes i (hflag.symm.trans hp.2.1)
    have hqp : q = p := Option.some.inj (hq.symm.trans (hpipe.symm.trans hp.2.2))
    obtain ⟨j, hj⟩ := (h q).mp hused
    refine ⟨j, ?_, hqp ▸ hj⟩
    rintro rfl
    exact not_refers_closed hclosed hj
  · rintro ⟨p, hp, -⟩
    exact not_refers_closed hclosed hp

variable (ops) in
theorem open_step (hpipes : PipesUsed s) (h : UsedIffOpen s) (path : List UInt8) :
    PipesUsed (sysStep ops s (.openPath path)).2 ∧ UsedIffOpen (sysStep ops s (.openPath path)).2 := by
  unfold sysStep
  dsimp only
  rcases open_cases ops s path with ⟨-, hrun⟩ | ⟨node, i, -, hi, hrun⟩
  · rw [hrun]
    exact ⟨hpipes, h⟩
  · rw [hrun]
    exact ⟨hpipes.set i _ (hpipes i), h.reopen hpipes (free_slot_closed hi) rfl rfl⟩

variable (ops) in
theorem close_step (hpipes : PipesUsed s) (h : UsedIffOpen s) (fd : Int) :
    PipesUsed (sysStep ops s (.close fd)).2 ∧
      (UsedIffOpen (sysStep ops s (.close fd)).2 ↔ KeepsPipes s (.close fd)) := by
  unfold sysStep sysClose
  dsimp only
  cases hi : fdSlot fd with
  | none =>
    have hsame : fdClose s.fds fd = s.fds := by
      unfold fdClose
      rw [hi]
    rw [hsame]
    refine ⟨hpipes, iff_of_true h (fun i hi' => ?_)⟩
    rw [hi] at hi'
    cases hi'
  | some i =>
    rw [close_some hi]
    refine ⟨hpipes.set i _ (hpipes i), ?_⟩
    refine (overwrite_iff h i (closedEntry (s.fds.table i)) (fun p hp => ?_)).trans ?_
    · exact absurd hp (not_refers_closed rfl)
    · constructor
      · intro hlast j hj
        cases hi.symm.trans hj
        exact hlast
      · exact fun hlast => hlast i hi

variable (ops) in
theorem dup2_step (hpipes : PipesUsed s) (h : UsedIffOpen s) (oldfd newfd : Int) :
    PipesUsed (sysStep ops s (.dup2 oldfd newfd)).2 ∧
      (UsedIffOpen (sysStep ops s (.dup2 oldfd newfd)).2 ↔ KeepsPipes s (.dup2 oldfd newfd)) := by
  unfold sysStep sysDup2
  dsimp only
  by_cases hnone : openSlot s.fds oldfd = none ∨ fdSlot newfd = none
  · rw [dup2_none hnone]
    refine ⟨hpipes, iff_of_true h (fun i j hi hj => ?_)⟩
    rcases hnone with hnone | hnone
    · rw [hnone] at hi
      cases hi
    · rw [hnone] at hj
      cases hj
  · rw [not_or] at hnone
    obtain ⟨old, hold⟩ := Option.ne_none_iff_exists'.mp hnone.1
    obtain ⟨new, hnew⟩ := Option.ne_none_iff_exists'.mp hnone.2
    rw [dup2_some hold hnew]
    refine ⟨hpipes.set new _ ?_, ?_⟩
    · split
      · exact hpipes new
      · exact hpipes old
    refine (overwrite_iff h new _ (fun p hp => ?_)).trans ?_
    · -- the new entry is a copy of another one, unless the slot was closed
      by_cases hsame : old = new
      · rw [if_pos hsame] at hp
        exact absurd hp (not_refers_closed rfl)
      · rw [if_neg hsame] at hp
        exact ⟨old, hsame, hp⟩
    · constructor
      · intro hlast i j _ hj
        cases hnew.symm.trans hj
        exact hlast
      · exact fun hlast => hlast old new hold hnew

variable (ops) in
theorem read_step (hpipes : PipesUsed s) (h : UsedIffOpen s) (fd : Int) (count : UInt32) :
    PipesUsed (sysStep ops s (.read fd count)).2 ∧ UsedIffOpen (sysStep ops s (.read fd count)).2 := by
  cases hr : fdRead ops s.fds fd count with
  | error f =>
    rw [read_fault hr]
    exact ⟨hpipes, h⟩
  | ok r =>
    rw [read_ok hr]
    exact ⟨hpipes.same (read_same hr), h.same (read_same hr)⟩

variable (ops) in
theorem write_step (hpipes : PipesUsed s) (h : UsedIffOpen s) (fd : Int) (buf : List UInt8) :
    PipesUsed (sysStep ops s (.write fd buf)).2 ∧ UsedIffOpen (sysStep ops s (.write fd buf)).2 := by
  by_cases hscreen : fd = 1 ∨ fd = 2
  · rw [write_screen ops s buf hscreen]
    exact ⟨hpipes, h⟩
  · cases hr : fdWrite ops s.fds fd buf with
    | error f =>
      rw [write_fault hscreen hr]
      exact ⟨hpipes, h⟩
    | ok r =>
      rw [write_ok hscreen hr]
      exact ⟨hpipes.same (write_same hr), h.same (write_same hr)⟩

/-- Both ends of a new pipe opened. -/
def piped (s : SysState F N) (p : Fin pipeMax) (i j : Fin fdMax) : SysState F N :=
  { s with fds := ((allocated s.fds p).setEntry i (pipeEntry p false)).setEntry j (pipeEntry p true) }

theorem piped_table (s : SysState F N) (p : Fin pipeMax) {i j l : Fin fdMax} (hl : l ≠ i ∧ l ≠ j) :
    (piped s p i j).fds.table l = s.fds.table l := by
  unfold piped
  rw [set_entry_ne _ _ hl.2, set_entry_ne _ _ hl.1]
  rfl

theorem piped_end (s : SysState F N) (p : Fin pipeMax) {i j l : Fin fdMax} (hl : l = i ∨ l = j) :
    ∃ writeEnd, (piped s p i j).fds.table l = pipeEntry p writeEnd := by
  unfold piped
  by_cases hlj : l = j
  · exact ⟨true, by rw [hlj, set_entry_self]⟩
  · obtain rfl := hl.resolve_right hlj
    refine ⟨false, ?_⟩
    rw [set_entry_ne _ _ hlj, set_entry_self]

theorem UsedIffOpen.both_ends (h : UsedIffOpen s) {i j : Fin fdMax} (hi : (s.fds.table i).opened = false)
    (hj : (s.fds.table j).opened = false) : UsedIffOpen (piped s p i j) := by
  have hused : (piped s p i j).fds.used = Function.update s.fds.used p true := rfl
  intro q
  rw [hused]
  by_cases hq : q = p
  · rw [hq, Function.update_self]
    refine iff_of_true rfl ⟨i, ?_⟩
    obtain ⟨w, hw⟩ := piped_end s p (j := j) (Or.inl (Eq.refl i))
    unfold Refers
    rw [hw]
    exact ⟨rfl, rfl, rfl⟩
  · rw [Function.update_of_ne hq, h q]
    apply exists_congr
    intro l
    by_cases hl : l = i ∨ l = j
    · -- the slots of the new pipe referred to nothing before
      refine iff_of_false ?_ ?_
      · rcases hl with rfl | rfl
        · exact not_refers_closed hi
        · exact not_refers_closed hj
      · obtain ⟨w, hw⟩ := piped_end s p hl
        unfold Refers
        rw [hw]
        rintro ⟨-, -, hpq⟩
        exact hq (Option.some.inj hpq).symm
    · unfold Refers
      rw [piped_table s p (not_or.mp hl)]

theorem PipesUsed.both_ends (h : PipesUsed s) (p : Fin pipeMax) (i j : Fin fdMax) : PipesUsed (piped s p i j) := by
  have hused : (piped s p i j).fds.used = Function.update s.fds.used p true := rfl
  intro l hl
  rw [hused]
  by_cases hend : l = i ∨ l = j
  · obtain ⟨w, hw⟩ := piped_end s p hend
    rw [hw]
    exact ⟨p, rfl, Function.update_self ..⟩
  · rw [piped_table s p (not_or.mp hend)] at hl ⊢
    obtain ⟨q, hq, hqu⟩ := h l hl
    refine ⟨q, hq, ?_⟩
    by_cases hqp : q = p
    · rw [hqp, Function.update_self]
    · rw [Function.update_of_ne hqp]
      exact hqu

/-- `sys_pipe` is balanced exactly when it finds no pipe free, or two descriptors. -/
theorem pipe_step (hpipes : PipesUsed s) (h : UsedIffOpen s) :
    (Balanced ops s .pipe → PipesUsed (sysStep ops s .pipe).2) ∧
      (Balanced ops s .pipe ↔ KeepsPipes s .pipe) := by
  rcases pipe_cases s with ⟨hall, -, hrun⟩ | ⟨p, hp, -, hends⟩
  · have hstep : (sysStep ops s .pipe).2 = s := congrArg Prod.snd hrun
    rw [hstep]
    refine ⟨fun _ => hpipes, iff_of_true ⟨hstep.symm ▸ h, fun _ _ => ?_⟩ (Or.inl hall)⟩
    rw [hrun]
    exact ⟨rfl, rfl, rfl⟩
  -- once a pipe has been taken, failing is no clean failure
  have hdirty : ∀ fds : FdState F N, fds.used = Function.update s.fds.used p true →
      sysPipe s = ((-1, none), { s with fds := fds }) → ¬ Balanced ops s .pipe := by
    intro fds hused hrun hbal
    obtain ⟨-, -, hsame⟩ := hbal.2 rfl (by rw [hrun])
    rw [hrun] at hsame
    have hpused := congrFun hsame p
    dsimp only at hpused
    rw [hused, Function.update_self, hp] at hpused
    cases hpused
  have hsome : ¬ ∀ p, s.fds.used p = true := by
    intro hall
    rw [hall p] at hp
    cases hp
  rcases hends with ⟨hfull, hrun⟩ | ⟨i, hi, ⟨hone, hrun⟩ | ⟨j, hji, hj, hrun⟩⟩
  · have hno := hdirty (allocated s.fds p) rfl hrun
    refine ⟨fun hbal => absurd hbal hno, iff_of_false hno ?_⟩
    rintro (hall | ⟨l, m, -, hl, -⟩)
    · exact hsome hall
    · rw [free_slot_none hfull l] at hl
      cases hl
  · have hno := hdirty ((allocated s.fds p).setEntry i (pipeEntry p false)) rfl hrun
    refine ⟨fun hbal => absurd hbal hno, iff_of_false hno ?_⟩
    rintro (hall | ⟨l, m, hlm, hl, hm⟩)
    · exact hsome hall
    · have hopen : ∀ j, (s.fds.table j).opened = false → j = i := by
        intro j hj
        by_contra hji
        rw [hone j hji] at hj
        cases hj
      exact hlm ((hopen l hl).trans (hopen m hm).symm)
  · have hstep : (sysStep ops s .pipe).2 = piped s p i j := congrArg Prod.snd hrun
    have hret : (sysPipe s).1.1 ≠ -1 := by
      rw [hrun]
      dsimp only
      omega
    refine ⟨fun _ => hstep ▸ hpipes.both_ends p i j, iff_of_true ⟨?_, fun _ hfail => absurd hfail hret⟩ ?_⟩
    · rw [hstep]
      exact h.both_ends (free_slot_closed hi) hj
    · exact Or.inr ⟨i, j, hji.symm, free_slot_closed hi, hj⟩

theorem fails_clean_other {op : SysOp} (hop : op ≠ .pipe) : FailsClean s op := fun h => absurd h hop

theorem balanced_step (hpipes : PipesUsed s) (h : UsedIffOpen s) (op : SysOp) :
    (Balanced ops s op → PipesUsed (sysStep ops s op).2) ∧ (Balanced ops s op ↔ KeepsPipes s op) := by
  have hother : op ≠ .pipe → (Balanced ops s op ↔ UsedIffOpen (sysStep ops s op).2) :=
    fun hop => and_iff_left (fails_clean_other hop)
  cases op with
  | openPath path =>
    have hstep := open_step ops hpipes h path
    exact ⟨fun _ => hstep.1, (hother SysOp.noConfusion).trans (iff_of_true hstep.2 trivial)⟩
  | pipe => exact pipe_step hpipes h
  | dup2 oldfd newfd =>
    have hstep := dup2_step ops hpipes h oldfd newfd
    exact ⟨fun _ => hstep.1, (hother SysOp.noConfusion).trans hstep.2⟩
  | close fd =>
    have hstep := close_step ops hpipes h fd
    exact ⟨fun _ => hstep.1, (hother SysOp.noConfusion).trans hstep.2⟩
  | read fd count =>
    have hstep := read_step ops hpipes h fd count
    exact ⟨fun _ => hstep.1, (hother SysOp.noConfusion).trans (iff_of_true hstep.2 trivial)⟩
  | write fd buf =>
    have hstep := write_step ops hpipes h fd buf
    exact ⟨fun _ => hstep.1, (hother SysOp.noConfusion).trans (iff_of_true hstep.2 trivial)⟩

def bootCalls (fs : F) (fsRoot : Option N) : SysState F N := ⟨fdInit fs, fsRoot, []⟩

theorem boot_used (fs : F) (fsRoot : Option N) : UsedIffOpen (bootCalls fs fsRoot) := by
  intro p
  refine iff_of_false Bool.noConfusion ?_
  rintro ⟨i, hopen, -⟩
  cases hopen

theorem boot_pipes (fs : F) (fsRoot : Option N) : PipesUsed (bootCalls fs fsRoot) := fun _ hflag => by cases hflag

/-- In every state of a run after boot the pipes marked used are those with an open
descriptor, and failed calls of `sys_pipe` leave nothing behind, exactly when all calls
keep the pipes. -/
theorem pipes_balanced_iff (ops : VfsOps F N) (fs : F) (fsRoot : Option N) (calls : List SysOp) :
    Along (Balanced ops) (sysStep ops) (bootCalls fs fsRoot) calls ↔
      Along KeepsPipes (sysStep ops) (bootCalls fs fsRoot) calls :=
  Along.congr (I := fun s => PipesUsed s ∧ UsedIffOpen s)
    (fun _ op h hbal => ⟨(balanced_step h.1 h.2 op).1 hbal, hbal.1⟩)
    (fun _ op h => (balanced_step h.1 h.2 op).2) ⟨boot_pipes fs fsRoot, boot_used fs fsRoot⟩ calls

/-- A pipe is opened and both its ends are closed. -/
def closedPipe : List SysOp := [.pipe, .close 0, .close 1]

/-- The pipe stays marked used, with no descriptor open at all. -/
theorem closed_pipe_stays_used :
    let s := (run (sysStep ramfsOps) (bootCalls bootRamfs (some 0)) closedPipe).2
    s.fds.used 0 = true ∧ (∀ i, ¬ Refers s i 0) ∧ ¬ UsedIffOpen s := by
  rw [boot_ramfs_eq]
  decide

end Pool

section Fifo

/-- `pipe_write` and `pipe_read`, with the number returned and the bytes read. -/
def pipeStep (p : Pipe) : FifoOp UInt8 → (Nat × List UInt8) × Pipe
  | .put data => (((pipeWrite p data).1, []), (pipeWrite p data).2)
  | .take max => (((pipeRead p max).1.length, (pipeRead p max).1), (pipeRead p max).2)

/-- A write accepts the longest prefix of its data that fits, a read returns all it may. -/
def TransfersMost (p : Pipe) : FifoOp UInt8 → Prop
  | .put data => (pipeWrite p data).1 = min data.length (pipeBufSize - p.count)
  | .take max => (pipeRead p max).1.length = min max p.count

def ring (p : Pipe) : Ring pipeBufSize UInt8 := ⟨p.buf, p.readPos, p.writePos, p.count⟩

/-- The pipe holds the bytes of the queue, in this order. -/
structure Holds (p : Pipe) (queue : List UInt8) : Prop where
  valid : (ring p).Valid
  contents : (ring p).contents = queue

variable {p : Pipe} {queue : List UInt8}

theorem Holds.count (h : Holds p queue) : p.count = queue.length := by
  rw [← h.contents, Ring.contents_length]
  rfl

theorem Holds.fits (h : Holds p queue) : p.count ≤ pipeBufSize := h.valid.fits

theorem init_holds : Holds pipeInit [] := by
  refine ⟨⟨Nat.zero_le _, ?_⟩, rfl⟩
  exact (ring pipeInit).cell_zero.symm

theorem write_holds (data : List UInt8) (h : Holds p queue) :
    (pipeWrite p data).1 = min data.length (pipeBufSize - p.count) ∧
      Holds (pipeWrite p data).2 (queue ++ data.take (pipeBufSize - p.count)) := by
  induction data generalizing p queue with
  | nil =>
    refine ⟨(Nat.zero_min _).symm, ?_⟩
    rw [List.take_nil, List.append_nil]
    exact h
  | cons byte data ih =>
    unfold pipeWrite
    by_cases hroom : p.count < pipeBufSize
    · have hpushed : Holds { p with
          buf := Function.update p.buf p.writePos byte, writePos := p.writePos + 1, count := p.count + 1 }
          (queue ++ [byte]) := by
        refine ⟨h.valid.push byte hroom, ?_⟩
        rw [← h.contents]
        exact Ring.contents_push h.valid byte hroom
      obtain ⟨hwritten, hholds⟩ := ih hpushed
      have hleft : pipeBufSize - p.count = pipeBufSize - (p.count + 1) + 1 := by omega
      rw [if_pos hroom, hleft, List.take_succ_cons, List.append_cons]
      refine ⟨?_, hholds⟩
      dsimp only at hwritten ⊢
      rw [hwritten, List.length_cons]
      omega
    · have hfull : pipeBufSize - p.count = 0 := Nat.sub_eq_zero_of_le (Nat.le_of_not_lt hroom)
      rw [if_neg hroom, hfull, List.take_zero, List.append_nil, Nat.min_zero]
      exact ⟨rfl, h⟩

theorem read_holds (max : Nat) (h : Holds p queue) :
    (pipeRead p max).1 = queue.take max ∧ Holds (pipeRead p max).2 (queue.drop max) := by
  induction max generalizing p queue with
  | zero => exact ⟨rfl, h⟩
  | succ max ih =>
    unfold pipeRead
    by_cases hne : p.count > 0
    · have hpopped : Holds { p with readPos := p.readPos + 1, count := p.count - 1 }
          (ring p).drop.contents := ⟨h.valid.drop hne, rfl⟩
      obtain ⟨hout, hholds⟩ := ih hpopped
      have hqueue : queue = p.buf p.readPos :: (ring p).drop.contents :=
        h.contents.symm.trans (Ring.contents_drop hne)
      rw [if_pos hne, hqueue, List.take_succ_cons, List.drop_succ_cons]
      exact ⟨congrArg _ hout, hholds⟩
    · have hempty : queue = [] := by
        apply List.eq_nil_of_length_eq_zero
        rw [← h.count]
        exact Nat.eq_zero_of_not_pos hne
      rw [if_neg hne, hempty]
      rw [hempty] at h
      exact ⟨rfl, h⟩

/-- The pipe answers like a queue of its size. -/
theorem step_simulates (p : Pipe) (queue : List UInt8) (op : FifoOp UInt8) (h : Holds p queue) :
    (pipeStep p op).1 = (fifoStep pipeBufSize queue op).1 ∧
      Holds (pipeStep p op).2 (fifoStep pipeBufSize queue op).2 := by
  cases op with
  | put data =>
    obtain ⟨hwritten, hholds⟩ := write_holds data h
    unfold pipeStep fifoStep
    rw [← h.count]
    exact ⟨congrArg (·, []) hwritten, hholds⟩
  | take max =>
    obtain ⟨hout, hholds⟩ := read_holds max h
    unfold pipeStep fifoStep
    dsimp only
    rw [hout]
    exact ⟨rfl, hholds⟩

theorem step_transfers (h : Holds p queue) (op : FifoOp UInt8) : TransfersMost p op := by
  cases op with
  | put data => exact (write_holds data h).1
  | take max =>
    unfold TransfersMost
    dsimp only
    rw [(read_holds max h).1, List.length_take, h.count]

/-- What the reads return, in order, is a prefix of what the writes accepted; the count is
the difference and never exceeds the size of the buffer. -/
theorem pipe_fifo (ops : List (FifoOp UInt8)) :
    let trace := ops.zip (run pipeStep pipeInit ops).1
    let p := (run pipeStep pipeInit ops).2
    returned trace <+: accepted trace ∧ p.count = (accepted trace).length - (returned trace).length ∧
      p.count ≤ pipeBufSize ∧ Along TransfersMost pipeStep pipeInit ops := by
  obtain ⟨hresults, hholds⟩ := run_simulates step_simulates ops init_holds
  have hsplit := fifo_accounts pipeBufSize [] ops
  rw [← hresults, List.nil_append] at hsplit
  have halong : Along TransfersMost pipeStep pipeInit ops := by
    refine (Along.congr (I := fun p => ∃ queue, Holds p queue) ?_ ?_ ⟨[], init_holds⟩ ops).mpr
      (Along.of_forall (P := fun _ _ => True) (fun _ _ => trivial) pipeInit ops)
    · rintro p op ⟨queue, h⟩ -
      exact ⟨_, (step_simulates p queue op h).2⟩
    · rintro p op ⟨queue, h⟩
      exact iff_true_intro (step_transfers h op)
  refine ⟨?_, ?_, hholds.fits, halong⟩
  · rw [hsplit]
    exact List.prefix_append _ _
  · rw [hsplit, List.length_append, Nat.add_sub_cancel_left]
    exact hholds.count

end Fifo

end BaSic.Proofs.PipePool
