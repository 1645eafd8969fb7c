import BaSic.Lib.Words
import BaSic.Fs.Fd

namespace BaSic.Proofs.FdTable
open Kernel Fs

variable {F N : Type} {ops : VfsOps F N} {s : FdState F N} {i j : Fin fdMax} {fd : Int}

theorem fd_slot_val (i : Fin fdMax) : fdSlot (i.val : Int) = some i := by
  have hrange : 0 ≤ (i.val : Int) ∧ (i.val : Int).toNat < fdMax := ⟨Int.natCast_nonneg _, i.isLt⟩
  unfold fdSlot
  rw [dif_pos hrange]
  rfl

theorem fd_slot_some (h : fdSlot fd = some i) : fd = (i.val : Int) := by
  unfold fdSlot at h
  split at h
  · rename_i hrange
    obtain rfl := Option.some.inj h
    exact (Int.toNat_of_nonneg hrange.1).symm
  · cases h

theorem open_slot_some : openSlot s fd = some i ↔ fdSlot fd = some i ∧ (s.table i).opened = true := by
  unfold openSlot
  rw [Option.filter_eq_some_iff]

theorem open_slot_val (i : Fin fdMax) (h : (s.table i).opened = true) : openSlot s (i.val : Int) = some i :=
  open_slot_some.mpr ⟨fd_slot_val i, h⟩

theorem free_slot_closed (h : freeSlot s = some i) : (s.table i).opened = false := by
  have hp := List.find?_some h
  simpa using hp

theorem free_slot_none (h : freeSlot s = none) (i : Fin fdMax) : (s.table i).opened = true := by
  have hp := List.find?_eq_none.mp h i (List.mem_finRange i)
  simpa using hp

@[simp] theorem set_entry_self (s : FdState F N) (i : Fin fdMax) (e : FdEntry N) :
    (s.setEntry i e).table i = e := Function.update_self ..

theorem set_entry_ne (s : FdState F N) (e : FdEntry N) (h : j ≠ i) :
    (s.setEntry i e).table j = s.table j := Function.update_of_ne h ..

theorem fd_slot_failed : fdSlot (-1) = none := by decide

/-- What `fd_close` leaves in a slot. -/
def closedEntry (e : FdEntry N) : FdEntry N := { e with opened := false, node := none, offset := 0 }

theorem close_some (h : fdSlot fd = some i) : fdClose s fd = s.setEntry i (closedEntry (s.table i)) := by
  unfold fdClose
  rw [h]
  rfl

/-- Duplicating a descriptor onto itself closes it. -/
theorem dup2_some {oldfd newfd : Int} {old new : Fin fdMax} (hold : openSlot s oldfd = some old)
    (hnew : fdSlot newfd = some new) : fdDup2 s oldfd newfd =
      (newfd, s.setEntry new (if old = new then closedEntry (s.table new) else s.table old)) := by
  obtain ⟨-, hopen⟩ := open_slot_some.mp hold
  unfold fdDup2
  rw [hold, hnew]
  dsimp only
  split
  · rename_i hopen'
    rw [close_some hnew]
    by_cases hsame : old = new
    · rw [hsame, set_entry_self, if_pos rfl]
      unfold FdState.setEntry
      rw [Function.update_idem]
    · rw [set_entry_ne s _ hsame, if_neg hsame]
      unfold FdState.setEntry
      rw [Function.update_idem]
  · rename_i hclosed
    have hne : old ≠ new := by
      rintro rfl
      exact hclosed hopen
    rw [if_neg hne]

theorem dup2_none {oldfd newfd : Int} (h : openSlot s oldfd = none ∨ fdSlot newfd = none) :
    fdDup2 s oldfd newfd = (-1, s) := by
  unfold fdDup2
  rcases h with h | h
  · rw [h]
  · rw [h]
    cases openSlot s oldfd with
    | none => rfl
    | some i => rfl

theorem read_not_open (size : UInt32) (h : openSlot s fd = none) : fdRead ops s fd size = .ok ((-1, []), s) := by
  unfold fdRead
  rw [h]

theorem write_not_open (buf : List UInt8) (h : openSlot s fd = none) : fdWrite ops s fd buf = .ok (-1, s) := by
  unfold fdWrite
  rw [h]

/-- A descriptor for a file reads the file at its offset. -/
theorem read_file (size : UInt32) (hopen : (s.table i).opened = true) (hfile : (s.table i).isPipe = false) :
    fdRead ops s i.val size = (vfsRead ops s.fs (s.table i).node (s.table i).offset size).map (fun buf =>
      ((signedInt (UInt32.ofNat buf.length), buf),
        s.setEntry i { s.table i with offset := (s.table i).offset + UInt32.ofNat buf.length })) := by
  unfold fdRead
  rw [open_slot_val i hopen]
  dsimp only
  rw [hfile]
  cases vfsRead ops s.fs (s.table i).node (s.table i).offset size with
  | error e => rfl
  | ok buf => rfl

theorem write_file (buf : List UInt8) (hopen : (s.table i).opened = true) (hfile : (s.table i).isPipe = false) :
    fdWrite ops s i.val buf = (vfsWrite ops s.fs (s.table i).node (s.table i).offset buf).map (fun r =>
      (signedInt r.1, { s with fs := r.2 }.setEntry i { s.table i with offset := (s.table i).offset + r.1 })) := by
  unfold fdWrite
  rw [open_slot_val i hopen]
  dsimp only
  rw [hfile]
  cases vfsWrite ops s.fs (s.table i).node (s.table i).offset buf with
  | error e => rfl
  | ok r => rfl

theorem read_pipe {p : Fin pipeMax} (size : UInt32) (hopen : (s.table i).opened = true)
    (hpipe : (s.table i).isPipe = true) (hp : (s.table i).pipe = some p) :
    fdRead ops s i.val size = .ok (((pipeRead (s.pool p) size.toNat).1.length, (pipeRead (s.pool p) size.toNat).1),
      { s with pool := Function.update s.pool p (pipeRead (s.pool p) size.toNat).2 }) := by
  unfold fdRead
  rw [open_slot_val i hopen]
  dsimp only
  rw [if_pos hpipe, hp]

theorem write_pipe {p : Fin pipeMax} (buf : List UInt8) (hopen : (s.table i).opened = true)
    (hpipe : (s.table i).isPipe = true) (hp : (s.table i).pipe = some p) :
    fdWrite ops s i.val buf = .ok ((pipeWrite (s.pool p) buf).1,
      { s with pool := Function.update s.pool p (pipeWrite (s.pool p) buf).2 }) := by
  unfold fdWrite
  rw [open_slot_val i hopen]
  dsimp only
  rw [if_pos hpipe, hp]

theorem of_int_signed (n : UInt32) : UInt32.ofInt (signedInt n) = n := Lib.of_int_to_int n

/-- A transfer on a file is no transfer on a pipe: one leaves all pipes as they are. -/
theorem pool_write_ne {p : Fin pipeMax} (hroom : (s.pool p).count < pipeBufSize) :
    Function.update s.pool p (pipeWrite (s.pool p) [0]).2 ≠ s.pool := by
  intro h
  have hp := congrArg Pipe.count (congrFun h p)
  rw [Function.update_self] at hp
  unfold pipeWrite at hp
  rw [if_pos hroom] at hp
  exact Nat.succ_ne_self _ hp

theorem pool_read_ne {p : Fin pipeMax} (hne : 0 < (s.pool p).count) :
    Function.update s.pool p (pipeRead (s.pool p) 1).2 ≠ s.pool := by
  intro h
  have hp := congrArg Pipe.count (congrFun h p)
  rw [Function.update_self] at hp
  unfold pipeRead at hp
  rw [if_pos hne] at hp
  exact Nat.ne_of_lt (Nat.sub_lt hne Nat.one_pos) hp

/-- The new descriptor is open and is what the old one was, and nothing else has changed. -/
structure Duplicates (s : FdState F N) (old new : Fin fdMax) : Prop where
  returns : (fdDup2 s old.val new.val).1 = new.val
  opened : ((fdDup2 s old.val new.val).2.table new).opened = true
  same : (fdDup2 s old.val new.val).2.table new = s.table old
  kept : (fdDup2 s old.val new.val).2.table old = s.table old
  others : ∀ j, j ≠ new → (fdDup2 s old.val new.val).2.table j = s.table j

/-- An open descriptor is duplicated as it should be onto every descriptor but itself. -/
theorem dup2_duplicates_iff {old new : Fin fdMax} (hopen : (s.table old).opened = true) :
    Duplicates s old new ↔ old ≠ new := by
  have hdup := dup2_some (open_slot_val old hopen) (fd_slot_val new)
  constructor
  · rintro h rfl
    have hclosed := h.opened
    rw [hdup, if_pos rfl, set_entry_self] at hclosed
    cases hclosed
  · intro hne
    rw [if_neg hne] at hdup
    refine ⟨?_, ?_, ?_, ?_, fun j hj => ?_⟩
    · rw [hdup]
    · rw [hdup, set_entry_self]
      exact hopen
    · rw [hdup, set_entry_self]
    · rw [hdup, set_entry_ne s _ hne]
    · rw [hdup, set_entry_ne s _ hj]

/-- One descriptor is open, on some node. -/
def oneOpen : FdState Unit Unit := (fdOpen (fdInit ()) (some ())).2

theorem dup2_onto_next : Duplicates oneOpen 0 1 := (dup2_duplicates_iff (by decide)).mpr (by decide)

/-- Duplicated onto itself, a descriptor is closed. -/
theorem dup2_onto_itself : (oneOpen.table 0).opened = true ∧ (fdDup2 oneOpen 0 0).1 = 0 ∧
    ((fdDup2 oneOpen 0 0).2.table 0).opened = false ∧ ¬ Duplicates oneOpen 0 0 := by
  have hclosed : ((fdDup2 oneOpen 0 0).2.table 0).opened = false := by decide
  refine ⟨by decide, by decide, hclosed, fun h => ?_⟩
  have hopened := h.opened
  rw [show ((0 : Fin fdMax).val : Int) = 0 from rfl, hclosed] at hopened
  cases hopened

end BaSic.Proofs.FdTable
