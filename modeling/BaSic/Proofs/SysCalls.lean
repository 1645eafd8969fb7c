import BaSic.Proofs.FdTable
import BaSic.Kernel.Syscall

namespace BaSic.Proofs.SysCalls
open Kernel Fs FdTable

inductive SysOp where
  | openPath (path : List UInt8)
  | pipe
  | dup2 (oldfd newfd : Int)
  | close (fd : Int)
  | read (fd : Int) (count : UInt32)
  | write (fd : Int) (buf : List UInt8)

variable {F N : Type}

def sysStep (ops : VfsOps F N) (s : SysState F N) : SysOp → Except Fault Int × SysState F N
  | .openPath path => (.ok (sysOpen ops s path).1, (sysOpen ops s path).2)
  | .pipe => (.ok (sysPipe s).1.1, (sysPipe s).2)
  | .dup2 oldfd newfd => (.ok (sysDup2 s oldfd newfd).1, (sysDup2 s oldfd newfd).2)
  | .close fd => (.ok (sysClose s fd).1, (sysClose s fd).2)
  | .read fd count =>
    match sysRead ops s fd count with
    | .error e => (.error e, s)
    | .ok ((n, _), s) => (.ok n, s)
  | .write fd buf =>
    match sysWrite ops s fd buf with
    | .error e => (.error e, s)
    | .ok (n, s) => (.ok n, s)

variable {ops : VfsOps F N} {s : SysState F N} {fds : FdState F N} {fd n : Int}

theorem read_ok {count : UInt32} {out : List UInt8} (h : fdRead ops s.fds fd count = .ok ((n, out), fds)) :
    sysStep ops s (.read fd count) = (.ok n, { s with fds := fds }) := by
  unfold sysStep sysRead
  dsimp only
  rw [h]
  rfl

theorem read_fault {count : UInt32} {f : Fault} (h : fdRead ops s.fds fd count = .error f) :
    sysStep ops s (.read fd count) = (.error f, s) := by
  unfold sysStep sysRead
  dsimp only
  rw [h]
  rfl

/-- Writing to descriptor 1 or 2 goes to the screen. -/
theorem write_screen (ops : VfsOps F N) (s : SysState F N) (buf : List UInt8) (h : fd = 1 ∨ fd = 2) :
    sysStep ops s (.write fd buf) =
      (.ok (signedInt (UInt32.ofNat buf.length)), { s with screen := s.screen ++ buf }) := by
  unfold sysStep sysWrite
  dsimp only
  rw [if_pos h]

theorem write_ok {buf : List UInt8} (hfd : ¬ (fd = 1 ∨ fd = 2)) (h : fdWrite ops s.fds fd buf = .ok (n, fds)) :
    sysStep ops s (.write fd buf) = (.ok n, { s with fds := fds }) := by
  unfold sysStep sysWrite
  dsimp only
  rw [if_neg hfd, h]
  rfl

theorem write_fault {buf : List UInt8} {f : Fault} (hfd : ¬ (fd = 1 ∨ fd = 2))
    (h : fdWrite ops s.fds fd buf = .error f) : sysStep ops s (.write fd buf) = (.error f, s) := by
  unfold sysStep sysWrite
  dsimp only
  rw [if_neg hfd, h]
  rfl

/-- The entry `fd_open` makes of the one before. -/
def openedEntry (e : FdEntry N) (node : N) : FdEntry N := { e with node := some node, offset := 0, opened := true }

theorem open_cases (ops : VfsOps F N) (s : SysState F N) (path : List UInt8) :
    (vfsResolve ops s.fds.fs s.fsRoot path = none ∨ freeSlot s.fds = none) ∧ sysOpen ops s path = (-1, s) ∨
      ∃ node i, vfsResolve ops s.fds.fs s.fsRoot path = some node ∧ freeSlot s.fds = some i ∧
        sysOpen ops s path = ((i.val : Int),
          { s with fds := s.fds.setEntry i (openedEntry (s.fds.table i) node) }) := by
  unfold sysOpen fdOpen
  cases vfsResolve ops s.fds.fs s.fsRoot path with
  | none => exact Or.inl ⟨Or.inl rfl, rfl⟩
  | some node =>
    cases freeSlot s.fds with
    | none => exact Or.inl ⟨Or.inr rfl, rfl⟩
    | some i => exact Or.inr ⟨node, i, rfl, rfl, rfl⟩

/-- The entry of one end of a pipe. -/
def pipeEntry (p : Fin pipeMax) (writeEnd : Bool) : FdEntry N := ⟨none, 0, true, true, some p, writeEnd⟩

/-- A pipe of the pool taken, as `pipe_alloc` leaves it. -/
def allocated (s : FdState F N) (p : Fin pipeMax) : FdState F N :=
  { s with used := Function.update s.used p true, pool := Function.update s.pool p pipeInit }

theorem pipe_alloc_cases (s : FdState F N) :
    (∀ p, s.used p = true) ∧ pipeAlloc s = (none, s) ∨
      ∃ p, s.used p = false ∧ pipeAlloc s = (some p, allocated s p) := by
  unfold pipeAlloc
  cases hp : (List.finRange pipeMax).find? (fun p => !s.used p) with
  | none =>
    refine Or.inl ⟨fun p => ?_, rfl⟩
    have hused := List.find?_eq_none.mp hp p (List.mem_finRange p)
    simpa using hused
  | some p =>
    have hfree := List.find?_some hp
    exact Or.inr ⟨p, by simpa using hfree, rfl⟩

theorem open_pipe_cases (s : FdState F N) (p : Fin pipeMax) (writeEnd : Bool) :
    freeSlot s = none ∧ fdOpenPipe s p writeEnd = (-1, s) ∨
      ∃ i, freeSlot s = some i ∧ fdOpenPipe s p writeEnd = ((i.val : Int), s.setEntry i (pipeEntry p writeEnd)) := by
  unfold fdOpenPipe
  cases hi : freeSlot s with
  | none => exact Or.inl ⟨rfl, rfl⟩
  | some i => exact Or.inr ⟨i, rfl, rfl⟩

/-- A call of `sys_pipe` fails with no pipe left, with no descriptor left, or with one
descriptor left; else it opens both ends. -/
theorem pipe_cases (s : SysState F N) :
    (∀ p, s.fds.used p = true) ∧ pipeAlloc s.fds = (none, s.fds) ∧ sysPipe s = ((-1, none), s) ∨
      ∃ p, s.fds.used p = false ∧ pipeAlloc s.fds = (some p, allocated s.fds p) ∧
        (freeSlot s.fds = none ∧ sysPipe s = ((-1, none), { s with fds := allocated s.fds p }) ∨
          ∃ i, freeSlot s.fds = some i ∧
            ((∀ j, j ≠ i → (s.fds.table j).opened = true) ∧
                sysPipe s = ((-1, none), { s with fds := (allocated s.fds p).setEntry i (pipeEntry p false) }) ∨
              ∃ j, j ≠ i ∧ (s.fds.table j).opened = false ∧ sysPipe s = ((0, some ((i.val : Int), (j.val : Int))),
                { s with fds :=
                  ((allocated s.fds p).setEntry i (pipeEntry p false)).setEntry j (pipeEntry p true) }))) := by
  unfold sysPipe
  rcases pipe_alloc_cases s.fds with ⟨hall, halloc⟩ | ⟨p, hp, halloc⟩
  · rw [halloc]
    exact Or.inl ⟨hall, rfl, rfl⟩
  refine Or.inr ⟨p, hp, halloc, ?_⟩
  rw [halloc]
  dsimp only
  -- the read end goes to the first slot free, the write end to the next one
  rcases open_pipe_cases (allocated s.fds p) p false with ⟨hfree, hread⟩ | ⟨i, hi, hread⟩
  · rw [hread]
    dsimp only
    rw [if_pos (Or.inl (by decide))]
    refine Or.inl ⟨hfree, ?_⟩
    rcases open_pipe_cases (allocated s.fds p) p true with ⟨-, hwrite⟩ | ⟨j, hj, -⟩
    · rw [hwrite]
    · rw [hfree] at hj
      cases hj
  · rw [hread]
    refine Or.inr ⟨i, hi, ?_⟩
    dsimp only
    have hi0 : ¬ (i.val : Int) < 0 := Int.not_lt.mpr (Int.natCast_nonneg _)
    rcases open_pipe_cases ((allocated s.fds p).setEntry i (pipeEntry p false)) p true with
      ⟨hfree, hwrite⟩ | ⟨j, hj, hwrite⟩
    · rw [hwrite]
      dsimp only
      rw [if_pos (Or.inr (by decide))]
      refine Or.inl ⟨fun j hji => ?_, rfl⟩
      have hopen := free_slot_none hfree j
      rw [set_entry_ne _ _ hji] at hopen
      exact hopen
    · have hj0 : ¬ (j.val : Int) < 0 := Int.not_lt.mpr (Int.natCast_nonneg _)
      have hclosed := free_slot_closed hj
      have hji : j ≠ i := by
        rintro rfl
        rw [set_entry_self] at hclosed
        cases hclosed
      rw [set_entry_ne _ _ hji] at hclosed
      rw [hwrite]
      dsimp only
      rw [if_neg (not_or.mpr ⟨hi0, hj0⟩)]
      exact Or.inr ⟨j, hji, hclosed, rfl⟩

end BaSic.Proofs.SysCalls
