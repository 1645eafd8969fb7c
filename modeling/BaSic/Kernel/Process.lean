import Mathlib

namespace BaSic.Kernel

def procMax : Nat := 16

instance procs_nonempty : NeZero procMax := ⟨by decide⟩

def procStackSize : UInt32 := 4096

inductive ProcState where
  | unused
  | ready
  | running
  | sleeping
  | dead
  | zombie
  deriving DecidableEq, Repr

/-- Saved registers of a process that is not running. -/
structure CpuContext where
  eax : UInt32
  ecx : UInt32
  edx : UInt32
  ebx : UInt32
  esp : UInt32
  ebp : UInt32
  esi : UInt32
  edi : UInt32
  eip : UInt32
  eflags : UInt32
  deriving DecidableEq, Repr

def zeroContext : CpuContext := ⟨0, 0, 0, 0, 0, 0, 0, 0, 0, 0⟩

structure Process where
  pid : UInt32
  parentPid : UInt32
  exitCode : Int
  state : ProcState
  ctx : CpuContext
  stackTop : UInt32
  stack : Nat → UInt8

/-- What `memset(p, 0, sizeof(process_t))` leaves. -/
def zeroProcess : Process := ⟨0, 0, 0, .unused, zeroContext, 0, fun _ => 0⟩

/-- The statics of the process table; `tableAddr` is where the table itself lies. -/
structure ProcTable where
  slot : Fin procMax → Process
  nextPid : UInt32
  currentPid : UInt32
  tableAddr : UInt32

/-- `sizeof(process_t)` -/
def procSize : UInt32 := 4188

/-- `(u32)proc_table[i].stack`: the stack is 60 bytes into the structure. -/
def stackAddr (t : ProcTable) (i : Fin procMax) : UInt32 :=
  t.tableAddr + procSize * UInt32.ofNat i.val + 60

def ProcTable.setSlot (t : ProcTable) (i : Fin procMax) (p : Process) : ProcTable :=
  { t with slot := Function.update t.slot i p }

def ProcTable.setState (t : ProcTable) (i : Fin procMax) (state : ProcState) : ProcTable :=
  t.setSlot i { t.slot i with state := state }

/-- The first slot of the table with a property, as the loops over it find it. -/
def firstSlot (t : ProcTable) (p : Process → Bool) : Option (Fin procMax) :=
  (List.finRange procMax).find? (fun i => p (t.slot i))

/-- The table as the linker leaves it, after `proc_init`. -/
def procInit (tableAddr : UInt32) : ProcTable := ⟨fun _ => zeroProcess, 1, 0, tableAddr⟩

def procCreate (t : ProcTable) (entry : UInt32) : Option (Fin procMax) × ProcTable :=
  match firstSlot t (fun p => p.state == .unused) with
  | none => (none, t)
  | some i =>
    let stackTop := stackAddr t i + procStackSize
    let ctx := { zeroContext with esp := stackTop, eip := entry, eflags := 0x202 }
    let p := { zeroProcess with pid := t.nextPid, state := .ready, stackTop := stackTop, ctx := ctx }
    (some i, { t.setSlot i p with nextPid := t.nextPid + 1 })

def procCleanup (t : ProcTable) (i : Fin procMax) : ProcTable := t.setSlot i zeroProcess

def procCurrent (t : ProcTable) : Option (Fin procMax) :=
  firstSlot t (fun p => p.pid == t.currentPid)

def procSetCurrent (t : ProcTable) (pid : UInt32) : ProcTable := { t with currentPid := pid }

/-- The child is a copy of the parent's slot, its `esp` moved to its own stack. -/
def procFork (t : ProcTable) (parentEsp : UInt32) : Option (Fin procMax) × ProcTable :=
  match procCurrent t with
  | none => (none, t)
  | some c =>
    match firstSlot t (fun p => p.state == .unused) with
    | none => (none, t)
    | some i =>
      let parent := t.slot c
      let offset := parentEsp - stackAddr t c
      let ctx := { parent.ctx with esp := stackAddr t i + offset, eax := 0 }
      let stackTop := stackAddr t i + procStackSize
      let child := { parent with
        pid := t.nextPid, parentPid := parent.pid, state := .ready, stackTop := stackTop, ctx := ctx }
      (some i, { t.setSlot i child with nextPid := t.nextPid + 1 })

/-- The zombie a round of `proc_wait` reaps: any child of the caller when `childPid` is -1. -/
def waitFind (t : ProcTable) (childPid : UInt32) : Option (Fin procMax) :=
  firstSlot t (fun p => p.state == .zombie &&
    if childPid = 0xFFFFFFFF then
      match procCurrent t with
      | none => false
      | some c => p.parentPid == (t.slot c).pid
    else p.pid == childPid)

/-- One round of the loop of `proc_wait` over the table: the pid and exit code of the
child reaped, or nothing, in which case the loop halts until the next interrupt. -/
def waitRound (t : ProcTable) (childPid : UInt32) : Option (UInt32 × Int) × ProcTable :=
  match waitFind t childPid with
  | none => (none, t)
  | some i => (some ((t.slot i).pid, (t.slot i).exitCode), procCleanup t i)

end BaSic.Kernel
