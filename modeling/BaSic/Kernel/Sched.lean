import BaSic.Kernel.Signal

namespace BaSic.Kernel

def schedTicks : Nat := 10

/-- What the stubs and the CPU push on an interrupt. -/
structure Registers where
  edi : UInt32
  esi : UInt32
  ebp : UInt32
  espDummy : UInt32
  ebx : UInt32
  edx : UInt32
  ecx : UInt32
  eax : UInt32
  intNo : UInt32
  errCode : UInt32
  eip : UInt32
  cs : UInt32
  eflags : UInt32
  deriving DecidableEq, Repr

structure SchedState where
  tasks : Tasks
  schedEnabled : Bool
  tickCounter : Nat

/-- The next READY slot after `cur` in a circle, `cur` itself coming last. -/
def pickNext (t : ProcTable) (cur : Option (Fin procMax)) : Option (Fin procMax) :=
  let start : Fin procMax := match cur with
    | some c => c + 1
    | none => 0
  match ((List.finRange procMax).map (fun i => start + i)).find? (fun i => (t.slot i).state == .ready) with
  | some i => some i
  | none => cur

/-- The ten registers of the frame, as they are saved. -/
def savedContext (regs : Registers) : CpuContext :=
  ⟨regs.eax, regs.ecx, regs.edx, regs.ebx, regs.espDummy, regs.ebp, regs.esi, regs.edi, regs.eip,
    regs.eflags⟩

def restoreContext (ctx : CpuContext) (regs : Registers) : Registers :=
  { regs with
    eax := ctx.eax, ecx := ctx.ecx, edx := ctx.edx, ebx := ctx.ebx, espDummy := ctx.esp,
    ebp := ctx.ebp, esi := ctx.esi, edi := ctx.edi, eip := ctx.eip, eflags := ctx.eflags }

/-- Saving the current process, if it is RUNNING. -/
def saveCurrent (t : ProcTable) (cur : Option (Fin procMax)) (regs : Registers) : ProcTable :=
  match cur with
  | none => t
  | some c =>
    if (t.slot c).state = .running then
      t.setSlot c { t.slot c with ctx := savedContext regs, state := .ready }
    else t

/-- The part of `sched_tick` that is reached when a quantum is over. -/
def switchTask (t : ProcTable) (regs : Registers) : Registers × ProcTable :=
  let cur := procCurrent t
  match pickNext t cur with
  | none => (regs, t)
  | some next =>
    if some next = cur then (regs, t)
    else
      let t := saveCurrent t cur regs
      let t := t.setState next .running
      let t := procSetCurrent t (t.slot next).pid
      (restoreContext (t.slot next).ctx regs, t)

def schedTick (k : SchedState) (regs : Registers) : Registers × SchedState :=
  if k.schedEnabled = false then (regs, k)
  else if k.tickCounter + 1 < schedTicks then (regs, { k with tickCounter := k.tickCounter + 1 })
  else
    let (regs, procs) := switchTask k.tasks.procs regs
    (regs, { k with tickCounter := 0, tasks.procs := procs })

def schedInit (tasks : Tasks) : SchedState := ⟨tasks, false, 0⟩

def schedStart (k : SchedState) : SchedState := { k with schedEnabled := true }

/-- `sys_exit` -/
def sysExit (k : Tasks) (code : Int) : Tasks :=
  let k := match procCurrent k.procs with
    | none => k
    | some c =>
      let p := { k.procs.slot c with exitCode := code, state := .zombie }
      { k with
        procs := k.procs.setSlot c p
        signals := if p.parentPid ≠ 0 then signalSend k.signals p.parentPid sigChld else k.signals }
  { k with procs := procSetCurrent k.procs 1 }

def sysSigaction (k : Tasks) (signo : Int) (handler : UInt32) : Int × Tasks :=
  match procCurrent k.procs with
  | none => (-1, k)
  | some c => (0, { k with signals := signalSetHandler k.signals (k.procs.slot c).pid signo handler })

/-- `sys_fork`: the child's pid, or -1. -/
def sysFork (t : ProcTable) (curEsp : UInt32) : Int × ProcTable :=
  match procFork t curEsp with
  | (none, t) => (-1, t)
  | (some i, t) => ((t.slot i).pid.toBitVec.toInt, t)

/-- The `SYS_FORK` case of `syscall_handler`: the frame the caller goes on with. -/
def syscallFork (t : ProcTable) (regs : Registers) (curEsp : UInt32) : Registers × ProcTable :=
  let (ret, t) := sysFork t curEsp
  ({ regs with eax := UInt32.ofInt ret }, t)

/-- `sys_exec` once the file is found, read and loaded at `entry`: the new process's pid, or -1. -/
def sysExec (t : ProcTable) (entry : UInt32) : Int × ProcTable :=
  match procCreate t entry with
  | (none, t) => (-1, t)
  | (some i, t) =>
    let p := { t.slot i with parentPid := t.currentPid, state := .ready }
    (p.pid.toBitVec.toInt, t.setSlot i p)

/-- `cmd_spawn` once the file is found, read and loaded at `entry`. -/
def cmdSpawn (t : ProcTable) (entry : UInt32) : ProcTable :=
  match procCreate t entry with
  | (none, t) => t
  | (some i, t) => t.setState i .ready

/-- The part of `kmain` that sets up tasks. -/
def kmainTasks (tableAddr : UInt32) : SchedState :=
  let k := schedInit ⟨procInit tableAddr, signalInit, []⟩
  let k := match procCreate k.tasks.procs 0 with
    | (none, _) => k
    | (some i, t) =>
      let t := t.setState i .running
      { k with tasks.procs := procSetCurrent t (t.slot i).pid }
  schedStart k

end BaSic.Kernel
