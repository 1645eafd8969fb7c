import BaSic.Kernel.Sched
import BaSic.Lib.Stack32

namespace BaSic.Kernel
open Lib

/-- `registers_t` word by word, lowest address first. -/
def registersWords (r : Registers) : List UInt32 :=
  [r.edi, r.esi, r.ebp, r.espDummy, r.ebx, r.edx, r.ecx, r.eax, r.intNo, r.errCode, r.eip, r.cs, r.eflags]

/-- The `registers_t` at `a`. -/
def loadRegisters (m : Mem32) (a : UInt32) : Registers where
  edi := load32 m a
  esi := load32 m (a + 4)
  ebp := load32 m (a + 8)
  espDummy := load32 m (a + 12)
  ebx := load32 m (a + 16)
  edx := load32 m (a + 20)
  ecx := load32 m (a + 24)
  eax := load32 m (a + 28)
  intNo := load32 m (a + 32)
  errCode := load32 m (a + 36)
  eip := load32 m (a + 40)
  cs := load32 m (a + 44)
  eflags := load32 m (a + 48)

def storeRegisters (m : Mem32) (a : UInt32) (r : Registers) : Mem32 := storeWords m a (registersWords r)

/-- The stub of IRQ 0 and `irq_common`, up to the call of `irq_handler`. -/
def irq0Stub : List Instr := [.cli, .push 0, .push 32, .pusha, .pushEsp]

/-- `irq_common` from the return of `irq_handler` on. -/
def irqEpilogue : List Instr := [.addEsp 4, .popa, .addEsp 8, .sti, .iret]

/-- What a C function may leave in the registers it need not keep. -/
structure Scratch where
  eax : UInt32
  ecx : UInt32
  edx : UInt32
  eflags : UInt32

/-- The call of `irq_handler`, which for IRQ 0 runs `sched_tick` on the frame whose
address is on the stack. -/
def callIrqHandler (k : SchedState) (c : Cpu) (scratch : Scratch) : SchedState × Cpu :=
  let a := c.word 0
  let (regs, k) := schedTick k (loadRegisters c.mem a)
  (k, { c with
    eax := scratch.eax, ecx := scratch.ecx, edx := scratch.edx, eflags := scratch.eflags
    mem := storeRegisters c.mem a regs })

/-- A timer interrupt in kernel mode, from the interrupted instruction to the one the
CPU goes on with. -/
def timerInterrupt (k : SchedState) (c : Cpu) (entry : UInt32) (scratch : Scratch) : SchedState × Cpu :=
  let c := (c.interrupt entry).execAll irq0Stub
  let (k, c) := callIrqHandler k c scratch
  (k, c.execAll irqEpilogue)

/-- The registers of the CPU that a process context holds. -/
def cpuContext (c : Cpu) : CpuContext :=
  ⟨c.eax, c.ecx, c.edx, c.ebx, c.esp, c.ebp, c.esi, c.edi, c.eip, c.eflags⟩

end BaSic.Kernel
