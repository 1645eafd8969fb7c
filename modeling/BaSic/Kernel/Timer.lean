import BaSic.Machine
import BaSic.Kernel.Sched

namespace BaSic.Kernel

def pitChannel0 : UInt16 := 0x40
def pitCmd : UInt16 := 0x43

/-- Channel 0, low byte then high byte, mode 3. -/
def pitCmdByte : UInt8 := 0x36
def pitBaseHz : UInt32 := 1193182

/-- The statics of `timer.c` -/
structure Timer where
  tickCount : UInt32
  ticksPerMs : UInt32
  deriving DecidableEq, Repr

def ticksPerMsOf (freq : UInt32) : UInt32 := if freq / 1000 = 0 then 1 else freq / 1000

/-- The timer and the bytes written to the ports. -/
def timerInit (t : Timer) (freq : UInt32) : Except Fault (Timer × List (UInt16 × UInt8)) :=
  if freq = 0 then .error .divideByZero
  else
    let divisor := pitBaseHz / freq
    .ok ({ t with ticksPerMs := ticksPerMsOf freq },
      [(pitCmd, pitCmdByte), (pitChannel0, (divisor &&& 0xFF).toUInt8),
        (pitChannel0, ((divisor >>> 8) &&& 0xFF).toUInt8)])

def timerTicks (t : Timer) : UInt32 := t.tickCount

def timerTickIncrement (t : Timer) : Timer := { t with tickCount := t.tickCount + 1 }

/-- `timer_irq_handler` -/
def timerIrqHandler (t : Timer) (k : SchedState) (regs : Registers) : Timer × Registers × SchedState :=
  (timerTickIncrement t, schedTick k regs)

/-- `while (tick_count < target) hlt;`, with the number of timer interrupts before each look
at the counter. The result is the timer and the ticks that have passed. -/
def sleepUntil (target : UInt32) : Timer → Nat → List Nat → Except Fault (Timer × Nat)
  | _, _, [] => .error .timeout
  | t, passed, n :: looks =>
    let t := timerTickIncrement^[n] t
    if t.tickCount < target then sleepUntil target t (passed + n) looks else .ok (t, passed + n)

def timerSleep (t : Timer) (ms : UInt32) (looks : List Nat) : Except Fault (Timer × Nat) :=
  sleepUntil (t.tickCount + ms * t.ticksPerMs) t 0 looks

end BaSic.Kernel
