import BaSic.Kernel.Irq
import BaSic.Proofs.TaskTable
import BaSic.Lib.Words

namespace BaSic.Proofs.IrqReturn
open Kernel Lib TaskTable

section Epilogue

variable {k : SchedState} {c : Cpu} {m : Mem32} {a : UInt32} {r : Registers} {next : Fin procMax}

theorem load_registers (m : Mem32) (a : UInt32) (r : Registers) :
    loadRegisters m a = r ↔ HoldsWords m a (registersWords r) := by
  constructor
  · rintro rfl
    simp [registersWords, HoldsWords, loadRegisters, UInt32.add_assoc]
  · intro h
    obtain ⟨edi, esi, ebp, espDummy, ebx, edx, ecx, eax, intNo, errCode, eip, cs, eflags⟩ := r
    simp [registersWords, HoldsWords, UInt32.add_assoc] at h
    simp [loadRegisters, h]

theorem load_store_registers (m : Mem32) (a : UInt32) (r : Registers) :
    loadRegisters (storeRegisters m a r) a = r := by
  rw [load_registers]
  exact holds_store_words m a (registersWords r) (by simp [registersWords])

/-- `popa` skips the saved `esp`, so only the frame's place decides where the stack ends up. -/
theorem epilogue_context (hesp : c.esp = a - 4) (hframe : loadRegisters c.mem a = r) :
    cpuContext (c.execAll irqEpilogue) = { savedContext r with esp := a + 52 } := by
  subst hframe
  simp [cpuContext, savedContext, loadRegisters, irqEpilogue, Cpu.execAll, Cpu.exec, Cpu.word, hesp,
    UInt32.add_assoc]

/-- Once the epilogue has run, all of the next process's registers are in the CPU exactly
when its saved `esp` is where the interrupted stack ends up anyway. -/
theorem epilogue_restores_iff (k : SchedState) (regs : Registers) (hnext : resumed k = some next) (c : Cpu)
    (a : UInt32) (hesp : c.esp = a - 4) (hframe : loadRegisters c.mem a = (schedTick k regs).1) :
    cpuContext (c.execAll irqEpilogue) = (k.tasks.procs.slot next).ctx ↔
      (k.tasks.procs.slot next).ctx.esp = a + 52 := by
  obtain ⟨-, -, -, hregs, -⟩ := tick_resumes regs hnext
  rw [epilogue_context hesp hframe, hregs]
  constructor
  · intro h
    exact (congrArg CpuContext.esp h).symm
  · intro h
    rw [← h]
    rfl

/-- The shell in its last tick, and a program in slot 1 that has not run yet. -/
def lastTick : SchedState :=
  let k := kmainTasks 0x120000
  { k with tasks.procs := (procCreate k.tasks.procs 0x400000).2, tickCounter := 9 }

theorem last_tick_next : resumed lastTick = some 1 := by decide

def shellRegisters : Registers := ⟨0, 0, 0, 0x9F000, 0, 0, 0, 0, 32, 0, 0x1000, 8, 0x202⟩

/-- The CPU back from the handler, with the frame at `a`. -/
def backFromHandler (a : UInt32) : Cpu :=
  ⟨0, 0, 0, 0, a - 4, 0, 0, 0, 0, 8, 0,
    storeRegisters (fun _ => 0) a (schedTick lastTick shellRegisters).1⟩

/-- With the frame right below the program's own stack top, all ten registers are its own. -/
theorem frame_on_own_stack :
    cpuContext ((backFromHandler 0x122064).execAll irqEpilogue) = (lastTick.tasks.procs.slot 1).ctx :=
  (epilogue_restores_iff lastTick shellRegisters last_tick_next (backFromHandler 0x122064) 0x122064 rfl
    (load_store_registers _ _ _)).mpr (by decide)

/-- The nine registers besides `esp` are always the next process's. -/
theorem epilogue_restores_rest (k : SchedState) (regs : Registers) (hnext : resumed k = some next)
    (hesp : c.esp = a - 4) (hframe : loadRegisters c.mem a = (schedTick k regs).1) :
    cpuContext (c.execAll irqEpilogue) = { (k.tasks.procs.slot next).ctx with esp := a + 52 } := by
  obtain ⟨-, -, -, hregs, -⟩ := tick_resumes regs hnext
  rw [epilogue_context hesp hframe, hregs]
  rfl

/-- The frame the CPU, the stub and `pusha` lay down is a `registers_t` of the interrupted
registers. -/
theorem stub_frame (c : Cpu) (entry : UInt32) :
    let d := (c.interrupt entry).execAll irq0Stub
    d.esp = c.esp - 52 - 4 ∧ d.word 0 = c.esp - 52 ∧
      loadRegisters d.mem (c.esp - 52) = ⟨c.edi, c.esi, c.ebp, c.esp - 20, c.ebx, c.edx, c.ecx, c.eax, 32, 0,
        c.eip, c.cs, c.eflags⟩ := by
  intro d
  have hpusha : c.esp - 4 - 4 - 4 - 4 - 4 = c.esp - 20 := by grind
  have hregs : c.esp - 20 - 4 - 4 - 4 - 4 - 4 - 4 - 4 - 4 = c.esp - 52 := by grind
  have hempty : c.Stacked [] := trivial
  -- all that is pushed, by the gate, by the stub, by `pusha`, and the pointer to the frame
  -- all that is pushed, by the gate, by the stub, by `pusha`, and the pointer to the frame
  let pushes := [c.eflags, c.cs, c.eip, 0, 32, c.eax, c.ecx, c.edx, c.ebx, c.esp - 4 - 4 - 4 - 4 - 4,
    c.ebp, c.esi, c.edi, c.esp - 4 - 4 - 4 - 4 - 4 - 4 - 4 - 4 - 4 - 4 - 4 - 4 - 4]
  have hall : (pushes.foldl Cpu.push c).Stacked (pushes.reverse ++ []) :=
    hempty.push_all pushes (by simp [pushes])
  have hmem : d.mem = (pushes.foldl Cpu.push c).mem := by
    simp only [d, pushes, irq0Stub, Cpu.execAll, Cpu.exec, Cpu.interrupt, List.foldl_cons, List.foldl_nil, Cpu.push]
  have htop : d.esp = (pushes.foldl Cpu.push c).esp := by
    simp only [d, pushes, irq0Stub, Cpu.execAll, Cpu.exec, Cpu.interrupt, List.foldl_cons, List.foldl_nil, Cpu.push]
  have hesp : d.esp = c.esp - 52 - 4 := by
    rw [htop]
    simp only [pushes, List.foldl_cons, List.foldl_nil, Cpu.push, hpusha, hregs]
  have hd : d.Stacked ((c.esp - 52) :: registersWords ⟨c.edi, c.esi, c.ebp, c.esp - 20, c.ebx, c.edx, c.ecx,
      c.eax, 32, 0, c.eip, c.cs, c.eflags⟩) := by
    have hstacked := hall.congr hmem htop
    simp only [pushes, hpusha, hregs] at hstacked
    exact hstacked
  obtain ⟨harg, hwords⟩ := hd
  refine ⟨hesp, ?_, ?_⟩
  · unfold Cpu.word
    rw [UInt32.mul_zero, UInt32.add_zero]
    exact harg
  · rw [load_registers]
    rw [hesp, UInt32.sub_add_cancel] at hwords
    exact hwords

/-- A timer interrupt that switches leaves the CPU with the next process's registers, on
the stack of the interrupted one. -/
theorem timer_interrupt_context (k : SchedState) (hnext : resumed k = some next) (c : Cpu) (entry : UInt32)
    (scratch : Scratch) :
    cpuContext (timerInterrupt k c entry scratch).2 = { (k.tasks.procs.slot next).ctx with esp := c.esp } := by
  obtain ⟨hesp, harg, -⟩ := stub_frame c entry
  let d := (c.interrupt entry).execAll irq0Stub
  let called := (callIrqHandler k d scratch).2
  have hframe : loadRegisters called.mem (c.esp - 52)
      = (schedTick k (loadRegisters d.mem (d.word 0))).1 := by
    rw [← harg]
    exact load_store_registers ..
  have hback : c.esp - 52 + 52 = c.esp := by simp
  have hrest := epilogue_restores_rest (c := called) k _ hnext hesp hframe
  rw [hback] at hrest
  exact hrest

/-- The program starts on the shell's stack, not on its own. -/
theorem program_starts_on_shell_stack :
    let c : Cpu := ⟨0, 0, 0, 0, 0x9F000, 0, 0, 0, 0x1000, 8, 0x202, fun _ => 0⟩
    resumed lastTick = some 1 ∧
      cpuContext (timerInterrupt lastTick c 0 ⟨0, 0, 0, 0⟩).2 ≠ (lastTick.tasks.procs.slot 1).ctx := by
  intro c
  refine ⟨last_tick_next, ?_⟩
  rw [timer_interrupt_context lastTick last_tick_next]
  decide

end Epilogue

section Fork

/-- Two contexts agree in the registers a fork copies. -/
structure Copied (a b : CpuContext) : Prop where
  ecx : a.ecx = b.ecx
  edx : a.edx = b.edx
  ebx : a.ebx = b.ebx
  esi : a.esi = b.esi
  edi : a.edi = b.edi
  eip : a.eip = b.eip
  eflags : a.eflags = b.eflags

/-- An address inside the stack buffer of slot `i`. -/
def InStack (t : ProcTable) (i : Fin procMax) (a : UInt32) : Prop := ∃ n < procStackSize, a = stackAddr t i + n

/-- The child in slot `i` has the registers of the caller's frame, but 0 in `eax` and a stack
pointer into its own stack, goes on behind the call with 0, and the caller gets its pid. -/
structure Returns (t : ProcTable) (regs : Registers) (curEsp : UInt32) (i : Fin procMax) : Prop where
  copied : Copied ((syscallFork t regs curEsp).2.slot i).ctx (savedContext regs)
  eax : ((syscallFork t regs curEsp).2.slot i).ctx.eax = 0
  esp : InStack t i ((syscallFork t regs curEsp).2.slot i).ctx.esp
  child : ∀ (k : SchedState) (frame : Registers), k.tasks.procs = (syscallFork t regs curEsp).2 → resumed k = some i →
    (schedTick k frame).1.eip = regs.eip ∧ (schedTick k frame).1.eax = 0
  parent : (syscallFork t regs curEsp).1 = { regs with eax := ((syscallFork t regs curEsp).2.slot i).pid }

variable {t : ProcTable} {regs : Registers} {curEsp : UInt32} {c i : Fin procMax}

/-- What a fork leaves in the child's slot comes from the parent's slot, not from the frame. -/
theorem fork_context (hcur : procCurrent t = some c)
    (hfree : firstSlot t (fun p => p.state == .unused) = some i) (regs : Registers) (curEsp : UInt32) :
    ((syscallFork t regs curEsp).2.slot i).ctx =
        { (t.slot c).ctx with esp := stackAddr t i + (curEsp - stackAddr t c), eax := 0 } ∧
      (syscallFork t regs curEsp).1 = { regs with eax := ((syscallFork t regs curEsp).2.slot i).pid } := by
  have hfork : procFork t curEsp = (some i, { t.setSlot i { t.slot c with
      pid := t.nextPid
      parentPid := (t.slot c).pid
      state := .ready
      stackTop := stackAddr t i + procStackSize
      ctx := { (t.slot c).ctx with esp := stackAddr t i + (curEsp - stackAddr t c), eax := 0 } }
      with nextPid := t.nextPid + 1 }) := by
    unfold procFork
    simp only [hcur, hfree]
  unfold syscallFork sysFork
  simp [hfork, Lib.of_int_to_int]

/-- A fork returns twice as it should if and only if the context saved when the caller last
lost the CPU still is what the frame holds, and the caller runs on the stack in its slot. -/
theorem fork_returns_iff (hcur : procCurrent t = some c)
    (hfree : firstSlot t (fun p => p.state == .unused) = some i) (regs : Registers) (curEsp : UInt32) :
    Returns t regs curEsp i ↔ Copied (t.slot c).ctx (savedContext regs) ∧ InStack t c curEsp := by
  obtain ⟨hctx, hframe⟩ := fork_context hcur hfree regs curEsp
  constructor
  · intro h
    have hc := h.copied
    have he := h.esp
    rw [hctx] at hc he
    refine ⟨⟨hc.ecx, hc.edx, hc.ebx, hc.esi, hc.edi, hc.eip, hc.eflags⟩, ?_⟩
    obtain ⟨n, hn, hsum⟩ := he
    refine ⟨n, hn, ?_⟩
    have hoff : curEsp - stackAddr t c = n := (UInt32.add_right_inj _).mp hsum
    rw [← hoff]
    grind
  · rintro ⟨hc, n, hn, hesp⟩
    refine ⟨?_, ?_, ?_, ?_, hframe⟩
    · rw [hctx]
      exact ⟨hc.ecx, hc.edx, hc.ebx, hc.esi, hc.edi, hc.eip, hc.eflags⟩
    · rw [hctx]
    · rw [hctx, hesp]
      exact ⟨n, hn, by simp⟩
    · intro k frame hk hr
      obtain ⟨-, -, -, hresume, -⟩ := tick_resumes frame hr
      rw [hresume, hk, hctx]
      exact ⟨hc.eip, rfl⟩

/-- The program in slot 1 on its first quantum. -/
def started : ProcTable := (schedTick IrqReturn.lastTick IrqReturn.shellRegisters).2.tasks.procs

/-- The frame of its fork, made at `eip` with all registers still 0. -/
def forkFrame (eip : UInt32) : Registers := ⟨0, 0, 0, 0x122040, 0, 0, 0, 11, 0x80, 0, eip, 8, 0x202⟩

theorem started_slots : procCurrent started = some 1 ∧ (started.slot 1).state = .running ∧
    firstSlot started (fun p => p.state == .unused) = some 2 := by decide

/-- A fork as the very first instruction. -/
theorem fork_at_entry : Returns started (forkFrame 0x400000) 0x122000 2 := by
  refine (fork_returns_iff started_slots.1 started_slots.2.2 (forkFrame 0x400000) 0x122000).mpr ⟨?_, ?_⟩
  · exact ⟨by decide, by decide, by decide, by decide, by decide,
      by decide, by decide⟩
  · exact ⟨0xF68, by decide, by decide⟩

/-- A fork at any later place of the first quantum starts the child at the program's entry. -/
theorem fork_restarts_program :
    procCurrent started = some 1 ∧ (started.slot 1).state = .running ∧
      ((syscallFork started (forkFrame 0x400123) 0x122000).2.slot 2).ctx.eip = 0x400000 ∧
        ¬ Returns started (forkFrame 0x400123) 0x122000 2 := by
  refine ⟨started_slots.1, started_slots.2.1, by decide, fun h => ?_⟩
  have heip := h.copied.eip
  revert heip
  decide

end Fork

end BaSic.Proofs.IrqReturn
