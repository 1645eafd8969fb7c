import BaSic.Kernel.Fat12Files
import BaSic.Kernel.ShellRun
import BaSic.Kernel.Shell
import BaSic.Lib.Tabulate

namespace BaSic.Kernel
open Fs Lib

/-- `sizeof(sbuf)` -/
def scriptSize : Nat := 1024

/-- The shell's files, the disk, and what else a command may change. -/
structure ScriptBase (H U : Type) where
  shell : Shell H
  fat : Fat12
  other : U

/-- A script that was run: whether it was read from the disk, the bytes read, and the lines that
were dispatched. -/
structure ScriptCall where
  onDisk : Bool
  bytes : List UInt8
  lines : List (List UInt8)

/-- `sbuf` is the static buffer of `cmd_run` for scripts on the disk; `calls` are the scripts
that have come to their end. -/
structure ScriptWorld (H U : Type) extends ScriptBase H U where
  sbuf : Bytes
  calls : List ScriptCall

variable {H U : Type}

/-- The other commands do not know of the buffer. -/
def overBase (commands : Commands (ScriptBase H U)) : Commands (ScriptWorld H U) where
  promptCol w := commands.promptCol w.toScriptBase
  exec w text args := { w with toScriptBase := commands.exec w.toScriptBase text args }
  saved w bytes := { w with toScriptBase := commands.saved w.toScriptBase bytes }
  startRun w _ := w
  nextLine w := (none, w)

/-- `while (*end && *end != '\n') end++;` with so many characters of the array left. -/
def lineEnd (a : Bytes) (i : Nat) : Nat → Except Fault Nat
  | 0 => .error (.outOfBounds i)
  | left + 1 => if a i ≠ 0 ∧ a i ≠ 10 then lineEnd a (i + 1) left else .ok i

/-- A line that is not empty and no comment. -/
def isCommand (line : List UInt8) : Bool := decide (line ≠ [] ∧ line.head? ≠ some 35)

/-- `if (line[0] && line[0] != '#') shell_exec_line(line);` -/
def runCommand {σ : Type} (execLine : List UInt8 → σ → Except Fault σ) (text : List UInt8) (st : σ) : Except Fault σ :=
  if isCommand text then execLine text st else .ok st

/-- The two loops of `cmd_run`, which differ in where their buffer is. The lines given to
`dispatch` are returned. -/
def scriptLoop {σ : Type} (get : σ → Bytes) (set : Bytes → σ → σ) (execLine : List UInt8 → σ → Except Fault σ) :
    Nat → Nat → σ → Except Fault (List (List UInt8) × σ)
  | 0, _, _ => .error .timeout
  | fuel + 1, line, st =>
    if line < scriptSize then
      if get st line = 0 then .ok ([], st)
      else do
        let stop ← lineEnd (get st) line (scriptSize - line)
        let saved := get st stop
        let text := tabulate (stop - line) (fun k => get st (line + k))
        let st := set (Function.update (get st) stop 0) st
        let st ← runCommand execLine text st
        let st := set (Function.update (get st) stop saved) st
        let (rest, st) ← scriptLoop get set execLine fuel (if get st stop = 0 then stop else stop + 1) st
        .ok ((if isCommand text then [text.take (cmdBufSize - 1).toNat] else []) ++ rest, st)
    else .error (.outOfBounds line)

/-- The string of `path`. -/
def cString (path : List UInt8) : CString :=
  ⟨path.takeWhile (· ≠ 0), fun c hc => by simpa using List.mem_takeWhile_imp hc⟩

def ScriptWorld.setBuf (sbuf : Bytes) (st : ShellState (ScriptWorld H U)) : ShellState (ScriptWorld H U) :=
  (st.1, { st.2 with sbuf := sbuf })

def ScriptWorld.done (call : ScriptCall) (st : ShellState (ScriptWorld H U)) : ShellState (ScriptWorld H U) :=
  (st.1, { st.2 with calls := st.2.calls ++ [call] })

variable (commands : Commands (ScriptBase H U))

/-- `shell_exec_line` in the loop over the buffer on the stack. -/
def ramLine (run : List UInt8 → ShellState (ScriptWorld H U) → Except Fault (ShellState (ScriptWorld H U)))
    (text : List UInt8) (st : Bytes × ShellState (ScriptWorld H U)) :
    Except Fault (Bytes × ShellState (ScriptWorld H U)) := do
  let next ← shellExecLine (overBase commands) run text st.2
  .ok (st.1, next)

/-- A script may run scripts, itself among them, so that the fuel can run out. -/
def runScript : Nat → List UInt8 → ShellState (ScriptWorld H U) → Except Fault (ShellState (ScriptWorld H U))
  | 0, _, _ => .error .timeout
  | fuel + 1, path, (s, w) =>
    if path = [] then .ok (s, w)
    else do
      let full ← makeFull w.shell.cwd path
      match fileAt w.shell.files full.chars with
      | none => do
        let (n, sbuf, fat) ← fat12Read chainFuel w.fat (some (cString path)) (some w.sbuf) 1023
        let sbuf := sbuf.getD w.sbuf
        let st := (s, { w with fat := fat, sbuf := sbuf })
        if n ≤ 0 then .ok st
        else do
          let st := ScriptWorld.setBuf (Function.update sbuf n.toNat 0) st
          let (lines, st) ← scriptLoop (fun st => st.2.sbuf) ScriptWorld.setBuf
            (shellExecLine (overBase commands) (runScript fuel)) (scriptSize + 1) 0 st
          .ok (ScriptWorld.done ⟨true, tabulate n.toNat sbuf, lines⟩ st)
      | some node => do
        let bytes ← vfsRead ramfsOps w.shell.files.fs (some node) 0 1023
        let (lines, _, st) ← scriptLoop (fun st => st.1) (fun sbuf st => (sbuf, st.2))
          (ramLine commands (runScript fuel)) (scriptSize + 1) 0 ((fun i => bytes.getD i 0 : Bytes), s, w)
        .ok (ScriptWorld.done ⟨false, bytes, lines⟩ st)

end BaSic.Kernel
