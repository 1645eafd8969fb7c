import BaSic.Kernel.Calc
import BaSic.Kernel.CmdLine

namespace BaSic.Kernel

/-- What a command does that `dispatch` finds. -/
inductive CmdKind where
  | plain
  | listHistory
  | saveHistory
  | rest
  | split
  | signal
  | script
  deriving DecidableEq

/-- A test of `dispatch`: the text compared with, in full or as far as it goes, the offset of
the first argument, and what is then called. -/
structure CmdEntry where
  text : List UInt8
  whole : Bool
  off : Int
  kind : CmdKind

/-- `!streq(cmd_buf, text)` -/
def wholeLine (kind : CmdKind) (text : String) : CmdEntry := ⟨literal text, true, 0, kind⟩

/-- `!strncmp(cmd_buf, text, n)` with the arguments from `cmd_buf + off` on. -/
def startOf (kind : CmdKind) (text : String) (off : Int) : CmdEntry := ⟨literal text, false, off, kind⟩

/-- The tests in their order; those for `kill` and `grep` leave out the blank. -/
def commandTable : List CmdEntry :=
  ["help", "clear", "uptime", "time", "mem", "sysinfo", "dmesg", "top", "ps"].map (wholeLine .plain) ++
  [wholeLine .listHistory "history"] ++
  ["pwd", "ls", "env", "diskls", "disksync", "about", "shoot"].map (wholeLine .plain) ++
  ["reboot", "halt"].map (wholeLine .saveHistory) ++
  ["alias", "netinfo", "date", "whoami", "hostname", "uname", "proctest"].map (wholeLine .plain) ++
  [wholeLine .saveHistory "poweroff", startOf .split "cp " 3, startOf .split "mv " 3, startOf .rest "wc " 3,
    startOf .rest "head " 5, startOf .rest "tail " 5, startOf .rest "sort " 5, startOf .rest "uniq " 5,
    startOf .rest "udpsend " 8, startOf .rest "arp " 4, startOf .rest "ping " 5, startOf .script "run " 4,
    startOf .rest "touch " 6, startOf .rest "rm " 3, startOf .rest "echo " 5, startOf .rest "calc " 5,
    startOf .rest "color " 6, startOf .rest "cd " 3, startOf .rest "mkdir " 6, startOf .rest "cat " 4,
    startOf .rest "find " 5, startOf .rest "export " 7, startOf .rest "unset " 6, startOf .rest "edit " 5,
    startOf .rest "diskcat " 8, startOf .rest "diskdel " 8, startOf .rest "spawn " 6, startOf .signal "kill" 5,
    startOf .split "grep" 5, startOf .split "write " 6, startOf .split "diskwrite " 10, startOf .split "chmod " 6]

def CmdEntry.matches (e : CmdEntry) (line : List UInt8) : Bool :=
  if e.whole then line == e.text else e.text.isPrefixOf line

/-- What lies beyond the line and the history: where the text starts on the prompt row, what
the commands do when they are given their arguments, what becomes of the history saved, and
the lines that `cmd_run` finds in a script, one after the other. -/
structure Commands (W : Type) where
  promptCol : W → Int
  exec : W → List UInt8 → List (List UInt8) → W
  saved : W → List UInt8 → W
  startRun : W → List UInt8 → W
  nextLine : W → Option (List UInt8) × W

variable {W : Type} (commands : Commands W)

/-- The entries `history[i % HISTORY_SIZE]` from `i` on, as many as asked for. -/
def entriesFrom (s : CmdLine) (i : Int) : Nat → Except Fault (List (List UInt8))
  | 0 => .ok []
  | k + 1 => do
    let row ← s.rowAt i
    let text ← strAt row 0
    let rest ← entriesFrom s (i + 1) k
    .ok (text :: rest)

/-- `(history_count > HISTORY_SIZE) ? history_count - HISTORY_SIZE : 0` -/
def oldestEntry (s : CmdLine) : Int := if s.historyCount > historySize then s.historyCount - historySize else 0

/-- What `cmd_history` goes over. -/
def cmdHistory (s : CmdLine) : Except Fault (List (List UInt8)) :=
  entriesFrom s (oldestEntry s) (s.historyCount - oldestEntry s).toNat

/-- `sizeof(hbuf)` -/
def hbufSize : Nat := 2496

/-- The loop of `history_save`, which stops where the next entry would not leave a byte. -/
def saveLoop (s : CmdLine) (hbuf : List UInt8) (i : Int) : Nat → Except Fault (List UInt8)
  | 0 => .ok hbuf
  | k + 1 => do
    let row ← s.rowAt i
    let text ← strAt row 0
    if hbuf.length + text.length + 1 ≥ hbufSize then .ok hbuf
    else saveLoop s (hbuf ++ text ++ [10]) (i + 1) k

/-- The bytes `history_save` writes, if there are any. -/
def historySave (s : CmdLine) : Except Fault (List UInt8) :=
  saveLoop s [] (oldestEntry s) (s.historyCount - oldestEntry s).toNat

/-- The loop of `history_load`; each round takes a character at least. -/
def loadEntries (s : CmdLine) (text : List UInt8) : Nat → Except Fault CmdLine
  | 0 => .ok s
  | fuel + 1 =>
    if text = [] ∨ s.historyCount ≥ historySize * 2 then .ok s
    else do
      let line := text.takeWhile (· ≠ 10)
      let rest := (text.drop line.length).drop 1
      let s ← if line = [] then .ok s else pushRow s line
      loadEntries s rest fuel

/-- `history_load`, given what `fat12_read` found, which is cut to the buffer. -/
def historyLoad (s : CmdLine) (file : Option (List UInt8)) : Except Fault CmdLine :=
  match file with
  | none => .ok s
  | some bytes =>
    let text := (bytes.take (hbufSize - 1)).takeWhile (· ≠ 0)
    loadEntries s text text.length

/-- The statics as `shell_init` leaves them before the history is loaded. -/
def freshLine : CmdLine := ⟨fun _ => 0, 0, 0, fun _ _ => 0, 0, -1⟩

/-- The statics as `shell_init` leaves them. -/
def shellInit (file : Option (List UInt8)) (col : Int) : Except Fault CmdLine := do
  let s ← historyLoad freshLine file
  promptRedraw col s

/-- The line and all beyond it. -/
abbrev ShellState (W : Type) := CmdLine × W

/-- A command given what lies between its name and the first blank, and what comes after. -/
def splitArgs (s : CmdLine) (w : W) (e : CmdEntry) : Except Fault (ShellState W) := do
  let first ← spanFrom (fun c => c ≠ 0 ∧ c ≠ 32) s.cmdBuf e.off unlimited
  let sp := e.off + first.length
  if (← s.charAt sp) = 32 then do
    let s ← s.setChar sp 0
    let arg ← strAt s.cmdBuf e.off
    let arg' ← strAt s.cmdBuf (sp + 1)
    .ok (s, commands.exec w e.text [arg, arg'])
  else .ok (s, w)

/-- The digits of the process and those of the signal, if it is given. -/
def signalArgs (s : CmdLine) (w : W) (e : CmdEntry) : Except Fault (ShellState W) := do
  let pid ← spanFrom isDigit s.cmdBuf e.off unlimited
  let p := e.off + pid.length
  if (← s.charAt p) = 32 then do
    let sig ← spanFrom isDigit s.cmdBuf (p + 1) unlimited
    .ok (s, commands.exec w e.text [pid, sig])
  else .ok (s, commands.exec w e.text [pid])

/-- The call that a test leads to; `cmdRun` is what runs a script. -/
def runEntry (cmdRun : List UInt8 → ShellState W → Except Fault (ShellState W)) (s : CmdLine) (w : W)
    (e : CmdEntry) : Except Fault (ShellState W) :=
  match e.kind with
  | .plain => .ok (s, commands.exec w e.text [])
  | .listHistory => do
    let _ ← cmdHistory s
    .ok (s, commands.exec w e.text [])
  | .saveHistory => do
    let bytes ← historySave s
    let w := if bytes = [] then w else commands.saved w bytes
    .ok (s, commands.exec w e.text [])
  | .rest => do
    let arg ← strAt s.cmdBuf e.off
    .ok (s, commands.exec w e.text [arg])
  | .split => splitArgs commands s w e
  | .signal => signalArgs commands s w e
  | .script => do
    let path ← strAt s.cmdBuf e.off
    cmdRun path (s, w)

/-- `!!` stands for the last entry, if there is one. -/
def expandLast (s : CmdLine) : Except Fault (Option CmdLine) := do
  if s.cmdLen = 2 then
    if (← s.charAt 0) = 33 ∧ (← s.charAt 1) = 33 then
      if s.historyCount > 0 then do
        let row ← s.rowAt (s.historyCount - 1)
        let text ← strAt row 0
        if (text.length : Int) < cmdBufSize then do
          let s ← putText s text
          .ok (some { s with cmdLen := text.length })
        else .ok (some s)
      else .ok none
    else .ok (some s)
  else .ok (some s)

/-- A line that no test is true of is only printed. -/
def dispatch (cmdRun : List UInt8 → ShellState W → Except Fault (ShellState W)) (st : ShellState W) :
    Except Fault (ShellState W) := do
  let s ← st.1.setChar st.1.cmdLen 0
  if s.cmdLen = 0 then .ok (s, st.2)
  else do
    match ← expandLast s with
    | none => .ok (s, st.2)
    | some s => do
      let line ← strAt s.cmdBuf 0
      match commandTable.find? (fun e => e.matches line) with
      | none => .ok (s, st.2)
      | some e => runEntry commands cmdRun s st.2 e

def shellExecLine (cmdRun : List UInt8 → ShellState W → Except Fault (ShellState W)) (line : List UInt8)
    (st : ShellState W) : Except Fault (ShellState W) := do
  let text := line.take (cmdBufSize - 1).toNat
  let s ← putText st.1 text
  let (s, w) ← dispatch commands cmdRun ({ s with cmdLen := text.length }, st.2)
  .ok ({ s with cmdLen := 0, cmdBuf := fun _ => 0 }, w)

/-- The loop of `cmd_run` over the lines of the script. -/
def runLines (execLine : List UInt8 → ShellState W → Except Fault (ShellState W)) :
    Nat → ShellState W → Except Fault (ShellState W)
  | 0, _ => .error .timeout
  | fuel + 1, (s, w) =>
    match commands.nextLine w with
    | (none, w) => .ok (s, w)
    | (some line, w) => do
      let st ← execLine line (s, w)
      runLines execLine fuel st

/-- A script may run scripts, itself among them, so that the fuel can run out. -/
def cmdRun : Nat → List UInt8 → ShellState W → Except Fault (ShellState W)
  | 0, _, _ => .error .timeout
  | fuel + 1, path, (s, w) =>
    if path = [] then .ok (s, w)
    else runLines commands (shellExecLine commands (cmdRun fuel)) fuel (s, commands.startRun w path)

/-- A key; for Ctrl-R also what is typed in the session it opens. -/
inductive ShellKey where
  | up
  | down
  | left
  | right
  | home
  | «end»
  | del
  | char (c : UInt8) (session : List UInt8)

def enterLine (fuel : Nat) (st : ShellState W) : Except Fault (ShellState W) := do
  let s ← echoInput (commands.promptCol st.2) st.1
  let s ← historyPush s
  let (s, w) ← dispatch commands (cmdRun commands fuel) (s, st.2)
  let s ← promptRedraw (commands.promptCol w) s.clear
  .ok (s, w)

/-- The keys that edit the line. -/
def editKey (col : Int) (s : CmdLine) : ShellKey → Except Fault CmdLine
  | .up => historyUp col s
  | .down => historyDown col s
  | .left => if s.cursorPos > 0 then promptRedraw col { s with cursorPos := s.cursorPos - 1 } else .ok s
  | .right => if s.cursorPos < s.cmdLen then promptRedraw col { s with cursorPos := s.cursorPos + 1 } else .ok s
  | .home => promptRedraw col { s with cursorPos := 0 }
  | .end => promptRedraw col { s with cursorPos := s.cmdLen }
  | .del => keyDelete col s
  | .char c session =>
    if c = 8 then keyBackspace col s
    else if c = 9 then tabComplete col s
    else if c = 21 then promptRedraw col s.clear
    else if c = 18 then ctrlRSearch col s session
    else if 32 ≤ c ∧ c < 127 ∧ s.cmdLen < cmdBufSize - 1 then insertChar col s c
    else .ok s

def ShellKey.isEnter : ShellKey → Bool
  | .char c _ => c = 10
  | _ => false

/-- One event of `shell_run`. -/
def shellKey (fuel : Nat) (st : ShellState W) (key : ShellKey) : Except Fault (ShellState W) :=
  if key.isEnter then enterLine commands fuel st
  else do
    let s ← editKey (commands.promptCol st.2) st.1 key
    .ok (s, st.2)

end BaSic.Kernel
