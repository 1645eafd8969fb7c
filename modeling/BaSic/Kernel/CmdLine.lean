import BaSic.CString
import BaSic.Machine

namespace BaSic.Kernel

def cmdBufSize : Int := 78

def historySize : Int := 32

/-- The statics of the shell's input line. -/
structure CmdLine where
  cmdBuf : Int → UInt8
  cmdLen : Int
  cursorPos : Int
  history : Int → Int → UInt8
  historyCount : Int
  historyIdx : Int

/-- An `int` after an operation that may have left its range. -/
def wrapInt (x : Int) : Int := (x + 2147483648) % 4294967296 - 2147483648

/-- Going over an array of `CMD_BUF_SIZE` characters from `i` on while they are of a kind, `n`
characters at most. -/
def spanFrom (go : UInt8 → Bool) (a : Int → UInt8) (i : Int) : Nat → Except Fault (List UInt8)
  | 0 => .ok []
  | n + 1 =>
    if 0 ≤ i ∧ i < cmdBufSize then
      if go (a i) then do
        let rest ← spanFrom go a (i + 1) n
        .ok (a i :: rest)
      else .ok []
    else .error (.outOfBounds i.toNat)

/-- One more than there are in the array. -/
def unlimited : Nat := 79

/-- The string at `a + i`, as `strlen`, `strcmp` and the others go over it. -/
def strAt (a : Int → UInt8) (i : Int) : Except Fault (List UInt8) := spanFrom (· ≠ 0) a i unlimited

/-- `strncpy(dst, src, CMD_BUF_SIZE - 1)`, which writes no more than the array has. -/
def copyStr (dst : Int → UInt8) (src : List UInt8) : Int → UInt8 := fun i =>
  if 0 ≤ i then strncpyFrom (fun k => dst k) 0 src (cmdBufSize - 1).toNat i.toNat else dst i

/-- What `strncpy` reads of its source. -/
def sourceAt (a : Int → UInt8) : Except Fault (List UInt8) := spanFrom (· ≠ 0) a 0 (cmdBufSize - 1).toNat

namespace CmdLine

/-- `cmd_buf[i]` -/
def charAt (s : CmdLine) (i : Int) : Except Fault UInt8 :=
  if 0 ≤ i ∧ i < cmdBufSize then .ok (s.cmdBuf i) else .error (.outOfBounds i.toNat)

def setChar (s : CmdLine) (i : Int) (c : UInt8) : Except Fault CmdLine :=
  if 0 ≤ i ∧ i < cmdBufSize then .ok { s with cmdBuf := Function.update s.cmdBuf i c }
  else .error (.outOfBounds i.toNat)

/-- `history[i % HISTORY_SIZE]` -/
def rowAt (s : CmdLine) (i : Int) : Except Fault (Int → UInt8) :=
  if 0 ≤ i.tmod historySize then .ok (s.history (i.tmod historySize)) else .error (.outOfBounds 0)

/-- `cmd_len = cursor_pos = 0; memset(cmd_buf, 0, CMD_BUF_SIZE);` -/
def clear (s : CmdLine) : CmdLine := { s with cmdBuf := fun _ => 0, cmdLen := 0, cursorPos := 0 }

end CmdLine

/-- The characters `cmd_buf[i]` and on, as many as asked for. -/
def lineChars (s : CmdLine) (i : Int) : Nat → Except Fault (List UInt8)
  | 0 => .ok []
  | k + 1 => do
    let c ← s.charAt i
    let rest ← lineChars s (i + 1) k
    .ok (c :: rest)

/-- `prompt_redraw`, of which only the text after the prompt reads the buffer. -/
def promptRedraw (col : Int) (s : CmdLine) : Except Fault CmdLine := do
  let _ ← lineChars s 0 (min s.cmdLen (79 - col)).toNat
  .ok s

def echoInput (col : Int) (s : CmdLine) : Except Fault CmdLine := do
  let _ ← lineChars s 0 (min s.cmdLen (80 - col)).toNat
  .ok s

/-- `strncpy(history[slot], line, CMD_BUF_SIZE - 1)` and what follows it. -/
def pushRow (s : CmdLine) (line : List UInt8) : Except Fault CmdLine := do
  let row ← s.rowAt s.historyCount
  let row := Function.update (copyStr row line) (cmdBufSize - 1) 0
  .ok { s with history := Function.update s.history (s.historyCount.tmod historySize) row,
               historyCount := wrapInt (s.historyCount + 1) }

def historyPush (s : CmdLine) : Except Fault CmdLine :=
  if s.cmdLen = 0 then .ok s
  else do
    let line ← sourceAt s.cmdBuf
    let s ← pushRow s line
    .ok { s with historyIdx := -1 }

/-- `strncpy(cmd_buf, history[history_idx % HISTORY_SIZE], CMD_BUF_SIZE - 1)` and what follows it. -/
def recallEntry (s : CmdLine) : Except Fault CmdLine := do
  let row ← s.rowAt s.historyIdx
  let line ← sourceAt row
  let s := { s with cmdBuf := copyStr s.cmdBuf line }
  let line ← strAt s.cmdBuf 0
  .ok { s with cmdLen := line.length, cursorPos := line.length }

def historyUp (col : Int) (s : CmdLine) : Except Fault CmdLine :=
  if s.historyCount = 0 then .ok s
  else do
    let idx := if s.historyIdx = -1 then wrapInt (s.historyCount - 1)
      else if s.historyIdx > 0 then s.historyIdx - 1
      else s.historyIdx
    let s ← recallEntry { s with historyIdx := idx }
    promptRedraw col s

def historyDown (col : Int) (s : CmdLine) : Except Fault CmdLine :=
  if s.historyIdx = -1 then .ok s
  else if wrapInt (s.historyIdx + 1) ≥ s.historyCount then promptRedraw col { s.clear with historyIdx := -1 }
  else do
    let s ← recallEntry { s with historyIdx := wrapInt (s.historyIdx + 1) }
    promptRedraw col s

/-- The bytes of a string literal. -/
def literal (text : String) : List UInt8 := text.toUTF8.toList

def completions : List (List UInt8) :=
  ["help", "clear", "echo", "calc", "color", "env", "export", "unset", "uptime", "time", "mem", "sysinfo", "dmesg",
    "top", "ps", "kill", "spawn", "history", "pwd", "cd", "ls", "cat", "write", "mkdir", "find", "grep", "diskls",
    "diskcat", "diskwrite", "diskdel", "disksync", "chmod", "touch", "rm", "mv", "cp", "wc", "head", "tail",
    "netinfo", "arp", "ping", "udpsend", "date", "whoami", "hostname", "uname", "sort", "uniq", "proctest", "edit",
    "shoot", "about", "reboot", "halt", "poweroff"].map literal

/-- The only completion, with a space behind it if there is room. -/
def complete (s : CmdLine) (word : List UInt8) : Except Fault CmdLine := do
  let s := { s with cmdBuf := copyStr s.cmdBuf word }
  let line ← strAt s.cmdBuf 0
  let len : Int := line.length
  if len < cmdBufSize - 1 then do
    let s ← s.setChar len 32
    .ok { s with cmdLen := len + 1, cursorPos := len + 1 }
  else .ok { s with cmdLen := len, cursorPos := len }

def tabComplete (col : Int) (s : CmdLine) : Except Fault CmdLine := do
  let s ← s.setChar s.cmdLen 0
  let typed ← strAt s.cmdBuf 0
  match completions.filter (fun word => typed.isPrefixOf word) with
  | [] => .ok s
  | [word] => do
    let s ← complete s word
    promptRedraw col s
  | _ => promptRedraw col s

/-- The rounds of `cmd_buf[i] = cmd_buf[i + 1]` from `i` on. -/
def pullBack (s : CmdLine) (i : Int) : Nat → Except Fault CmdLine
  | 0 => .ok s
  | k + 1 => do
    let c ← s.charAt (i + 1)
    let s ← s.setChar i c
    pullBack s (i + 1) k

/-- The rounds of `cmd_buf[i] = cmd_buf[i - 1]` from `i` down. -/
def pushOn (s : CmdLine) (i : Int) : Nat → Except Fault CmdLine
  | 0 => .ok s
  | k + 1 => do
    let c ← s.charAt (i - 1)
    let s ← s.setChar i c
    pushOn s (i - 1) k

/-- The character at `i` is taken out of the line. -/
def removeChar (s : CmdLine) (i : Int) : Except Fault CmdLine := do
  let s ← pullBack s i (s.cmdLen - 1 - i).toNat
  let s := { s with cmdLen := s.cmdLen - 1 }
  s.setChar s.cmdLen 0

def keyDelete (col : Int) (s : CmdLine) : Except Fault CmdLine :=
  if s.cursorPos < s.cmdLen then do
    let s ← removeChar s s.cursorPos
    promptRedraw col s
  else .ok s

def keyBackspace (col : Int) (s : CmdLine) : Except Fault CmdLine :=
  if s.cursorPos > 0 then do
    let s ← removeChar s (s.cursorPos - 1)
    promptRedraw col { s with cursorPos := s.cursorPos - 1 }
  else .ok s

def insertChar (col : Int) (s : CmdLine) (c : UInt8) : Except Fault CmdLine := do
  let s ← pushOn s s.cmdLen (s.cmdLen - s.cursorPos).toNat
  let s ← s.setChar s.cursorPos c
  promptRedraw col { s with cursorPos := s.cursorPos + 1, cmdLen := s.cmdLen + 1 }

/-- Whether the query is somewhere in the text. -/
def hasQuery (query text : List UInt8) : Bool := text.tails.any (fun t => query.isPrefixOf t)

/-- The entry that has the query, from `i` down, as many as are left. -/
def findMatch (s : CmdLine) (query : List UInt8) (i : Int) : Nat → Except Fault (Option (Int × List UInt8))
  | 0 => .ok none
  | k + 1 => do
    let row ← s.rowAt i
    let text ← strAt row 0
    if hasQuery query text then .ok (some (i, text)) else findMatch s query (i - 1) k

/-- The match for the query; the loop goes down to entry 0. -/
def searchHistory (s : CmdLine) (query : List UInt8) : Except Fault (Option (Int × List UInt8)) :=
  if query = [] then .ok none
  else findMatch s query (wrapInt (s.historyCount - 1)) (wrapInt (s.historyCount - 1) + 1).toNat

/-- What a search session comes to: it was left with a match or without one, given up, or it
goes on. A second Ctrl-R looks further back, which the next round forgets. -/
inductive Search where
  | accept (found : Option (Int × List UInt8))
  | cancel
  | pending

def searchLoop (s : CmdLine) (query : List UInt8) : List UInt8 → Except Fault Search
  | [] => .ok .pending
  | c :: keys => do
    let found ← searchHistory s query
    if c = 0 then searchLoop s query keys
    else if c = 10 then .ok (.accept found)
    else if c = 18 then do
      match found with
      | none => searchLoop s query keys
      | some (i, _) => do
        let _ ← findMatch s query (i - 1) i.toNat
        searchLoop s query keys
    else if c = 3 ∨ c = 27 then .ok .cancel
    else if c = 8 then searchLoop s query.dropLast keys
    else if 32 ≤ c ∧ c < 127 ∧ (query.length : Int) < cmdBufSize - 1 then searchLoop s (query ++ [c]) keys
    else searchLoop s query keys

/-- `memcpy(cmd_buf, text, len); cmd_buf[len] = '\0';` -/
def putText (s : CmdLine) (text : List UInt8) : Except Fault CmdLine :=
  CmdLine.setChar { s with cmdBuf := fun i => if 0 ≤ i ∧ i < text.length then text.getD i.toNat 0 else s.cmdBuf i }
    text.length 0

def acceptMatch (s : CmdLine) (text : List UInt8) : Except Fault CmdLine :=
  if (text.length : Int) < cmdBufSize then do
    let s ← putText s text
    .ok { s with cmdLen := text.length, cursorPos := text.length }
  else .ok s

def ctrlRSearch (col : Int) (s : CmdLine) (keys : List UInt8) : Except Fault CmdLine := do
  match ← searchLoop s [] keys with
  | .pending => .ok s
  | .cancel => promptRedraw col s.clear
  | .accept none => promptRedraw col s
  | .accept (some (_, text)) => do
    let s ← acceptMatch s text
    promptRedraw col s

end BaSic.Kernel
