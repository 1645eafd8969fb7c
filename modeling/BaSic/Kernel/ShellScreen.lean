import BaSic.Kernel.EditorScreen
import BaSic.Kernel.Rtc
import BaSic.Kernel.ShellRun
import BaSic.Kernel.TextCmds

namespace BaSic.Kernel
open Fs

def termTop : Int := 0
def termBot : Int := 22
def promptRow : Int := 23
def statusRow : Int := 24

/-- The screen, and `shell_row`. -/
structure ShellScreen where
  fb : Framebuffer
  shellRow : Int

/-- `put` of the shell -/
def shellPut (fb : Framebuffer) (col row : Int) (c fg bg : UInt8) : Framebuffer := edPut fb col row c fg bg

def fillRow (fb : Framebuffer) (row : Int) (c fg bg : UInt8) : Framebuffer := edFillRow fb row c fg bg

def strAtRow (fb : Framebuffer) (col row : Int) (s : List UInt8) (fg bg : UInt8) : Framebuffer := edStr fb col row s fg bg

/-- `VGA_BASE[r * VGA_W + c] = VGA_BASE[(r + 1) * VGA_W + c]` -/
def liftCell (r : Nat) (fb : Framebuffer) (c : Nat) : Framebuffer :=
  Function.update fb (r * vgaWidth + c) (fb ((r + 1) * vgaWidth + c))

open VgaColor in
/-- `scroll` of the shell -/
def shellScroll (s : ShellScreen) : ShellScreen :=
  let fb := (List.range termBot.toNat).foldl (fun fb r => (List.range vgaWidth).foldl (liftCell r) fb) s.fb
  { fb := fillRow fb termBot 32 white.code black.code
    shellRow := if s.shellRow > termBot then termBot else s.shellRow }

def shellNewline (s : ShellScreen) : ShellScreen :=
  let s := { s with shellRow := s.shellRow + 1 }
  if s.shellRow > termBot then { shellScroll s with shellRow := termBot } else s

/-- The loop of `shell_puts`. -/
def putsLoop (s : ShellScreen) (col : Int) (fg : UInt8) : List UInt8 → ShellScreen
  | [] => s
  | c :: text =>
    let (s, col) := if c = 10 ∨ col ≥ vgaWidth then (shellNewline s, 0) else (s, col)
    if c ≠ 10 then putsLoop { s with fb := shellPut s.fb col s.shellRow c fg VgaColor.black.code } (col + 1) fg text
    else putsLoop s col fg text

def shellPuts (s : ShellScreen) (text : List UInt8) (fg : UInt8) : ShellScreen := shellNewline (putsLoop s 0 fg text)

open VgaColor in
def cmdClear (s : ShellScreen) : ShellScreen :=
  { fb := (List.range (termBot + 1).toNat).foldl (fun fb (r : Nat) => fillRow fb r 32 white.code black.code) s.fb
    shellRow := termTop }

/-- The loops `put(col++, row, …)` over a text, which need not fit the row. -/
def putRun (fb : Framebuffer) (col row : Int) (fg bg : UInt8) : List UInt8 → Framebuffer × Int
  | [] => (fb, col)
  | c :: text => putRun (shellPut fb col row c fg bg) (col + 1) row fg bg text

open VgaColor in
/-- The prompt in its colours, with the column behind it. -/
def drawPrompt (fb : Framebuffer) (row : Int) (prompt : List UInt8) : Framebuffer × Int :=
  let (fb, col) := putRun fb 0 row lightGreen.code black.code (prompt.takeWhile (· ≠ 58))
  let (fb, col) :=
    putRun fb col row lightCyan.code black.code ((prompt.dropWhile (· ≠ 58)).takeWhile (· ≠ 35))
  let fb := shellPut fb col row 35 white.code black.code
  (shellPut fb (col + 1) row 32 white.code black.code, col + 2)

/-- The string in the array of `build_prompt`. -/
def promptStr (cwd : PathStr) : Except Fault (List UInt8) := do
  let prompt ← buildPrompt 48 cwd
  .ok (lineStr prompt)

open VgaColor in
/-- `echo_input`; `line` is what is in `cmd_buf`. -/
def echoLine (s : ShellScreen) (cwd : PathStr) (line : List UInt8) : Except Fault ShellScreen := do
  let prompt ← promptStr cwd
  let s := shellNewline s
  let (fb, col) := drawPrompt s.fb s.shellRow prompt
  .ok { s with fb := strAtRow fb col s.shellRow line white.code black.code }

open VgaColor in
/-- The loop of `prompt_redraw` over the line, from its character `i` on. -/
def drawLine (fb : Framebuffer) (col : Int) (cursor : Int) : Int → List UInt8 → Framebuffer × Int
  | _, [] => (fb, col)
  | i, c :: line =>
    if col < vgaWidth - 1 then
      let fg := if i = cursor then black.code else white.code
      let bg := if i = cursor then white.code else black.code
      drawLine (shellPut fb col promptRow c fg bg) (col + 1) cursor (i + 1) line
    else (fb, col)

open VgaColor in
/-- `prompt_redraw` -/
def redrawPrompt (s : ShellScreen) (cwd : PathStr) (line : List UInt8) (cursor : Int) : Except Fault ShellScreen := do
  let fb := fillRow s.fb promptRow 32 white.code black.code
  let prompt ← promptStr cwd
  let (fb, col) := drawPrompt fb promptRow prompt
  let (fb, col) := drawLine fb col cursor 0 line
  let fb := if cursor ≥ line.length ∧ col < vgaWidth then shellPut fb col promptRow 32 black.code lightGrey.code else fb
  .ok { s with fb := fb }

/-- Two digits; the number is below 2560. -/
def twoChars (n : Nat) : List UInt8 := [UInt8.ofNat (48 + n / 10), UInt8.ofNat (48 + n % 10)]

def clockText (t : RtcTime) : List UInt8 :=
  let hour := t.hour.toNat + tzOffsetH
  let hour := if hour ≥ 24 then hour - 24 else hour
  twoChars hour ++ [58] ++ twoChars t.minute.toNat ++ [58] ++ twoChars t.second.toNat ++ [32, 66, 68]

def uptimeText (ticks : UInt32) : List UInt8 :=
  let s := (ticks / 1000).toNat
  [124, 32] ++ twoChars (s / 3600 % 256) ++ [58] ++ twoChars (s % 3600 / 60) ++ [58] ++ twoChars (s % 60)

open VgaColor in
def drawStatus (s : ShellScreen) (cwd : PathStr) (t : RtcTime) (ticks : UInt32) : ShellScreen :=
  let fb := fillRow s.fb statusRow 32 black.code darkGrey.code
  let fb := strAtRow fb 1 statusRow (bytes "baSic_ v1.0") lightGreen.code darkGrey.code
  let fb := strAtRow fb 13 statusRow (bytes "|") darkGrey.code darkGrey.code
  let fb := strAtRow fb 15 statusRow cwd.chars white.code darkGrey.code
  let fb := strAtRow fb 55 statusRow (clockText t) lightCyan.code darkGrey.code
  { s with fb := strAtRow fb 68 statusRow (uptimeText ticks) yellow.code darkGrey.code }

/-- What the shell draws. -/
inductive ShellDraw where
  | puts (text : List UInt8) (fg : VgaColor)
  | newline
  | echo (cwd : PathStr) (line : List UInt8)
  | clear
  | prompt (cwd : PathStr) (line : List UInt8) (cursor : Nat)
  | status (cwd : PathStr) (t : RtcTime) (ticks : UInt32)

def ShellDraw.on (s : ShellScreen) : ShellDraw → Except Fault ShellScreen
  | .puts text fg => .ok (shellPuts s text fg.code)
  | .newline => .ok (shellNewline s)
  | .echo cwd line => echoLine s cwd line
  | .clear => .ok (cmdClear s)
  | .prompt cwd line cursor => redrawPrompt s cwd line cursor
  | .status cwd t ticks => .ok (drawStatus s cwd t ticks)

def drawAllOf (s : ShellScreen) (draws : List ShellDraw) : Except Fault ShellScreen := draws.foldlM ShellDraw.on s

end BaSic.Kernel
