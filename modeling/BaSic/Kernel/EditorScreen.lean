import BaSic.Kernel.EditorFiles
import BaSic.Kernel.Vga

namespace BaSic.Kernel
open Fs

def rowTitle : Int := 0
def rowTextS : Int := 1
def rowTextE : Int := 22
def rowStatus : Int := 23
def rowMsg : Int := 24

def edPut (fb : Framebuffer) (col row : Int) (c fg bg : UInt8) : Framebuffer :=
  if col < 0 ∨ vgaWidth ≤ col ∨ row < 0 ∨ vgaHeight ≤ row then fb
  else Function.update fb (row * vgaWidth + col).toNat (vgaCell c ((bg <<< 4) ||| fg))

def edFillRow (fb : Framebuffer) (row : Int) (c fg bg : UInt8) : Framebuffer :=
  (List.range vgaWidth).foldl (fun fb (i : Nat) => edPut fb i row c fg bg) fb

def edStr (fb : Framebuffer) (col row : Int) (s : List UInt8) (fg bg : UInt8) : Framebuffer :=
  match s with
  | [] => fb
  | c :: s => if col < vgaWidth then edStr (edPut fb col row c fg bg) (col + 1) row s fg bg else fb

/-- The loop of `ed_num`, with `i + 1` characters of `buf` left in front. -/
def edDigits : Nat → UInt32 → List UInt8 → Except Fault (List UInt8)
  | i, v, text =>
    if v = 0 then .ok text
    else match i with
      | 0 => .error (.outOfBounds 0)
      | i + 1 => edDigits i (v / 10) ((48 + (v % 10).toUInt8) :: text)

def edNum (fb : Framebuffer) (col row : Int) (v : UInt32) (fg bg : UInt8) : Except Fault Framebuffer :=
  if v = 0 then .ok (edPut fb col row 48 fg bg)
  else do
    let text ← edDigits 11 v []
    .ok (edStr fb col row text fg bg)

open VgaColor in
def renderTitlebar (s : Editor) (fb : Framebuffer) : Framebuffer :=
  let fb := edFillRow fb rowTitle 32 black.code lightGrey.code
  let fb := edStr fb 1 rowTitle (bytes "baSic_ editor") black.code lightGrey.code
  let fb := edStr fb 16 rowTitle (bytes "|") darkGrey.code lightGrey.code
  let fb := edStr fb 18 rowTitle s.filename black.code lightGrey.code
  let fb :=
    if s.modified then edStr fb (18 + s.filename.length) rowTitle (bytes " [modified]") red.code lightGrey.code else fb
  edStr fb 45 rowTitle (bytes "^S save  ^Q quit  ^F find  ^K del") darkGrey.code lightGrey.code

/-- `lbuf`, of which `li + 1` characters are not set yet; these stay blank when the number is through. -/
def gutterText : Nat → UInt32 → List UInt8 → List UInt8
  | 0, _, text => text
  | li + 1, lnum, text => gutterText li (lnum / 10) ((if lnum > 0 then 48 + (lnum % 10).toUInt8 else 32) :: text)

/-- One turn of the loop that highlights the cursor line. -/
def highlightCell (vrow : Int) (fb : Framebuffer) (c : Nat) : Except Fault Framebuffer := do
  let cell ← fbLoad fb (vrow * vgaWidth + c)
  .ok (edPut fb c vrow cell.toUInt8 ((cell >>> 8).toUInt8 &&& 0x0F) VgaColor.darkGrey.code)

open VgaColor in
/-- One turn of the loop of `render_text`. -/
def renderLine (s : Editor) (fb : Framebuffer) (r : Nat) : Except Fault Framebuffer :=
  let line := s.scrollY + r
  let vrow := rowTextS + r
  let fb := edFillRow fb vrow 32 lightGrey.code black.code
  if line ≥ s.numLines then .ok fb
  else do
    let fb := edStr fb 0 vrow (gutterText 4 (UInt32.ofInt (line + 1)) []) darkGrey.code black.code
    let fb := edPut fb 4 vrow 32 darkGrey.code black.code
    let len ← s.lenAt line
    -- the columns from 5 on have room for 75 characters
    let text ← lineText s line 0 (min len 75).toNat
    let fb := edStr fb 5 vrow text white.code black.code
    if line = s.cy then (List.range vgaWidth).foldlM (highlightCell vrow) fb else .ok fb

def drawText (s : Editor) (fb : Framebuffer) : Except Fault Framebuffer := (List.range edRows).foldlM (renderLine s) fb

def renderCursor (s : Editor) (fb : Framebuffer) : Except Fault Framebuffer :=
  let vrow := rowTextS + (s.cy - s.scrollY)
  if vrow < rowTextS ∨ vrow > rowTextE then .ok fb
  else do
    let vcol := if s.cx + 5 ≥ vgaWidth then (vgaWidth : Int) - 1 else s.cx + 5
    let cell ← fbLoad fb (vrow * vgaWidth + vcol)
    let ch := cell.toUInt8
    .ok (edPut fb vcol vrow (if ch ≠ 0 then ch else 32) VgaColor.black.code VgaColor.white.code)

open VgaColor in
def renderStatusbar (s : Editor) (fb : Framebuffer) : Except Fault Framebuffer := do
  let fb := edFillRow fb rowStatus 32 black.code cyan.code
  let fb := edStr fb 1 rowStatus (bytes "Ln:") black.code cyan.code
  let fb ← edNum fb 4 rowStatus (UInt32.ofInt (s.cy + 1)) black.code cyan.code
  let fb := edStr fb 8 rowStatus (bytes "Col:") black.code cyan.code
  let fb ← edNum fb 12 rowStatus (UInt32.ofInt (s.cx + 1)) black.code cyan.code
  let fb := edStr fb 16 rowStatus (bytes "Lines:") black.code cyan.code
  edNum fb 22 rowStatus (UInt32.ofInt s.numLines) black.code cyan.code

/-- The text of `render_msgbar` where there is no message, or one that is old. -/
def keysHelp : List UInt8 := bytes "^S save  ^Q quit  ^K kill  ^A home  ^E end  ^F find  ^N next"

open VgaColor in
/-- `age` is `timer_ticks() - msg_time`. -/
def renderMsgbar (s : Editor) (age : UInt32) (fb : Framebuffer) : Framebuffer :=
  let fb := edFillRow fb rowMsg 32 lightGrey.code black.code
  if bytes s.msg ≠ [] ∧ age < 3000 then edStr fb 1 rowMsg (bytes s.msg) lightGreen.code black.code
  else edStr fb 1 rowMsg keysHelp darkGrey.code black.code

/-- `render_all` on the screen. -/
def drawAll (s : Editor) (age : UInt32) (fb : Framebuffer) : Except Fault Framebuffer := do
  let fb := renderTitlebar s fb
  let fb ← drawText s fb
  let fb ← renderStatusbar s fb
  let fb := renderMsgbar s age fb
  renderCursor s fb

open VgaColor in
/-- What the loop of `ed_search_prompt` draws. -/
def promptDraws (fb : Framebuffer) (query : List UInt8) : List UInt8 → Framebuffer
  | [] => fb
  | c :: keys =>
    if c = 0 then promptDraws fb query keys
    else if c = 10 ∨ c = 6 then fb
    else if c = 27 ∨ c = 17 then fb
    else if c = 8 then
      if query.length > 0 then
        let query := query.dropLast
        let fb := edPut fb (7 + query.length + 1) rowMsg 32 cyan.code cyan.code
        promptDraws (edPut fb (7 + query.length) rowMsg 95 black.code white.code) query keys
      else promptDraws fb query keys
    else if 32 ≤ c ∧ c < 127 ∧ query.length < 63 then
      let fb := edPut fb (7 + query.length) rowMsg c yellow.code cyan.code
      promptDraws (edPut fb (7 + query.length + 1) rowMsg 95 black.code white.code) (query ++ [c]) keys
    else promptDraws fb query keys

open VgaColor in
def promptScreen (s : Editor) (fb : Framebuffer) (keys : List UInt8) : Framebuffer :=
  let query := s.searchQuery.take 63
  let fb := edFillRow fb rowMsg 32 black.code cyan.code
  let fb := edStr fb 1 rowMsg (bytes "find: ") white.code cyan.code
  let fb := if query ≠ [] then edStr fb 7 rowMsg query yellow.code cyan.code else fb
  promptDraws (edPut fb (7 + query.length) rowMsg 95 black.code white.code) query keys

/-- The keys after which `editor_open` renders; after any other it goes on with the next. -/
def EdKey.renders : EdKey → Bool
  | .char c _ => [19, 11, 1, 5, 10, 8, 6, 14].contains c || (32 ≤ c && c < 127)
  | _ => true

variable {H : Type} (kmalloc : Kmalloc H)

/-- Ctrl-F leaves its prompt on the screen. -/
def promptOf (s : Editor) (fb : Framebuffer) : EdKey → Framebuffer
  | .char c prompt => if c = 6 then promptScreen s fb prompt else fb
  | _ => fb

/-- A key on the editor, the files and the screen, at a time when the last message has the age given. -/
def screenKey (v : (Editor × ShellFs H) × Framebuffer) (key : EdKey × UInt32) :
    Except Fault ((Editor × ShellFs H) × Framebuffer) := do
  let s ← editorKey kmalloc v.1 key.1
  if key.1.renders then do
    let fb ← drawAll s.1 key.2 (promptOf v.1.1 v.2 key.1)
    .ok (s, fb)
  else .ok (s, v.2)

/-- The keys up to Ctrl-Q. -/
def screenLoop : (Editor × ShellFs H) × Framebuffer → List (EdKey × UInt32) →
    Except Fault ((Editor × ShellFs H) × Framebuffer)
  | v, [] => .ok v
  | v, key :: keys =>
    if key.1.code = 17 then .ok v
    else do
      let v ← screenKey kmalloc v key
      screenLoop v keys

/-- The loops of `editor_open` that clear the screen. -/
def clearScreen (fb : Framebuffer) : Framebuffer :=
  (List.range vgaHeight).foldl (fun fb (r : Nat) =>
    edFillRow fb r 32 VgaColor.black.code VgaColor.black.code) fb

/-- `editor_open` up to the first key. -/
def openScreen (fs : ShellFs H) (path : List UInt8) (s : Editor) (age : UInt32) (fb : Framebuffer) :
    Except Fault ((Editor × ShellFs H) × Framebuffer) := do
  let s ← editorStart fs path s
  let fb ← drawAll s age (clearScreen fb)
  .ok ((s, fs), fb)

/-- `editor_open` up to Ctrl-Q. -/
def screenSession (fs : ShellFs H) (path : List UInt8) (s : Editor) (age : UInt32) (keys : List (EdKey × UInt32))
    (fb : Framebuffer) : Except Fault ((Editor × ShellFs H) × Framebuffer) := do
  let v ← openScreen fs path s age fb
  screenLoop kmalloc v keys

end BaSic.Kernel
