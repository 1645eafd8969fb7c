import BaSic.CString
import BaSic.Lib.ForLoop
import BaSic.Machine

namespace BaSic.Kernel
open Lib

def vgaWidth : Nat := 80
def vgaHeight : Nat := 25

/-- `vga_color_t` -/
inductive VgaColor where
  | black | blue | green | cyan | red | magenta | brown | lightGrey
  | darkGrey | lightBlue | lightGreen | lightCyan | lightRed | lightMagenta | yellow | white
  deriving DecidableEq, Repr

def VgaColor.code : VgaColor → UInt8
  | .black => 0
  | .blue => 1
  | .green => 2
  | .cyan => 3
  | .red => 4
  | .magenta => 5
  | .brown => 6
  | .lightGrey => 7
  | .darkGrey => 8
  | .lightBlue => 9
  | .lightGreen => 10
  | .lightCyan => 11
  | .lightRed => 12
  | .lightMagenta => 13
  | .yellow => 14
  | .white => 15

/-- The cells at `VGA_BASE` -/
abbrev Framebuffer := Nat → UInt16

/-- The statics of `vga.c`, and the framebuffer -/
structure Vga where
  cursorX : Int
  cursorY : Int
  curAttr : UInt8
  fb : Framebuffer

def makeAttr (fg bg : VgaColor) : UInt8 := (bg.code <<< 4) ||| (fg.code &&& 0x0F)

def vgaCell (c attr : UInt8) : UInt16 := (attr.toUInt16 <<< 8) ||| c.toUInt16

/-- `VGA_BASE[i]` -/
def fbLoad (fb : Framebuffer) (i : Int) : Except Fault UInt16 :=
  if 0 ≤ i ∧ i < vgaWidth * vgaHeight then .ok (fb i.toNat) else .error (.outOfBounds i.toNat)

/-- `VGA_BASE[i] = v` -/
def fbStore (fb : Framebuffer) (i : Int) (v : UInt16) : Except Fault Framebuffer :=
  if 0 ≤ i ∧ i < vgaWidth * vgaHeight then .ok (Function.update fb i.toNat v) else .error (.outOfBounds i.toNat)

def fbWrite (fb : Framebuffer) (col row : Int) (c attr : UInt8) : Except Fault Framebuffer :=
  fbStore fb (row * vgaWidth + col) (vgaCell c attr)

def vgaClear (v : Vga) : Except Fault Vga := do
  let fb ← forRange (vgaWidth * vgaHeight) (fun i fb => fbStore fb i (vgaCell 32 v.curAttr)) v.fb
  .ok { v with fb := fb, cursorX := 0, cursorY := 0 }

/-- The screen after `vga_init`, with the bytes it writes to the ports; `mode` is what it
reads from the mode control register. -/
def vgaInit (v : Vga) (mode : UInt8) : Except Fault (Vga × List (UInt16 × UInt8)) := do
  let ports := [(0x3C0, 0x10), (0x3C0, mode &&& ~~~0x08), (0x3C0, 0x20), (0x3D4, 0x0F), (0x3D5, 0xFF), (0x3D4, 0x0E),
    (0x3D5, 0xFF)]
  let v ← vgaClear { v with curAttr := makeAttr .lightGrey .black }
  .ok (v, ports)

/-- The screen up by one row. -/
def scroll (v : Vga) : Except Fault Vga := do
  let fb ← forRange (vgaHeight - 1) (fun r fb =>
    -- `row` is `r + 1`
    forRange vgaWidth (fun col fb => do
      let cell ← fbLoad fb ((r + 1) * vgaWidth + col : Nat)
      fbStore fb (r * vgaWidth + col : Nat) cell) fb) v.fb
  let fb ← forRange vgaWidth (fun col fb => fbWrite fb col (vgaHeight - 1 : Nat) 32 v.curAttr) fb
  .ok { v with fb := fb, cursorY := vgaHeight - 1 }

/-- What the character does, with the cursor perhaps beyond its row or the last one. -/
def vgaMove (v : Vga) (c : UInt8) : Except Fault Vga :=
  if c = 10 then .ok { v with cursorX := 0, cursorY := v.cursorY + 1 }
  else if c = 13 then .ok { v with cursorX := 0 }
  -- `& ~7`
  else if c = 9 then .ok { v with cursorX := v.cursorX + 8 - (v.cursorX + 8) % 8 }
  else if c = 8 then
    if 0 < v.cursorX then do
      let fb ← fbWrite v.fb (v.cursorX - 1) v.cursorY 32 v.curAttr
      .ok { v with cursorX := v.cursorX - 1, fb := fb }
    else .ok v
  else do
    let fb ← fbWrite v.fb v.cursorX v.cursorY c v.curAttr
    .ok { v with fb := fb, cursorX := v.cursorX + 1 }

def wrapLine (v : Vga) : Vga :=
  if vgaWidth ≤ v.cursorX then { v with cursorX := 0, cursorY := v.cursorY + 1 } else v

def scrollPast (v : Vga) : Except Fault Vga := if vgaHeight ≤ v.cursorY then scroll v else .ok v

def vgaPutchar (v : Vga) (c : UInt8) : Except Fault Vga := do
  let v ← vgaMove v c
  scrollPast (wrapLine v)

/-- One character after the other. -/
def vgaPutAll (v : Vga) (cs : List UInt8) : Except Fault Vga := cs.foldlM vgaPutchar v

def vgaPrint (v : Vga) (str : CStr) : Except Fault Vga := vgaPutAll v str.chars

end BaSic.Kernel
