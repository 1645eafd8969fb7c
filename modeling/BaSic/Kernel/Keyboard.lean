import BaSic.Fs.Ramfs

namespace BaSic.Kernel
open Fs

/-- `sc_ascii` -/
def scAscii : List UInt8 :=
  bytes "\x00\x001234567890-=\x08\tqwertyuiop[]\n\x00asdfghjkl;'`\x00\\zxcvbnm,./\x00*\x00 "

/-- `sc_ascii_shift` -/
def scAsciiShift : List UInt8 :=
  bytes "\x00\x00!@#$%^&*()_+\x08\tQWERTYUIOP\x7b\x7d\n\x00ASDFGHJKL:\"~\x00|ZXCVBNM<>?\x00*\x00 "

def scTableSize : Nat := scAscii.length

/-- The statics of `keyboard.c` -/
structure Keyboard where
  lastChar : UInt8
  shiftHeld : Bool
  ctrlHeld : Bool
  extPending : Bool
  lastExtSc : UInt8
  deriving DecidableEq, Repr

/-- What Ctrl makes of a letter. -/
def ctrlChar (c : UInt8) : UInt8 :=
  if 97 ≤ c ∧ c ≤ 122 then c - 96 else if 65 ≤ c ∧ c ≤ 90 then c - 64 else c

/-- A key of the tables goes down. -/
def keyTyped (kb : Keyboard) (sc : UInt8) : Keyboard :=
  if scTableSize ≤ sc.toNat then kb
  else
    let c := (if kb.shiftHeld then scAsciiShift else scAscii).getD sc.toNat 0
    if c = 0 then kb else { kb with lastChar := if kb.ctrlHeld then ctrlChar c else c }

/-- `keyboard_irq_handler` on the byte at the data port. -/
def keyboardIrqHandler (kb : Keyboard) (sc : UInt8) : Keyboard :=
  if sc = 0x00 ∨ sc = 0xFF then kb
  else if sc = 0xE0 then { kb with extPending := true }
  else if kb.extPending then
    -- only on press, not release
    if sc &&& 0x80 = 0 then { kb with extPending := false, lastExtSc := sc } else { kb with extPending := false }
  else if sc &&& 0x80 ≠ 0 then
    let released := sc &&& 0x7F
    let kb := if released = 0x2A ∨ released = 0x36 then { kb with shiftHeld := false } else kb
    if released = 0x1D then { kb with ctrlHeld := false } else kb
  else if sc = 0x2A ∨ sc = 0x36 then { kb with shiftHeld := true }
  else if sc = 0x1D then { kb with ctrlHeld := true }
  else keyTyped kb sc

/-- The state of `keyboard_init`; the bytes of the BIOS it reads are dropped. -/
def keyboardInit : Keyboard := ⟨0, false, false, false, 0⟩

def keyboardGetchar (kb : Keyboard) : UInt8 × Keyboard := (kb.lastChar, { kb with lastChar := 0 })

def keyboardGetExt (kb : Keyboard) : UInt8 × Keyboard := (kb.lastExtSc, { kb with lastExtSc := 0 })

end BaSic.Kernel
