import BaSic.Kernel.Keyboard

namespace BaSic.Kernel

/-- `term_key_type_t`, with the character of `TERM_CHAR`. -/
inductive TermEvent where
  | none
  | char (ch : UInt8)
  | up
  | down
  | left
  | right
  | home
  | «end»
  | del
  | pgup
  | pgdn
  deriving DecidableEq

def decodeExt (sc : UInt8) : TermEvent :=
  match sc with
  | 0x48 => .up
  | 0x50 => .down
  | 0x4B => .left
  | 0x4D => .right
  | 0x47 => .home
  | 0x4F => .end
  | 0x53 => .del
  | 0x49 => .pgup
  | 0x51 => .pgdn
  | _ => .none

/-- `keyboard_getchar` as its callers take it: nothing, or a character. -/
def charEvent (c : UInt8) : TermEvent := if c ≠ 0 then .char c else .none

/-- `term_poll` with no interrupt under way. -/
def termPoll (kb : Keyboard) : TermEvent × Keyboard :=
  let (ext, kb) := keyboardGetExt kb
  if ext ≠ 0 then (decodeExt ext, kb)
  else
    let (c, kb) := keyboardGetchar kb
    (charEvent c, kb)

/-- How far a call of `term_poll` or `keyboard_getchar` has come: the next thing it does is an
access to one of the statics that the interrupt writes. -/
inductive InputPc where
  | idle
  | extRead (ext : UInt8)
  | extCleared
  | charRead (c : UInt8)
  deriving DecidableEq

/-- The driver, the call under way, and what the calls before it returned. -/
structure Input where
  keyboard : Keyboard
  pc : InputPc
  returned : List TermEvent

/-- A byte of the keyboard interrupts whatever is under way, a call begins, or the call under
way does its next access. -/
inductive InputEvent where
  | irq (sc : UInt8)
  | poll
  | getchar
  | next

def inputStep (s : Input) : InputEvent → Input
  | .irq sc => { s with keyboard := keyboardIrqHandler s.keyboard sc }
  | .poll =>
    match s.pc with
    | .idle => { s with pc := .extRead s.keyboard.lastExtSc }
    | _ => s
  | .getchar =>
    match s.pc with
    | .idle => { s with pc := .charRead s.keyboard.lastChar }
    | _ => s
  | .next =>
    match s.pc with
    | .idle => s
    | .extRead ext =>
      let s := { s with keyboard := { s.keyboard with lastExtSc := 0 } }
      if ext ≠ 0 then { s with pc := .idle, returned := s.returned ++ [decodeExt ext] } else { s with pc := .extCleared }
    | .extCleared => { s with pc := .charRead s.keyboard.lastChar }
    | .charRead c =>
      { s with keyboard := { s.keyboard with lastChar := 0 }, pc := .idle, returned := s.returned ++ [charEvent c] }

/-- After `keyboard_init`, before the first call. -/
def inputStart : Input := ⟨keyboardInit, .idle, []⟩

end BaSic.Kernel
