import BaSic.Kernel.Klog
import BaSic.Machine

namespace BaSic

/-- `"0123456789abcdef"` of `kbuf_uint` -/
def digits : List UInt8 := [48, 49, 50, 51, 52, 53, 54, 55, 56, 57, 97, 98, 99, 100, 101, 102]

/-- The loop of `kbuf_uint` that fills `buf` from the end, with `pos` characters left in front. -/
def uintLoop (base : UInt32) : Nat → UInt32 → List UInt8 → Except Fault (List UInt8)
  | pos, val, text =>
    if val = 0 then .ok text
    else match pos with
      | 0 => .error (.outOfBounds 0)
      | pos + 1 => uintLoop base pos (val / base) (digits.getD (val % base).toNat 0 :: text)

/-- The characters that go through `kbuf_putc`. -/
def kbufUint (val base : UInt32) : Except Fault (List UInt8) :=
  if val = 0 then .ok [48] else uintLoop base 31 val []

/-- What `%d` prints. -/
def kbufInt (val : Int32) : Except Fault (List UInt8) :=
  if val < 0 then do
    let text ← kbufUint ((-(val + 1)).toUInt32 + 1) 10
    .ok (45 :: text)
  else kbufUint val.toUInt32 10

open Kernel

/-- An argument on the stack: a pointer to a string, or a number. -/
inductive KArg where
  | str (s : Option CStr)
  | word (w : UInt32)

def kbufPuts (s : Kprintf) (text : List UInt8) : Kprintf := text.foldl kbufPutc s

/-- `"(null)"` -/
def nullText : List UInt8 := [40, 110, 117, 108, 108, 41]

/-- The string that `%s` prints, and the other arguments. -/
def takeStr : List KArg → Except Fault (List UInt8 × List KArg)
  | .str (some s) :: args => .ok (s.chars, args)
  | .str none :: args => .ok (nullText, args)
  | _ => .error (.outOfBounds 0)

def takeWord : List KArg → Except Fault (UInt32 × List KArg)
  | .word w :: args => .ok (w, args)
  | _ => .error (.outOfBounds 0)

/-- The `switch` on the character behind a `%`. -/
def directive (s : Kprintf) (d : UInt8) (args : List KArg) : Except Fault (Kprintf × List KArg) :=
  if d = 115 then do
    let (text, args) ← takeStr args
    .ok (kbufPuts s text, args)
  else if d = 100 then do
    let (w, args) ← takeWord args
    let text ← kbufInt w.toInt32
    .ok (kbufPuts s text, args)
  else if d = 117 then do
    let (w, args) ← takeWord args
    let text ← kbufUint w 10
    .ok (kbufPuts s text, args)
  else if d = 120 then do
    let (w, args) ← takeWord args
    let text ← kbufUint w 16
    .ok (kbufPuts (kbufPuts s [48, 120]) text, args)
  else if d = 99 then do
    let (w, args) ← takeWord args
    .ok (kbufPutc s w.toUInt8, args)
  else if d = 37 then .ok (kbufPutc s 37, args)
  else .ok (kbufPutc (kbufPutc s 37) d, args)

/-- Behind a `%` that ends the format the loop reads on past its NUL. -/
def kprintfLoop (s : Kprintf) : List UInt8 → List KArg → Except Fault Kprintf
  | [], _ => .ok s
  | [c], args => if c ≠ 37 then kprintfLoop (kbufPutc s c) [] args else .error (.outOfBounds 2)
  | c :: d :: fmt, args =>
    if c ≠ 37 then kprintfLoop (kbufPutc s c) (d :: fmt) args
    else do
      let (s, args) ← directive s d args
      kprintfLoop s fmt args

def kprintf (s : Kprintf) (fmt : CStr) (args : List KArg) : Except Fault Kprintf := do
  let s ← kprintfLoop s fmt.chars args
  .ok (kbufFlush s)

end BaSic
