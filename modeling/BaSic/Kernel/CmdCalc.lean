import BaSic.Fs.Ramfs
import BaSic.Kernel.Calc

namespace BaSic.Kernel
open Fs

/-- The loop of `cmd_calc` that fills `tmp` from the end, with `left` characters left in front. -/
def calcLoop : Nat → Int32 → List UInt8 → Except Fault (List UInt8)
  | left, v, text =>
    if v = 0 then .ok text
    else match left with
      | 0 => .error (.outOfBounds 0)
      | left + 1 => calcLoop left (v / 10) ((48 + v % 10).toInt8.toUInt8 :: text)

/-- The digits, from `tmp[10]` back. -/
def calcDigits (v : Int32) : Except Fault (List UInt8) := if v = 0 then .ok [48] else calcLoop 11 v []

/-- What `cmd_calc` puts behind `= `; the sign is changed by `v = -v`. -/
def calcText (result : Int32) : Except Fault (List UInt8) :=
  if result < 0 then do
    let text ← calcDigits (-result)
    .ok (45 :: text)
  else calcDigits result

def cmdCalc (expr : List UInt8) : Except Fault (List UInt8) :=
  if expr = [] then .ok (bytes "usage: calc <expr>")
  else do
    match ← calcEval expr with
    | none => .ok (bytes "error: invalid expression")
    | some result => do
      let text ← calcText result
      .ok ([61, 32] ++ text)

end BaSic.Kernel
