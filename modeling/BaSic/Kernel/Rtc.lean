import BaSic.Machine
import BaSic.Fs.Ramfs

namespace BaSic.Kernel
open Fs

/-- What the CMOS ports answer at each access for each index. -/
abbrev Cmos := Nat → UInt8 → UInt8

/-- `rtc_time_t`, with a two-digit year -/
structure RtcTime where
  second : UInt8
  minute : UInt8
  hour : UInt8
  day : UInt8
  month : UInt8
  year : UInt8
  deriving DecidableEq, Repr

/-- The value of a register, and the number of the next access. -/
def cmosRead (cmos : Cmos) (reg : UInt8) (now : Nat) : UInt8 × Nat := (cmos now reg, now + 1)

def rtcUpdating (cmos : Cmos) (now : Nat) : Bool × Nat := (cmos now 0x0A &&& 0x80 != 0, now + 1)

def bcd2bin (bcd : UInt8) : UInt8 := (bcd >>> 4) * 10 + (bcd &&& 0x0F)

/-- `while (rtc_updating());` -/
def waitUpdate (cmos : Cmos) : Nat → Nat → Except Fault Nat
  | 0, _ => .error .timeout
  | fuel + 1, now =>
    let (updating, now) := rtcUpdating cmos now
    if updating then waitUpdate cmos fuel now else .ok now

/-- The six registers, one after the other. -/
def readAll (cmos : Cmos) (now : Nat) : RtcTime × Nat :=
  let (sec, now) := cmosRead cmos 0x00 now
  let (min, now) := cmosRead cmos 0x02 now
  let (hr, now) := cmosRead cmos 0x04 now
  let (day, now) := cmosRead cmos 0x07 now
  let (mon, now) := cmosRead cmos 0x08 now
  let (yr, now) := cmosRead cmos 0x09 now
  (⟨sec, min, hr, day, mon, yr⟩, now)

/-- The part of `rtc_read` before the conversion. -/
def rtcRegisters (cmos : Cmos) (fuel : Nat) (now : Nat) : Except Fault (RtcTime × Nat) := do
  let now ← waitUpdate cmos fuel now
  let (t, now) := readAll cmos now
  let now ← waitUpdate cmos fuel now
  let (sec2, now) := cmosRead cmos 0x00 now
  -- the clock ticked in between
  if sec2 ≠ t.second then .ok (readAll cmos now) else .ok (t, now)

/-- Bit 2 of status B is set in binary mode; otherwise the registers are in BCD. -/
def convertBcd (statusB : UInt8) (t : RtcTime) : RtcTime :=
  if statusB &&& 0x04 = 0 then
    ⟨bcd2bin t.second, bcd2bin t.minute, bcd2bin t.hour, bcd2bin t.day, bcd2bin t.month, bcd2bin t.year⟩
  else t

def rtcRead (cmos : Cmos) (fuel : Nat) (now : Nat) : Except Fault (RtcTime × Nat) := do
  let (t, now) ← rtcRegisters cmos fuel now
  let (statusB, now) := cmosRead cmos 0x0B now
  .ok (convertBcd statusB t, now)

/-- `TZ_OFFSET_H` -/
def tzOffsetH : Nat := 6

def days : List (List UInt8) :=
  [bytes "Sun", bytes "Mon", bytes "Tue", bytes "Wed", bytes "Thu", bytes "Fri", bytes "Sat"]

def months : List (List UInt8) :=
  [bytes "Jan", bytes "Feb", bytes "Mar", bytes "Apr", bytes "May", bytes "Jun",
    bytes "Jul", bytes "Aug", bytes "Sep", bytes "Oct", bytes "Nov", bytes "Dec"]

/-- `'0' + n` -/
def digitChar (n : Nat) : UInt8 := UInt8.ofNat (48 + n)

/-- `'0' + n / 10` and `'0' + n % 10` -/
def twoDigits (n : Nat) : List UInt8 := [digitChar (n / 10), digitChar (n % 10)]

def localHour (t : RtcTime) : Nat :=
  let hour := t.hour.toNat + tzOffsetH
  if 24 ≤ hour then hour - 24 else hour

/-- `dow` as `cmd_date` computes it, with 0 for Sunday. -/
def dayOfWeek (t : RtcTime) : Int :=
  let m : Int := t.month.toNat
  let y : Int := 2000 + t.year.toNat
  let (m, y) := if m < 3 then (m + 12, y - 1) else (m, y)
  let k := y.tmod 100
  let j := y.tdiv 100
  let dow := (t.day.toNat + (13 * (m + 1)).tdiv 5 + k + k.tdiv 4 + j.tdiv 4 - 2 * j).tmod 7
  let dow := if dow < 0 then dow + 7 else dow
  (dow + 6).tmod 7

/-- `days[dow]` -/
def dayName (dow : Int) : Except Fault (List UInt8) :=
  match days[dow.toNat]? with
  | some name => if dow < 0 then .error (.outOfBounds 0) else .ok name
  | none => .error (.outOfBounds dow.toNat)

def monthName (month : UInt8) : List UInt8 :=
  if 1 ≤ month ∧ month ≤ 12 then months.getD (month.toNat - 1) [] else bytes "???"

/-- `buf` of `cmd_date` -/
def dateText (t : RtcTime) : Except Fault (List UInt8) := do
  let ds ← dayName (dayOfWeek t)
  .ok (ds ++ bytes " " ++ monthName t.month ++ bytes " " ++ twoDigits t.day.toNat ++ bytes " " ++
    twoDigits (localHour t) ++ bytes ":" ++ twoDigits t.minute.toNat ++ bytes ":" ++ twoDigits t.second.toNat ++
    bytes " BDT 20" ++ [digitChar (t.year.toNat / 10 % 10), digitChar (t.year.toNat % 10)])

/-- The line that `date` prints. -/
def cmdDate (cmos : Cmos) (fuel : Nat) (now : Nat) : Except Fault (List UInt8) := do
  let (t, _) ← rtcRead cmos fuel now
  dateText t

end BaSic.Kernel
