import BaSic.Fs.Ramfs
import BaSic.Kernel.Fat12Files
import BaSic.Kernel.ShellRun
import BaSic.Kprintf

namespace BaSic.Kernel
open Fs

/-- `HISTORY_FILE` -/
def historyFile : CString := ⟨[72, 73, 83, 84, 79, 82, 89], by simp⟩

/-- The bytes at an address, of which only those of the text are read. -/
def bytesOf (text : List UInt8) : Bytes := fun i => text.getD i 0

/-- What is printed, and the driver afterwards. -/
def cmdDiskwrite (s : Fat12) (fname : CString) (data : Option CString) : Except Fault (List UInt8 × Fat12) :=
  match data with
  | none => .ok (bytes "usage: diskwrite <f> <text>", s)
  | some data =>
    if fname.chars = [] then .ok (bytes "usage: diskwrite <f> <text>", s)
    else do
      let (n, s) ← fat12Write s (some fname) (some (bytesOf data.chars)) (UInt32.ofNat data.chars.length)
      .ok (if n < 0 then bytes "diskwrite: failed" else bytes "OK", s)

/-- What `history_save` logs, if it has bytes to write. -/
def saveReport (n : Int) (off : Nat) : Except Fault (List UInt8) :=
  if n < 0 then .ok (bytes "[shell] history save failed\n")
  else do
    let count ← kbufInt (Int32.ofNat off)
    .ok (bytes "[shell] history saved (" ++ count ++ bytes " bytes)\n")

/-- `history_save` with the write, and what it logs. -/
def historySaveTo (s : CmdLine) (fat : Fat12) : Except Fault (Option (List UInt8) × Fat12) := do
  let hbuf ← historySave s
  if hbuf = [] then .ok (none, fat)
  else do
    let (n, fat) ← fat12Write fat (some historyFile) (some (bytesOf hbuf)) (UInt32.ofNat hbuf.length)
    let report ← saveReport n hbuf.length
    .ok (some report, fat)

end BaSic.Kernel
