import BaSic.CString

namespace BaSic.Kernel

def klogLines : Nat := 64

def klogWidth : Nat := 80

instance lines_nonempty : NeZero 64 := ⟨by decide⟩

/-- `log_buf`, the slot to write next, and how many lines there are. -/
structure Klog where
  logBuf : Fin 64 → CharArray
  logHead : Fin 64
  logCount : Nat

def klogInit : Klog := ⟨fun _ _ => 0, 0, 0⟩

def klogWrite (s : Klog) (line : CStr) : Klog :=
  { logBuf := Function.update s.logBuf s.logHead (copyCut (s.logBuf s.logHead) line (klogWidth - 1)),
    logHead := s.logHead + 1,
    logCount := if s.logCount < klogLines then s.logCount + 1 else s.logCount }

/-- What `kprintf` has buffered and what it has printed so far, and the log it writes to. -/
structure Kprintf where
  kbuf : List UInt8
  screen : List UInt8
  log : Klog

/-- The buffer as a string. -/
def kbufText (kbuf : List UInt8) : CStr := ⟨kbuf.takeWhile (· ≠ 0), fun h => by simpa using List.mem_takeWhile_imp h⟩

def kbufFlush (s : Kprintf) : Kprintf :=
  if s.kbuf = [] then s
  else { kbuf := [], screen := s.screen ++ (kbufText s.kbuf).chars, log := klogWrite s.log (kbufText s.kbuf) }

def kbufPutc (s : Kprintf) (c : UInt8) : Kprintf :=
  let s := if s.kbuf.length ≥ 255 then kbufFlush s else s
  let s := { s with kbuf := s.kbuf ++ [c] }
  if c = 10 then kbufFlush s else s

/-- `kbuf_puts` of a row of the log from character `j` on, which is read as it is by then. The
last character of a row is always NUL. -/
def kbufPutsRow (s : Kprintf) (idx : Fin 64) (j : Nat) : Nat → Kprintf
  | 0 => s
  | size + 1 =>
    if s.log.logBuf idx j = 0 then s else kbufPutsRow (kbufPutc s (s.log.logBuf idx j)) idx (j + 1) size

/-- `kprintf("%s\n", log_buf[idx])` -/
def kprintfRow (s : Kprintf) (idx : Fin 64) : Kprintf := kbufFlush (kbufPutc (kbufPutsRow s idx 0 klogWidth) 10)

/-- The loop of `klog_dump` from round `i` on; `log_count` grows meanwhile, to 64 at most. -/
def dumpFrom (s : Kprintf) (start : Fin 64) (i : Nat) : Nat → Kprintf
  | 0 => s
  | k + 1 => if i < s.log.logCount then dumpFrom (kprintfRow s (start + Fin.ofNat 64 i)) start (i + 1) k else s

def klogDump (s : Kprintf) : Kprintf :=
  dumpFrom s (if s.log.logCount < klogLines then 0 else s.log.logHead) 0 klogLines

end BaSic.Kernel
