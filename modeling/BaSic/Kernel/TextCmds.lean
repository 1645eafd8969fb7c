import BaSic.CString
import BaSic.Kernel.CmdLine
import BaSic.Kernel.Shell

namespace BaSic.Kernel
open Fs

variable {H σ : Type}

/-- The characters of one block, while the loop over them goes on. -/
def feedText (goes : σ → Bool) (step : σ → UInt8 → Except Fault σ) : σ → List UInt8 → Except Fault σ
  | s, [] => .ok s
  | s, c :: tmp =>
    if goes s then do
      let s ← step s c
      feedText goes step s tmp
    else .ok s

/-- The loop that the commands on text share: blocks of `size` bytes until one is empty. -/
def feedBlocks (fs : Ramfs H) (node : Nat) (size : UInt32) (reads goes : σ → Bool)
    (step : σ → UInt8 → Except Fault σ) : Nat → UInt32 → σ → Except Fault σ
  | 0, _, _ => .error .timeout
  | fuel + 1, off, s =>
    if reads s then do
      let tmp ← vfsRead ramfsOps fs (some node) off size
      if tmp = [] then .ok s
      else do
        let s ← feedText goes step s tmp
        feedBlocks fs node size reads goes step fuel (off + UInt32.ofNat tmp.length) s
    else .ok s

/-- Each round but the last reads at least one byte, so the length of the file is fuel enough. -/
def feedFile (fs : Ramfs H) (node : Nat) (size : UInt32) (reads goes : σ → Bool)
    (step : σ → UInt8 → Except Fault σ) (s : σ) : Except Fault σ :=
  feedBlocks fs node size reads goes step ((fs.node node).length.toNat + 1) 0 s

/-- What the commands on text do before they read. -/
def onFile (s : Shell H) (path usage missing : List UInt8) (body : Nat → Except Fault (List (List UInt8))) :
    Except Fault (List (List UInt8)) :=
  if path = [] then .ok [usage]
  else do
    let full ← makeFull s.cwd path
    match fileAt s.files full.chars with
    | none => .ok [missing]
    | some node => body node

/-- `line[lpos] = '\0'`, and `line` as a string. -/
def lineStr (line : List UInt8) : List UInt8 := line.takeWhile (· ≠ 0)

/-- `else if (lpos < 127) line[lpos++] = c;` -/
def addChar (line : List UInt8) (c : UInt8) : List UInt8 := if line.length < 127 then line ++ [c] else line

/-- The string in an array of 128 characters. -/
def rowStr (row : CharArray) : Except Fault (List UInt8) :=
  if (text row 128).length < 128 then .ok (text row 128) else .error (.outOfBounds 128)

/-- The array `line` with its NUL. -/
def lineArray (line : List UInt8) : CharArray := fun i => line.getD i 0

/-- `strncpy(row, src, 127)` -/
def copyRow (row : CharArray) (src : List UInt8) : CharArray := strncpyFrom row 0 src 127

/-- `streq` from character `i` on, with so many left in both arrays. -/
def streqFrom (a b : CharArray) (i : Nat) : Nat → Except Fault Int
  | 0 => .error (.outOfBounds i)
  | left + 1 => if a i ≠ 0 ∧ a i = b i then streqFrom a b (i + 1) left else .ok ((a i).toNat - (b i).toNat)

def streq (a b : CharArray) : Except Fault Int := streqFrom a b 0 128

/-- The lines printed, as many as `lines` counts, and the line begun. -/
def headStep (s : List (List UInt8) × List UInt8) (c : UInt8) : Except Fault (List (List UInt8) × List UInt8) :=
  if c = 10 then .ok (s.1 ++ [lineStr s.2], []) else .ok (s.1, addChar s.2 c)

def cmdHead (s : Shell H) (path : List UInt8) (count : Int) : Except Fault (List (List UInt8)) :=
  onFile s path (bytes "usage: head <file>") (bytes "head: not found") fun node => do
    let more := fun s : List (List UInt8) × List UInt8 => decide ((s.1.length : Int) < count)
    let (out, _) ← feedFile s.files.fs node 128 more more headStep ([], [])
    .ok out

structure Tail where
  ring : Nat → CharArray
  rcount : Nat
  line : List UInt8

def tailStep (s : Tail) (c : UInt8) : Except Fault Tail :=
  if c = 10 then
    .ok ⟨Function.update s.ring (s.rcount % 32) (copyRow (s.ring (s.rcount % 32)) (lineStr s.line)), s.rcount + 1, []⟩
  else .ok { s with line := addChar s.line c }

/-- The rows `i % 32` from `i` on. -/
def printRing (ring : Nat → CharArray) (i : Nat) : Nat → Except Fault (List (List UInt8))
  | 0 => .ok []
  | k + 1 => do
    let row ← rowStr (ring (i % 32))
    let rest ← printRing ring (i + 1) k
    .ok (row :: rest)

/-- The rows of `ring` are what the stack holds. -/
def cmdTail (ring : Nat → CharArray) (s : Shell H) (path : List UInt8) (count : Nat) :
    Except Fault (List (List UInt8)) :=
  onFile s path (bytes "usage: tail <file>") (bytes "tail: not found") fun node => do
    let t ← feedFile s.files.fs node 128 (fun _ => true) (fun _ => true) tailStep ⟨ring, 0, []⟩
    let start := if t.rcount > count then t.rcount - count else 0
    printRing t.ring start (t.rcount - start)

structure Uniq where
  out : List (List UInt8)
  line : List UInt8
  prev : CharArray
  first : Bool

/-- `first || streq(line, prev) != 0` -/
def Uniq.differs (s : Uniq) : Except Fault Bool :=
  if s.first then .ok true
  else do
    let d ← streq (lineArray s.line) s.prev
    .ok (decide (d ≠ 0))

def uniqStep (s : Uniq) (c : UInt8) : Except Fault Uniq :=
  if c = 10 then do
    if ← s.differs then .ok ⟨s.out ++ [lineStr s.line], [], copyRow s.prev (lineStr s.line), false⟩
    else .ok { s with line := [] }
  else .ok { s with line := addChar s.line c }

/-- All but the first character of `prev` is what the stack holds. -/
def cmdUniq (prev : CharArray) (s : Shell H) (path : List UInt8) : Except Fault (List (List UInt8)) :=
  onFile s path (bytes "usage: uniq <file>") (bytes "uniq: not found") fun node => do
    let t ← feedFile s.files.fs node 128 (fun _ => true) (fun _ => true) uniqStep
      ⟨[], [], Function.update prev 0 0, true⟩
    if t.line ≠ [] then do
      if ← t.differs then .ok (t.out ++ [lineStr t.line]) else .ok t.out
    else .ok t.out

/-- The lines found, and the line begun; a character that comes when there is no room is left out. -/
def grepStep (pattern : List UInt8) (s : List (List UInt8) × List UInt8) (c : UInt8) :
    Except Fault (List (List UInt8) × List UInt8) :=
  if c = 10 ∨ s.2.length ≥ 126 then
    .ok (if hasQuery pattern (lineStr s.2) then s.1 ++ [lineStr s.2] else s.1, [])
  else .ok (s.1, s.2 ++ [c])

def cmdGrep (s : Shell H) (pattern path : List UInt8) : Except Fault (List (List UInt8)) :=
  if pattern = [] then .ok [bytes "usage: grep <p> <path>"]
  else onFile s path (bytes "usage: grep <p> <path>") (bytes "grep: not found") fun node => do
    let (out, _) ← feedFile s.files.fs node 127 (fun _ => true) (fun _ => true) (grepStep pattern) ([], [])
    .ok (if out = [] then [bytes "no matches."] else out)

/-- `lines` of `cmd_sort`, a static array; the last character of a row is never written but with a NUL. -/
structure SortTable where
  rows : Nat → CharArray
  ended : ∀ j, rows j 127 = 0

theorem copy_row_last (row : CharArray) (src : List UInt8) (h : row 127 = 0) : copyRow row src 127 = 0 := by
  unfold copyRow
  rw [strncpy_from_apply]
  split_ifs
  · omega
  · rfl
  · exact h

/-- `strncpy(lines[j], src, 127)` -/
def SortTable.set (t : SortTable) (j : Nat) (src : List UInt8) : SortTable :=
  ⟨Function.update t.rows j (copyRow (t.rows j) src), fun i => by
    by_cases hi : i = j
    · simpa [hi] using copy_row_last (t.rows j) src (t.ended j)
    · simpa [hi] using t.ended i⟩

structure Sorter where
  table : SortTable
  count : Nat
  line : List UInt8

/-- `strncpy(lines[count++], line, 127)` -/
def Sorter.addLine (s : Sorter) : Sorter := ⟨s.table.set s.count (lineStr s.line), s.count + 1, []⟩

def sortStep (s : Sorter) (c : UInt8) : Except Fault Sorter :=
  if c = 10 then .ok s.addLine else .ok { s with line := addChar s.line c }

/-- The lines that `cmd_sort` reads. -/
def sortRead (table : SortTable) (fs : Ramfs H) (node : Nat) : Except Fault Sorter := do
  let s ← feedFile fs node 128 (fun _ => true) (fun s => decide (s.count < 64)) sortStep ⟨table, 0, []⟩
  .ok (if s.line ≠ [] ∧ s.count < 64 then s.addLine else s)

/-- The body of the two loops; `tmp2` is what the stack holds. -/
def swapRows (tmp2 : CharArray) (t : SortTable) (j : Nat) : Except Fault SortTable := do
  let d ← streq (t.rows j) (t.rows (j + 1))
  if d > 0 then
    let tmp2 := copyRow tmp2 (text (t.rows j) 127)
    let t := t.set j (text (t.rows (j + 1)) 127)
    .ok (t.set (j + 1) (text tmp2 127))
  else .ok t

/-- The rounds of the inner loop from `j` on. -/
def sweepRows (tmp2 : CharArray) (t : SortTable) (j : Nat) : Nat → Except Fault SortTable
  | 0 => .ok t
  | k + 1 => do
    let t ← swapRows tmp2 t j
    sweepRows tmp2 t (j + 1) k

/-- The rounds of the outer loop, each with one round less of the inner. -/
def sortRows (tmp2 : CharArray) (t : SortTable) : Nat → Except Fault SortTable
  | 0 => .ok t
  | k + 1 => do
    let t ← sweepRows tmp2 t 0 (k + 1)
    sortRows tmp2 t k

def printRows (t : SortTable) (i : Nat) : Nat → Except Fault (List (List UInt8))
  | 0 => .ok []
  | k + 1 => do
    let row ← rowStr (t.rows i)
    let rest ← printRows t (i + 1) k
    .ok (row :: rest)

/-- The rows stay as they are for the next call. -/
def sortFile (tmp2 : CharArray) (table : SortTable) (fs : Ramfs H) (node : Nat) :
    Except Fault (List (List UInt8) × SortTable) := do
  let s ← sortRead table fs node
  let t ← sortRows tmp2 s.table (s.count - 1)
  let out ← printRows t 0 s.count
  .ok (out, t)

def cmdSort (tmp2 : CharArray) (table : SortTable) (s : Shell H) (path : List UInt8) :
    Except Fault (List (List UInt8)) :=
  onFile s path (bytes "usage: sort <file>") (bytes "sort: not found") fun node => do
    let (out, _) ← sortFile tmp2 table s.files.fs node
    .ok out

/-- A byte more in an array of `size`. -/
def putByte (size : Nat) (out : List UInt8) (c : UInt8) : Except Fault (List UInt8) :=
  if out.length < size then .ok (out ++ [c]) else .error (.outOfBounds out.length)

/-- `while (*p) out[i++] = *p++;` -/
def putBytes (size : Nat) (out : List UInt8) : List UInt8 → Except Fault (List UInt8)
  | [] => .ok out
  | c :: text => do
    let out ← putByte size out c
    putBytes size out text

/-- `build_prompt` on an array of `size` characters; what is written, the NUL with it. -/
def buildPrompt (size : Nat) (cwd : PathStr) : Except Fault (List UInt8) := do
  let out ← putBytes size [] (bytes "root")
  let out ← putByte size out 64
  let out ← putBytes size out (bytes "baSic_")
  let out ← putByte size out 58
  let out ← putBytes size out cwd.chars
  let out ← putByte size out 35
  let out ← putByte size out 32
  putByte size out 0

/-- The counts of `cmd_wc`. -/
structure Counts where
  lines : UInt32
  words : UInt32
  bytes : UInt32
  inWord : Bool

def wcStep (s : Counts) (c : UInt8) : Except Fault Counts :=
  let lines := if c = 10 then s.lines + 1 else s.lines
  if c = 32 ∨ c = 9 ∨ c = 10 then .ok ⟨lines, s.words, s.bytes + 1, false⟩
  else .ok ⟨lines, if s.inWord then s.words else s.words + 1, s.bytes + 1, true⟩

/-- `while(v){tmp2[ti--]='0'+v%10;v/=10;}` with so many characters of `tmp2` left in front. -/
def wcLoop : Nat → UInt32 → List UInt8 → Except Fault (List UInt8)
  | left, v, text =>
    if v = 0 then .ok text
    else match left with
      | 0 => .error (.outOfBounds 0)
      | left + 1 => wcLoop left (v / 10) ((48 + v % 10).toUInt8 :: text)

def wcDigits (v : UInt32) : Except Fault (List UInt8) := if v = 0 then .ok [48] else wcLoop 11 v []

/-- The three numbers and the path in `buf`, the NUL with them. -/
def wcText (size : Nat) (s : Counts) (path : List UInt8) : Except Fault (List UInt8) := do
  let lines ← wcDigits s.lines
  let out ← putBytes size [] lines
  let out ← putByte size out 32
  let words ← wcDigits s.words
  let out ← putBytes size out words
  let out ← putByte size out 32
  let bytes ← wcDigits s.bytes
  let out ← putBytes size out bytes
  let out ← putByte size out 32
  let out ← putBytes size out path
  putByte size out 0

def cmdWc (s : Shell H) (path : List UInt8) : Except Fault (List (List UInt8)) :=
  onFile s path (bytes "usage: wc <file>") (bytes "wc: not found") fun node => do
    let counts ← feedFile s.files.fs node 128 (fun _ => true) (fun _ => true) wcStep ⟨0, 0, 0, false⟩
    let out ← wcText 64 counts path
    .ok [lineStr out]

/-- The array `cpath` of `find_recurse`. -/
def childPath (path : PathStr) (name : List UInt8) : Except Fault PathStr :=
  match path.chars.getLast? with
  | none => .error (.outOfBounds 0)
  | some last => .ok (appendPath (withSlash path last) name)

/-- What `find_recurse` prints; the fuel is for the directories inside each other. -/
def findRecurse (fs : Ramfs H) (name : List UInt8) : Nat → Nat → PathStr → Except Fault (List (List UInt8))
  | 0, _, _ => .error .timeout
  | fuel + 1, dir, path =>
    (fs.node dir).children.foldlM (fun out child => do
      let cpath ← childPath path (fs.node child).name
      let out := if (fs.node child).name = name then out ++ [cpath.chars] else out
      if (fs.node child).flags = .dir then do
        let rest ← findRecurse fs name fuel child cpath
        .ok (out ++ rest)
      else .ok out) []

/-- A tree is no deeper than it has nodes. -/
def cmdFind (s : ShellFs H) (name : List UInt8) : Except Fault (List (List UInt8)) :=
  if name = [] then .ok [bytes "usage: find <n>"]
  else match s.fsRoot with
    | none => .ok [bytes "find: no fs"]
    | some root => do
      let lines ← findRecurse s.fs name (s.fs.next + 1) root rootPath
      .ok (if lines = [] then [bytes "not found."] else lines)

end BaSic.Kernel
