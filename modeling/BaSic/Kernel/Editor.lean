import BaSic.Machine

namespace BaSic.Kernel

def edRows : Nat := 22

def edMaxLines : Int := 128

def edLineMax : Int := 80

/-- The statics of the editor; `filename` and `search_query` are strings. -/
structure Editor where
  buf : Int → Int → UInt8
  lineLen : Int → Int
  numLines : Int
  cx : Int
  cy : Int
  scrollY : Int
  modified : Bool
  filename : List UInt8
  msg : String
  searchQuery : List UInt8

namespace Editor

/-- `line_len[i]` -/
def lenAt (s : Editor) (i : Int) : Except Fault Int :=
  if 0 ≤ i ∧ i < edMaxLines then .ok (s.lineLen i) else .error (.outOfBounds i.toNat)

def setLen (s : Editor) (i n : Int) : Except Fault Editor :=
  if 0 ≤ i ∧ i < edMaxLines then .ok { s with lineLen := Function.update s.lineLen i n }
  else .error (.outOfBounds i.toNat)

/-- `buf[i][j]`, which stays in its row. -/
def charAt (s : Editor) (i j : Int) : Except Fault UInt8 :=
  if (0 ≤ i ∧ i < edMaxLines) ∧ 0 ≤ j ∧ j < edLineMax + 1 then .ok (s.buf i j) else .error (.outOfBounds j.toNat)

def setChar (s : Editor) (i j : Int) (c : UInt8) : Except Fault Editor :=
  if (0 ≤ i ∧ i < edMaxLines) ∧ 0 ≤ j ∧ j < edLineMax + 1 then
    .ok { s with buf := Function.update s.buf i (Function.update (s.buf i) j c) }
  else .error (.outOfBounds j.toNat)

/-- `memcpy(buf[i], buf[k], ED_LINE_MAX + 1); line_len[i] = line_len[k];` -/
def copyLine (s : Editor) (i k : Int) : Except Fault Editor :=
  if (0 ≤ i ∧ i < edMaxLines) ∧ 0 ≤ k ∧ k < edMaxLines then
    .ok { s with buf := Function.update s.buf i (s.buf k), lineLen := Function.update s.lineLen i (s.lineLen k) }
  else .error (.outOfBounds i.toNat)

/-- `memcpy(buf[i] + a, buf[k] + b, n)` between different rows; a negative `n` is a huge one. -/
def copyChars (s : Editor) (i a k b n : Int) : Except Fault Editor :=
  if (0 ≤ i ∧ i < edMaxLines) ∧ (0 ≤ k ∧ k < edMaxLines) ∧ 0 ≤ n ∧ (0 ≤ a ∧ a + n ≤ edLineMax + 1) ∧
      0 ≤ b ∧ b + n ≤ edLineMax + 1 then
    let row := fun j => if a ≤ j ∧ j < a + n then s.buf k (b + (j - a)) else s.buf i j
    .ok { s with buf := Function.update s.buf i row }
  else .error (.outOfBounds (a + n).toNat)

end Editor

def bufInit (s : Editor) : Editor :=
  { s with buf := fun _ _ => 0, lineLen := fun _ => 0, numLines := 1, cx := 0, cy := 0, scrollY := 0,
           modified := false, msg := "" }

/-- The rounds of `for (int i = len; i > cx; i--)` that are left from `i` on. -/
def shiftRight (s : Editor) (i : Int) : Nat → Except Fault Editor
  | 0 => .ok s
  | k + 1 => do
    let c ← s.charAt s.cy (i - 1)
    let s ← s.setChar s.cy i c
    shiftRight s (i - 1) k

def bufInsertChar (s : Editor) (c : UInt8) : Except Fault Editor :=
  if s.cy ≥ edMaxLines then .ok s
  else do
    let len ← s.lenAt s.cy
    if len ≥ edLineMax then .ok s
    else do
      let s ← shiftRight s len (len - s.cx).toNat
      let s ← s.setChar s.cy s.cx c
      let s ← s.setLen s.cy (len + 1)
      let s ← s.setChar s.cy (len + 1) 0
      .ok { s with cx := s.cx + 1, modified := true }

/-- `for (; i < num_lines - 1; i++)` of the loops that close a gap in the lines. -/
def linesUp (s : Editor) (i : Int) : Nat → Except Fault Editor
  | 0 => .ok s
  | k + 1 => do
    let s ← s.copyLine i (i + 1)
    linesUp s (i + 1) k

/-- `for (; i < line_len[cy] - 1; i++)` -/
def shiftLeft (s : Editor) (i : Int) : Nat → Except Fault Editor
  | 0 => .ok s
  | k + 1 => do
    let c ← s.charAt s.cy (i + 1)
    let s ← s.setChar s.cy i c
    shiftLeft s (i + 1) k

/-- The first half of `buf_delete_char`: the line joins the one before. -/
def mergeLine (s : Editor) : Except Fault Editor := do
  let prevLen ← s.lenAt (s.cy - 1)
  let curLen ← s.lenAt s.cy
  if prevLen + curLen ≤ edLineMax then do
    let s ← s.copyChars (s.cy - 1) prevLen s.cy 0 curLen
    let s ← s.setLen (s.cy - 1) (prevLen + curLen)
    let s ← s.setChar (s.cy - 1) (prevLen + curLen) 0
    let s ← linesUp s s.cy (s.numLines - 1 - s.cy).toNat
    .ok { s with numLines := s.numLines - 1, cy := s.cy - 1, cx := prevLen, modified := true }
  else .ok { s with modified := true }

def bufDeleteChar (s : Editor) : Except Fault Editor :=
  if s.cx = 0 then if s.cy = 0 then .ok s else mergeLine s
  else do
    let len ← s.lenAt s.cy
    let s ← shiftLeft s (s.cx - 1) (len - 1 - (s.cx - 1)).toNat
    let s ← s.setLen s.cy (len - 1)
    let s ← s.setChar s.cy (len - 1) 0
    .ok { s with cx := s.cx - 1, modified := true }

/-- `for (; i > cy + 1; i--)` -/
def linesDown (s : Editor) (i : Int) : Nat → Except Fault Editor
  | 0 => .ok s
  | k + 1 => do
    let s ← s.copyLine i (i - 1)
    linesDown s (i - 1) k

def bufNewline (s : Editor) : Except Fault Editor :=
  if s.numLines ≥ edMaxLines then .ok s
  else do
    let s ← linesDown s s.numLines (s.numLines - (s.cy + 1)).toNat
    let s := { s with numLines := s.numLines + 1 }
    let len ← s.lenAt s.cy
    let rest := len - s.cx
    let s ← s.copyChars (s.cy + 1) 0 s.cy s.cx rest
    let s ← s.setChar (s.cy + 1) rest 0
    let s ← s.setLen (s.cy + 1) rest
    let s ← s.setChar s.cy s.cx 0
    let s ← s.setLen s.cy s.cx
    .ok { s with cy := s.cy + 1, cx := 0, modified := true }

/-- `cx` moves to the end of a line too short for it. -/
def clipCx (s : Editor) : Except Fault Editor := do
  let len ← s.lenAt s.cy
  if s.cx > len then .ok { s with cx := len } else .ok s

def bufDeleteLine (s : Editor) : Except Fault Editor :=
  if s.numLines = 1 then
    .ok { s with buf := Function.update s.buf 0 (fun _ => 0), lineLen := Function.update s.lineLen 0 0,
                 cx := 0, modified := true }
  else do
    let s ← linesUp s s.cy (s.numLines - 1 - s.cy).toNat
    let s := { s with numLines := s.numLines - 1 }
    let s := if s.cy ≥ s.numLines then { s with cy := s.numLines - 1 } else s
    let s ← clipCx s
    .ok { s with modified := true }

/-- `!strncmp(buf[line] + c, query, qlen)` -/
def startsAt (s : Editor) (line c : Int) : List UInt8 → Except Fault Bool
  | [] => .ok true
  | q :: query => do
    let ch ← s.charAt line c
    if ch ≠ 0 ∧ ch = q then startsAt s line (c + 1) query else .ok (ch == q)

/-- The columns from `c` on, as many as are left. -/
def findFrom (s : Editor) (query : List UInt8) (line c : Int) : Nat → Except Fault (Option Int)
  | 0 => .ok none
  | k + 1 => do
    if ← startsAt s line c query then .ok (some c) else findFrom s query line (c + 1) k

/-- From the cursor forward. -/
def findForward (s : Editor) (query : List UInt8) (line : Int) : Nat → Except Fault (Option (Int × Int))
  | 0 => .ok none
  | k + 1 => do
    let start := if line = s.cy then s.cx + 1 else 0
    let len ← s.lenAt line
    match ← findFrom s query line start (len - query.length - start + 1).toNat with
    | some c => .ok (some (line, c))
    | none => findForward s query (line + 1) k

/-- `end` of the second search: the cursor in its own line. -/
def wrapEnd (s : Editor) (line : Int) : Except Fault Int := if line = s.cy then .ok s.cx else s.lenAt line

/-- From the beginning up to the cursor. -/
def findWrapped (s : Editor) (query : List UInt8) (line : Int) : Nat → Except Fault (Option (Int × Int))
  | 0 => .ok none
  | k + 1 => do
    let last ← wrapEnd s line
    match ← findFrom s query line 0 (last - query.length + 1).toNat with
    | some c => .ok (some (line, c))
    | none => findWrapped s query (line + 1) k

/-- `search_row` and `search_col` where the query was found. -/
def edFind (s : Editor) (query : List UInt8) : Except Fault (Option (Int × Int)) :=
  if query = [] then .ok none
  else do
    match ← findForward s query s.cy (s.numLines - s.cy).toNat with
    | some found => .ok (some found)
    | none => findWrapped s query 0 (s.cy + 1).toNat

def adjustScroll (s : Editor) : Editor :=
  let s := if s.cy < s.scrollY then { s with scrollY := s.cy } else s
  if s.cy ≥ s.scrollY + edRows then { s with scrollY := s.cy - edRows + 1 } else s

/-- The query that the keys typed at the prompt confirm, if they do. -/
def promptLoop (query : List UInt8) : List UInt8 → Option (List UInt8)
  | [] => none
  | c :: keys =>
    if c = 0 then promptLoop query keys
    else if c = 10 ∨ c = 6 then some query
    else if c = 27 ∨ c = 17 then none
    else if c = 8 then promptLoop query.dropLast keys
    else if 32 ≤ c ∧ c < 127 ∧ query.length < 63 then promptLoop (query ++ [c]) keys
    else promptLoop query keys

def edSearchPrompt (s : Editor) (keys : List UInt8) : Except Fault Editor :=
  match promptLoop (s.searchQuery.take 63) keys with
  | none => .ok s
  | some query =>
    if query = [] then .ok s
    else do
      let s := { s with searchQuery := query }
      match ← edFind s s.searchQuery with
      | some (row, col) => .ok { adjustScroll { s with cy := row, cx := col } with msg := "found." }
      | none => .ok { s with msg := "not found." }

/-- The characters `buf[line][c]` and on, as many as asked for. -/
def lineText (s : Editor) (line c : Int) : Nat → Except Fault (List UInt8)
  | 0 => .ok []
  | k + 1 => do
    let ch ← s.charAt line c
    let rest ← lineText s line (c + 1) k
    .ok (ch :: rest)

/-- A row of the screen: the line number and what fits of the text beside it. -/
def renderRow (s : Editor) (line : Int) : Except Fault (Option (Int × List UInt8)) :=
  if line ≥ s.numLines then .ok none
  else do
    let len ← s.lenAt line
    let text ← lineText s line 0 (min len 75).toNat
    .ok (some (line + 1, text))

def renderFrom (s : Editor) (line : Int) : Nat → Except Fault (List (Option (Int × List UInt8)))
  | 0 => .ok []
  | k + 1 => do
    let row ← renderRow s line
    let rows ← renderFrom s (line + 1) k
    .ok (row :: rows)

def renderText (s : Editor) : Except Fault (List (Option (Int × List UInt8))) := renderFrom s s.scrollY edRows

/-- `render_all`, of which only the text reads the buffer. -/
def renderAll (s : Editor) : Except Fault Editor := do
  let _ ← renderText s
  .ok s

def redraw (s : Editor) : Except Fault Editor := renderAll (adjustScroll s)

/-- A key; for Ctrl-F also what is then typed at the prompt. -/
inductive EdKey where
  | up
  | down
  | left
  | right
  | home
  | «end»
  | char (c : UInt8) (prompt : List UInt8)

/-- The character of a key, or NUL. -/
def EdKey.code : EdKey → UInt8
  | .char c _ => c
  | _ => 0

def edUp (s : Editor) : Except Fault Editor :=
  if s.cy > 0 then clipCx { s with cy := s.cy - 1 } else .ok s

def edDown (s : Editor) : Except Fault Editor :=
  if s.cy < s.numLines - 1 then clipCx { s with cy := s.cy + 1 } else .ok s

def edEnd (s : Editor) : Except Fault Editor := do
  let len ← s.lenAt s.cy
  .ok { s with cx := len }

def edLeft (s : Editor) : Except Fault Editor :=
  if s.cx > 0 then .ok { s with cx := s.cx - 1 }
  else if s.cy > 0 then edEnd { s with cy := s.cy - 1 }
  else .ok s

def edRight (s : Editor) : Except Fault Editor := do
  let len ← s.lenAt s.cy
  if s.cx < len then .ok { s with cx := s.cx + 1 }
  else if s.cy < s.numLines - 1 then .ok { s with cy := s.cy + 1, cx := 0 }
  else .ok s

/-- Ctrl-N -/
def edFindNext (s : Editor) : Except Fault Editor := do
  match ← edFind s s.searchQuery with
  | some (row, col) => .ok { s with cy := row, cx := col, msg := "found." }
  | none => .ok { s with msg := "not found." }

/-- The characters of `editor_open` in the order tested, past Ctrl-Q and Ctrl-S. -/
def edChar (s : Editor) (c : UInt8) (prompt : List UInt8) : Except Fault Editor :=
  if c = 11 then do redraw (← bufDeleteLine s)
  else if c = 1 then redraw { s with cx := 0 }
  else if c = 5 then do redraw (← edEnd s)
  else if c = 10 then do redraw (← bufNewline s)
  else if c = 8 then do redraw (← bufDeleteChar s)
  else if 32 ≤ c ∧ c < 127 then do redraw (← bufInsertChar s c)
  else if c = 6 then do renderAll (← edSearchPrompt s prompt)
  else if c = 14 then do redraw (← edFindNext s)
  else .ok s

def edKey (s : Editor) : EdKey → Except Fault Editor
  | .up => do redraw (← edUp s)
  | .down => do redraw (← edDown s)
  | .left => do redraw (← edLeft s)
  | .right => do redraw (← edRight s)
  | .home => redraw { s with cx := 0 }
  | .end => do redraw (← edEnd s)
  | .char c prompt => edChar s c prompt

end BaSic.Kernel
