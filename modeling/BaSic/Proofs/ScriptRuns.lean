import BaSic.CString
import BaSic.Kernel.ScriptRun
import BaSic.Lib.Parts
import BaSic.Proofs.ChainInvariant
import BaSic.Proofs.CommandNames
import BaSic.Proofs.Formatted

namespace BaSic.Proofs.ScriptRuns
open Kernel Fs Lib CommandNames ChainInvariant Formatted

/-- The lines of a script that are neither empty nor a comment. -/
def scriptLines (text : List UInt8) : List (List UInt8) := (parts 10 text).filter isCommand

section Own

variable {H U : Type}

/-- A script that was run with a buffer of its own. For every script on the disk that goes on when
it has come to its end, `unread` has the place in the buffer behind the line that the other is
at, and the text from there on. -/
structure OwnCall where
  onDisk : Bool
  unread : List (Nat × List UInt8)
  bytes : List UInt8

structure OwnWorld (H U : Type) extends ScriptBase H U where
  calls : List OwnCall

def ownCommands (commands : Commands (ScriptBase H U)) : Commands (OwnWorld H U) where
  promptCol w := commands.promptCol w.toScriptBase
  exec w text args := { w with toScriptBase := commands.exec w.toScriptBase text args }
  saved w bytes := { w with toScriptBase := commands.saved w.toScriptBase bytes }
  startRun w _ := w
  nextLine w := (none, w)

/-- The bytes of a script up to the first NUL. -/
def scriptText (bytes : List UInt8) : List UInt8 := bytes.takeWhile (· ≠ 0)

/-- The script of that name and whether it is on the disk, read into a buffer of its own. -/
def readScript (base : ScriptBase H U) (path : List UInt8) :
    Except Fault (Option (Bool × List UInt8) × ScriptBase H U) :=
  if path = [] then .ok (none, base)
  else do
    let full ← makeFull base.shell.cwd path
    match fileAt base.shell.files full.chars with
    | none => do
      let (n, buf, fat) ← fat12Read chainFuel base.fat (some (cString path)) (some fun _ => 0) 1023
      .ok (if n ≤ 0 then none else some (true, tabulate n.toNat (buf.getD fun _ => 0)), { base with fat := fat })
    | some node => do
      let bytes ← vfsRead ramfsOps base.shell.files.fs (some node) 0 1023
      .ok (some (false, bytes), base)

/-- What is unread while a line of the text is run, which ends there. -/
def behind (unread : List (Nat × List UInt8)) (text : List UInt8) (stop : Nat) : List (Nat × List UInt8) :=
  if stop < text.length then unread ++ [(stop + 1, text.drop (stop + 1))] else unread

/-- The lines one after the other; `execLine` is told where each ends. -/
def ownLines {σ : Type} (execLine : Nat → List UInt8 → σ → Except Fault σ) :
    Nat → List (List UInt8) → σ → Except Fault σ
  | _, [], st => .ok st
  | i, text :: rest, st => do
    let st ← runCommand (execLine (i + text.length)) text st
    ownLines execLine (i + text.length + 1) rest st

/-- What running a script is meant to do: each script has its text to itself, and its lines are
dispatched one after the other. The fuel is only for scripts that run scripts. -/
def ownRun (commands : Commands (ScriptBase H U)) :
    Nat → List (Nat × List UInt8) → List UInt8 → ShellState (OwnWorld H U) → Except Fault (ShellState (OwnWorld H U))
  | 0, _, _, _ => .error .timeout
  | fuel + 1, unread, path, (s, w) => do
    let (found, base) ← readScript w.toScriptBase path
    match found with
    | none => .ok (s, { w with toScriptBase := base })
    | some (onDisk, bytes) => do
      let text := scriptText bytes
      let st ← ownLines (fun stop => shellExecLine (ownCommands commands)
          (ownRun commands fuel (if onDisk then behind unread text stop else unread)))
        0 (parts 10 text) (s, { w with toScriptBase := base })
      .ok (st.1, { st.2 with calls := st.2.calls ++ [⟨onDisk, unread, bytes⟩] })

/-- A script on the disk is shorter than what has been read of those that go on, or from there on
it has their text; and no line of any script comes behind a NUL. -/
def LeavesRest (c : OwnCall) : Prop :=
  scriptLines (scriptText c.bytes) = scriptLines c.bytes ∧
    (c.onDisk = true → ∀ r ∈ c.unread, c.bytes.length < r.1 ∨ scriptText (c.bytes.drop r.1) = r.2)

end Own

section Loop

variable {σ τ : Type} {get : σ → Bytes} {set : Bytes → σ → σ} {execLine : List UInt8 → σ → Except Fault σ}
  {execOwn : Nat → List UInt8 → τ → Except Fault τ} {a : Bytes} {i left line fuel : Nat} {text : List UInt8}

/-- The line that a round finds in the buffer. -/
theorem line_text {first tail : List UInt8} (h : HoldsFrom a line (first ++ tail)) :
    tabulate (line + first.length - line) (fun k => a (line + k)) = first := by
  obtain ⟨hchars, -⟩ := holds_from_append h
  rw [Nat.add_sub_cancel_left]
  apply List.ext_getElem?
  intro k
  rw [tabulate_get?]
  split
  · rename_i hk
    simp [hchars k hk, hk]
  · rename_i hk
    simp [Nat.le_of_not_lt hk]

end Loop

section Shell

variable {V W : Type} {own : Commands V} {code : Commands W}
  {ownCmd : List UInt8 → ShellState V → Except Fault (ShellState V)}
  {cmdRun : List UInt8 → ShellState W → Except Fault (ShellState W)} {R : V → W → Prop} {P : V → Prop}
  {s : CmdLine} {v : V} {w : W} {e : CmdEntry} {u : ShellState V} {text : List UInt8}

end Shell

section Reads

variable {stack : Sector} {size bufSize count lba written fuel cluster : Nat} {d : Disk} {out : Bytes} {g : Geometry}
  {f : FatCache} {i : Nat}

end Reads

section Buffer

variable {a b c : Bytes} {i k stop : Nat} {r : Nat × List UInt8} {unread : List (Nat × List UInt8)}
  {text whole bytes : List UInt8}

theorem holds_congr (h : HoldsFrom a i text) (hsame : ∀ j, i ≤ j → b j = a j) : HoldsFrom b i text := by
  obtain ⟨hat, hend⟩ := holds_from_iff.mp h
  refine holds_from_iff.mpr ⟨?_, ?_⟩
  · intro j hj
    rw [hsame _ (by omega)]
    exact hat j hj
  · rw [hsame _ (by omega)]
    exact hend

/-- From each unread place on the buffer is as it was, or has the text that is still to be read. -/
def Kept (unread : List (Nat × List UInt8)) (a b : Bytes) : Prop :=
  ∀ r ∈ unread, (∀ i, r.1 ≤ i → b i = a i) ∨ HoldsFrom b r.1 r.2

theorem Kept.refl (unread : List (Nat × List UInt8)) (a : Bytes) : Kept unread a a :=
  fun _ _ => Or.inl (fun _ _ => rfl)

theorem Kept.trans (h : Kept unread a b) (h' : Kept unread b c) : Kept unread a c := by
  intro r hr
  rcases h' r hr with hsame' | hholds'
  · rcases h r hr with hsame | hholds
    · exact Or.inl (fun i hi => (hsame' i hi).trans (hsame i hi))
    · exact Or.inr (holds_congr hholds hsame')
  · exact Or.inr hholds'

/-- The unread texts are behind this one or its ends, and in the buffer. -/
def Ends (unread : List (Nat × List UInt8)) (whole : List UInt8) (a : Bytes) : Prop :=
  ∀ r ∈ unread, whole.length < r.1 ∨ whole.drop r.1 = r.2 ∧ HoldsFrom a r.1 r.2

end Buffer

section Runs

variable {H U : Type} {commands : Commands (ScriptBase H U)} {fuel : Nat} {path text : List UInt8} {s : CmdLine}
  {unread : List (Nat × List UInt8)} {start : Bytes} {v : OwnWorld H U} {w : ScriptWorld H U}
  {u : ShellState (OwnWorld H U)}

/-- All scripts that were run leave what is unread. -/
def AllLeave (v : OwnWorld H U) : Prop := ∀ c ∈ v.calls, LeavesRest c

/-- What `cmd_run` is to make of a script. -/
def OwnCall.ran (c : OwnCall) : ScriptCall :=
  ⟨c.onDisk, c.bytes, (scriptLines (scriptText c.bytes)).map (List.take 77)⟩

/-- The same files and the same scripts, and what was unread in the buffer is kept. -/
structure Shown (unread : List (Nat × List UInt8)) (start : Bytes) (v : OwnWorld H U) (w : ScriptWorld H U) : Prop where
  base : w.toScriptBase = v.toScriptBase
  calls : w.calls = v.calls.map OwnCall.ran
  kept : Kept unread start w.sbuf

/-- A script does what it is meant to do, with this fuel. -/
def Follows (commands : Commands (ScriptBase H U)) (fuel : Nat) : Prop :=
  ∀ unread start path s v w u, ownRun commands fuel unread path (s, v) = .ok u → AllLeave u.2 →
    Shown unread start v w → ∃ w', runScript commands fuel path (s, w) = .ok (u.1, w') ∧ Shown unread start u.2 w'

theorem Shown.done (h : Shown unread start v w) (c : OwnCall) :
    Shown unread start { v with calls := v.calls ++ [c] } { w with calls := w.calls ++ [c.ran] } := by
  refine ⟨h.base, ?_, h.kept⟩
  simp [h.calls]

section Reads

variable {base : ScriptBase H U} {bytes : List UInt8}

end Reads

end Runs


section Nested

instance leaves_rest_decidable : DecidablePred LeavesRest := fun c =>
  inferInstanceAs (Decidable (scriptLines (scriptText c.bytes) = scriptLines c.bytes ∧
    (c.onDisk = true → ∀ r ∈ c.unread, c.bytes.length < r.1 ∨ scriptText (c.bytes.drop r.1) = r.2)))

end Nested

end BaSic.Proofs.ScriptRuns
