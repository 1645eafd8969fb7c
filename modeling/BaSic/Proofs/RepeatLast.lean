import BaSic.Proofs.CommandNames

namespace BaSic.Proofs.RepeatLast
open Kernel Lib CmdBounds CmdRuns CmdEntries CommandNames

variable {W : Type}

/-- The shell, and the last command that was entered. -/
abbrev Noted (W : Type) := Except Fault (ShellState W) × Option (List UInt8)

variable {s : CmdLine} {text line : List UInt8} {x : Except Fault (ShellState W)} {key : ShellKey}
  {commands : Commands W} {fuel : Nat}

/-- The state with a line pushed. -/
def pushed (s : CmdLine) (text : List UInt8) : CmdLine := { stored s text with historyIdx := -1 }

end BaSic.Proofs.RepeatLast
