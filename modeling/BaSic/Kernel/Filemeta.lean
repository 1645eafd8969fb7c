import BaSic.CString

namespace BaSic.Kernel

def metaMax : Nat := 64

def permRead : UInt8 := 1

def permWrite : UInt8 := 2

def permExec : UInt8 := 4

def permDefault : UInt8 := permRead ||| permWrite

structure Filemeta where
  path : CharArray
  perms : UInt8
  used : Bool

abbrev MetaTable := Fin metaMax → Filemeta

def metaMatches (path : CStr) (e : Filemeta) : Bool := e.used && strcmp e.path path == 0

/-- The table afterwards, and what is printed when it is full. -/
def filemetaSet (t : MetaTable) (path : CStr) (perms : UInt8) : Option String × MetaTable :=
  match Fin.find? (fun i => metaMatches path (t i)) with
  | some i => (none, Function.update t i { t i with perms := perms })
  | none =>
    match Fin.find? (fun i => !(t i).used) with
    | some i => (none, Function.update t i ⟨copyCut (t i).path path 63, perms, true⟩)
    | none => (some "[WARN] filemeta: table full\n", t)

def filemetaGet (t : MetaTable) (path : CStr) : UInt8 :=
  match Fin.find? (fun i => metaMatches path (t i)) with
  | some i => (t i).perms
  | none => permDefault

def etcMotd : CStr := ⟨[47, 101, 116, 99, 47, 109, 111, 116, 100], by decide⟩

def etcInit : CStr := ⟨[47, 101, 116, 99, 47, 105, 110, 105, 116], by decide⟩

/-- `memset(meta_table, 0, sizeof(meta_table))` -/
def metaClear : MetaTable := fun _ => ⟨fun _ => 0, 0, false⟩

/-- The two system paths have their permissions from the start. -/
def filemetaInit : MetaTable :=
  (filemetaSet (filemetaSet metaClear etcMotd permRead).2 etcInit (permRead ||| permExec)).2

/-- The loop of `cmd_chmod` over the mode. -/
def chmodPerms (mode : List UInt8) : UInt8 :=
  mode.foldl (fun perms c =>
    let perms := if c = 114 then perms ||| permRead else perms
    let perms := if c = 119 then perms ||| permWrite else perms
    if c = 120 then perms ||| permExec else perms) 0

/-- What `dispatch` makes of the text after `chmod `: the path up to the first space, and the
mode behind it. -/
def chmodArgs (arg : CStr) : Option (CStr × List UInt8) :=
  match arg.chars.dropWhile (· ≠ 32) with
  | [] => none
  | _ :: mode => some (⟨arg.chars.takeWhile (· ≠ 32), fun h => arg.noNul (List.takeWhile_subset _ h)⟩, mode)

/-- The message and the table after the command. -/
def cmdChmod (t : MetaTable) (arg : CStr) : String × MetaTable :=
  match chmodArgs arg with
  | none => ("usage: chmod <path> <rwx>", t)
  | some (path, mode) => ("OK", (filemetaSet t path (chmodPerms mode)).2)

end BaSic.Kernel
