import BaSic.CString

namespace BaSic.Kernel

def envMaxVars : Nat := 32

def envKeyMax : Nat := 32

def envValMax : Nat := 64

structure EnvEntry where
  key : CharArray
  val : CharArray
  used : Bool

abbrev EnvTable := Fin envMaxVars → EnvEntry

/-- `memset(env_table, 0, sizeof(env_table))` -/
def envClear : EnvTable := fun _ => ⟨fun _ => 0, fun _ => 0, false⟩

/-- The condition of the three loops over the table. -/
def envMatches (key : CStr) (e : EnvEntry) : Bool := e.used && strcmp e.key key == 0

def envSet (t : EnvTable) (key val : CStr) : Int × EnvTable :=
  match Fin.find? (fun i => envMatches key (t i)) with
  | some i => (1, Function.update t i { t i with val := copyCut (t i).val val (envValMax - 1) })
  | none =>
    match Fin.find? (fun i => !(t i).used) with
    | some i => (1, Function.update t i
        ⟨copyCut (t i).key key (envKeyMax - 1), copyCut (t i).val val (envValMax - 1), true⟩)
    | none => (0, t)

/-- The string that the pointer returned points to. -/
def envGet (t : EnvTable) (key : CStr) : Option (List UInt8) :=
  (Fin.find? (fun i => envMatches key (t i))).map (fun i => text (t i).val envValMax)

def envUnset (t : EnvTable) (key : CStr) : EnvTable :=
  fun i => if envMatches key (t i) then { t i with used := false } else t i

end BaSic.Kernel
