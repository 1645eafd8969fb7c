import BaSic.Kernel.Process

namespace BaSic.Kernel

def sigDfl : UInt32 := 0

def sigIgn : UInt32 := 1

def sigTerm : Nat := 1

def sigKill : Nat := 2

def sigStop : Nat := 3

def sigCont : Nat := 4

/-- Number of the first signal that does not exist; `sigChld` lies past it. -/
def sigMax : Nat := 7

def sigChld : Int := 8

def sigTableSize : Nat := 16

instance entries_nonempty : NeZero sigTableSize := ⟨by decide⟩

structure SigEntry where
  pid : UInt32
  pending : UInt8
  mask : UInt8
  used : Bool
  handlers : Nat → UInt32

abbrev SigTable := Fin sigTableSize → SigEntry

def signalInit : SigTable := fun _ => ⟨0, 0, 0, false, fun _ => 0⟩

/-- The bit of signal `s` in a pending set or a mask. -/
def sigBit (s : Nat) : UInt8 := UInt8.ofNat (1 <<< (s - 1))

def findOrAlloc (g : SigTable) (pid : UInt32) : Option (Fin sigTableSize) × SigTable :=
  match (List.finRange sigTableSize).find? (fun i => (g i).used && (g i).pid == pid) with
  | some i => (some i, g)
  | none =>
    match (List.finRange sigTableSize).find? (fun i => !(g i).used) with
    | some i => (some i, Function.update g i { g i with pid := pid, pending := 0, used := true })
    | none => (none, g)

def signalSend (g : SigTable) (pid : UInt32) (signo : Int) : SigTable :=
  if signo < 1 ∨ signo ≥ sigMax then g
  else
    match findOrAlloc g pid with
    | (none, g) => g
    | (some i, g) =>
      Function.update g i { g i with pending := (g i).pending ||| sigBit signo.toNat }

def signalSetHandler (g : SigTable) (pid : UInt32) (signo : Int) (handler : UInt32) : SigTable :=
  if signo < 1 ∨ signo ≥ sigMax then g
  else
    match findOrAlloc g pid with
    | (none, g) => g
    | (some i, g) =>
      Function.update g i { g i with handlers := Function.update (g i).handlers (signo.toNat - 1) handler }

def signalSetMask (g : SigTable) (pid : UInt32) (how : Int) (mask : UInt8) : SigTable :=
  match findOrAlloc g pid with
  | (none, g) => g
  | (some i, g) =>
    if how = 0 then Function.update g i { g i with mask := (g i).mask ||| mask }
    else if how = 1 then Function.update g i { g i with mask := (g i).mask &&& ~~~mask }
    else if how = 2 then Function.update g i { g i with mask := mask }
    else g

/-- The processes, the signal table, and the handlers called so far with their signals. -/
structure Tasks where
  procs : ProcTable
  signals : SigTable
  handled : List (UInt32 × Nat)

/-- The default action of signal `s`, on the current process. -/
def defaultAction (t : ProcTable) (s : Nat) : ProcTable :=
  match procCurrent t with
  | none => t
  | some c =>
    if s = sigKill ∨ s = sigTerm then t.setSlot c { t.slot c with exitCode := -(s : Int), state := .zombie }
    else if s = sigStop then t.setState c .sleeping
    else if s = sigCont then t.setState c .ready
    else t

/-- One round of the loop of `signal_dispatch`: signal `s` of entry `e`. -/
def dispatchSignal (k : Tasks) (e : Fin sigTableSize) (s : Nat) : Tasks :=
  if (k.signals e).pending &&& sigBit s = 0 then k
  else if (k.signals e).mask &&& sigBit s ≠ 0 then k
  else
    let pending := (k.signals e).pending &&& ~~~sigBit s
    let k := { k with signals := Function.update k.signals e { k.signals e with pending := pending } }
    if (k.signals e).handlers (s - 1) > 1 then
      { k with handled := ((k.signals e).handlers (s - 1), s) :: k.handled }
    else { k with procs := defaultAction k.procs s }

/-- The entry `signal_dispatch` works on: the last one used for the pid. -/
def dispatchEntry (g : SigTable) (pid : UInt32) : Option (Fin sigTableSize) :=
  (List.finRange sigTableSize).reverse.find? (fun i => (g i).used && (g i).pid == pid)

def signalDispatch (k : Tasks) (pid : UInt32) : Tasks :=
  match dispatchEntry k.signals pid with
  | none => k
  | some e =>
    if (k.signals e).pending = 0 then k
    else ((List.range sigMax).tail).foldl (fun k s => dispatchSignal k e s) k

end BaSic.Kernel
