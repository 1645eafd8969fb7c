import BaSic.Lib.Steps

namespace BaSic.Kernel
open Lib

def e1000NumRx : Nat := 8
def e1000BufSize : Nat := 2048

/-- The fields of `rx_desc_t` that the NIC and the driver exchange. -/
structure RxDesc where
  length : UInt16
  status : UInt8

/-- The receive side of the driver and the two ring registers of the NIC. -/
structure E1000 where
  mmioBase : UInt32
  rxRing : Nat → RxDesc
  rxBuf : Nat → Nat → UInt8
  rxTail : Nat
  rdh : Nat
  rdt : Nat

/-- The zeroed statics, and a NIC that no one has programmed. -/
def E1000.boot : E1000 := ⟨0, fun _ => ⟨0, 0⟩, fun _ _ => 0, 0, 0, 0⟩

/-- `e1000_write` of `E1000_RDH`; without a base address it does not reach the NIC. -/
def E1000.writeRdh (s : E1000) (val : Nat) : E1000 := if s.mmioBase = 0 then s else { s with rdh := val }

/-- `e1000_write` of `E1000_RDT`. -/
def E1000.writeRdt (s : E1000) (val : Nat) : E1000 := if s.mmioBase = 0 then s else { s with rdt := val }

/-- `bar0` is what `pci_read` returns for the device that `pci_find` found, if any. -/
def e1000Init (s : E1000) (bar0 : Option UInt32) : Int × E1000 :=
  match bar0 with
  | none => (0, s)
  | some bar0 =>
    let s := { s with mmioBase := bar0 &&& ~~~0xF }
    let s := { s with rxRing := fun _ => ⟨0, 0⟩ }
    let s := s.writeRdh 0
    let s := s.writeRdt (e1000NumRx - 1)
    (1, { s with rxTail := 0 })

/-- The test of the done bit. -/
def E1000.rxDone (s : E1000) : Bool := (s.rxRing s.rxTail).status &&& 0x01 != 0

def E1000.rxLen (s : E1000) (maxLen : UInt16) : UInt16 :=
  let len := (s.rxRing s.rxTail).length
  if len > maxLen then maxLen else len

/-- What the `memcpy` out of the receive buffer stores in `buf`. -/
def E1000.rxCopy (s : E1000) (maxLen : UInt16) : List UInt8 :=
  (List.range (s.rxLen maxLen).toNat).map (s.rxBuf s.rxTail)

def E1000.rxClear (s : E1000) : E1000 :=
  { s with rxRing := Function.update s.rxRing s.rxTail { s.rxRing s.rxTail with status := 0 } }

def E1000.rxHandBack (s : E1000) : E1000 := s.writeRdt s.rxTail

def E1000.rxAdvance (s : E1000) : E1000 := { s with rxTail := (s.rxTail + 1) % e1000NumRx }

/-- The number returned and the bytes stored in `buf`. -/
def e1000Recv (s : E1000) (maxLen : UInt16) : (Int × List UInt8) × E1000 :=
  if s.mmioBase = 0 then ((-1, []), s)
  else if !s.rxDone then ((0, []), s)
  else (((s.rxLen maxLen).toNat, s.rxCopy maxLen), s.rxClear.rxHandBack.rxAdvance)

/-- The NIC at the arrival of a frame: it has a buffer for it unless its head has come to
`RDT`, and drops what is longer than a buffer. -/
def nicStore (s : E1000) (frame : List UInt8) : Bool × E1000 :=
  if s.rdh = s.rdt ∨ e1000BufSize < frame.length then (false, s)
  else
    (true, { s with
      rxBuf := Function.update s.rxBuf s.rdh (fun i => frame.getD i (s.rxBuf s.rdh i))
      rxRing := Function.update s.rxRing s.rdh
        ⟨UInt16.ofNat frame.length, (s.rxRing s.rdh).status ||| 0x01⟩
      rdh := (s.rdh + 1) % e1000NumRx })

/-- How far a call of `e1000_recv` has come that found the done bit set. -/
inductive RecvPc where
  | idle
  | copying (maxLen : UInt16)
  | clearing (maxLen : UInt16) (bytes : List UInt8)
  | handingBack (maxLen : UInt16) (bytes : List UInt8)
  | advancing (maxLen : UInt16) (bytes : List UInt8)

/-- A frame arrives, `e1000_recv` is called, or the call under way does its next access. -/
inductive RxEvent where
  | arrive (frame : List UInt8)
  | call (maxLen : UInt16)
  | next

/-- The driver and the NIC at work, with what the NIC accepted and what the calls of
`e1000_recv` that found a frame returned. -/
structure RxLink where
  dev : E1000
  pc : RecvPc
  accepted : List (List UInt8)
  returned : List (UInt16 × List UInt8)

def afterInit (bar0 : Option UInt32) : RxLink := ⟨(e1000Init .boot bar0).2, .idle, [], []⟩

/-- One event, with what `e1000_recv` returns where the event ends a call. -/
def rxStep (s : RxLink) : RxEvent → Option Int × RxLink
  | .arrive frame =>
    match nicStore s.dev frame with
    | (true, dev) => (none, { s with dev := dev, accepted := s.accepted ++ [frame] })
    | (false, dev) => (none, { s with dev := dev })
  | .call maxLen =>
    match s.pc with
    | .idle =>
      if s.dev.mmioBase = 0 then (some (-1), s)
      else if !s.dev.rxDone then (some 0, s)
      else (none, { s with pc := .copying maxLen })
    | _ => (none, s)
  | .next =>
    match s.pc with
    | .idle => (none, s)
    | .copying maxLen => (none, { s with pc := .clearing maxLen (s.dev.rxCopy maxLen) })
    | .clearing maxLen bytes => (none, { s with dev := s.dev.rxClear, pc := .handingBack maxLen bytes })
    | .handingBack maxLen bytes => (none, { s with dev := s.dev.rxHandBack, pc := .advancing maxLen bytes })
    | .advancing maxLen bytes =>
      (some bytes.length,
        { s with dev := s.dev.rxAdvance, pc := .idle, returned := s.returned ++ [(maxLen, bytes)] })

def e1000NumTx : Nat := 8

/-- The fields of `tx_desc_t` that the driver and the NIC exchange. -/
structure TxDesc where
  length : UInt16
  cmd : UInt8
  status : UInt8

/-- The transmit side of the driver and the two ring registers of the NIC. -/
structure E1000Tx where
  mmioBase : UInt32
  txRing : Nat → TxDesc
  txBuf : Nat → Nat → UInt8
  txTail : Nat
  tdh : Nat
  tdt : Nat

/-- The transmit side after `e1000_init` found a device with this base address. -/
def txInit (bar0 : UInt32) : E1000Tx := ⟨bar0 &&& ~~~0xF, fun _ => ⟨0, 0, 0⟩, fun _ _ => 0, 0, 0, 0⟩

def E1000Tx.copy (s : E1000Tx) (data : List UInt8) : E1000Tx :=
  { s with txBuf := Function.update s.txBuf s.txTail (fun i => data.getD i (s.txBuf s.txTail i)) }

def E1000Tx.setDesc (s : E1000Tx) (desc : TxDesc) : E1000Tx :=
  { s with txRing := Function.update s.txRing s.txTail desc }

/-- EOP, IFCS and RS: the NIC is to set the status of the descriptor. -/
def txCmd : UInt8 := 0x0B

/-- The NIC sends the frame at its head, unless that has come to `TDT`. -/
def nicTransmit (s : E1000Tx) : Option (List UInt8) × E1000Tx :=
  if s.tdh = s.tdt then (none, s)
  else
    let desc := s.txRing s.tdh
    (some ((List.range desc.length.toNat).map (s.txBuf s.tdh)),
      { s with
        txRing := Function.update s.txRing s.tdh
          { desc with status := if desc.cmd &&& 0x08 ≠ 0 then desc.status ||| 0x01 else desc.status }
        tdh := (s.tdh + 1) % e1000NumTx })

/-- How far a call of `e1000_send` has come; while it waits, `desc` is the index of its descriptor. -/
inductive SendPc where
  | idle
  | copying (data : List UInt8)
  | describing (data : List UInt8)
  | clearing (data : List UInt8)
  | advancing (data : List UInt8)
  | ringing (desc : Nat) (data : List UInt8)
  | waiting (desc : Nat) (data : List UInt8) (timeout : Nat)
  | testing (desc : Nat) (data : List UInt8)

/-- `e1000_send` is called, the call under way does its next access, or the NIC its work. -/
inductive TxEvent where
  | call (data : List UInt8)
  | next
  | transmit

/-- The driver and the NIC at work, with the frames that `e1000_send` took and those on the wire. -/
structure TxLink where
  dev : E1000Tx
  pc : SendPc
  taken : List (List UInt8)
  wire : List (List UInt8)

/-- One event, with what `e1000_send` returns where the event ends a call. -/
def txStep (s : TxLink) : TxEvent → Option Int × TxLink
  | .transmit =>
    match nicTransmit s.dev with
    | (some frame, dev) => (none, { s with dev := dev, wire := s.wire ++ [frame] })
    | (none, dev) => (none, { s with dev := dev })
  | .call data =>
    match s.pc with
    | .idle =>
      if s.dev.mmioBase = 0 ∨ data.length > e1000BufSize then (some (-1), s)
      else (none, { s with pc := .copying data, taken := s.taken ++ [data] })
    | _ => (none, s)
  | .next =>
    match s.pc with
    | .idle => (none, s)
    | .copying data => (none, { s with dev := s.dev.copy data, pc := .describing data })
    | .describing data =>
      (none, { s with
        dev := s.dev.setDesc ⟨UInt16.ofNat data.length, txCmd, (s.dev.txRing s.dev.txTail).status⟩, pc := .clearing data })
    | .clearing data =>
      (none, { s with dev := s.dev.setDesc { s.dev.txRing s.dev.txTail with status := 0 }, pc := .advancing data })
    | .advancing data =>
      (none, { s with
        dev := { s.dev with txTail := (s.dev.txTail + 1) % e1000NumTx }, pc := .ringing s.dev.txTail data })
    | .ringing desc data =>
      (none, { s with dev := { s.dev with tdt := s.dev.txTail }, pc := .waiting desc data 100000 })
    | .waiting desc data timeout =>
      if (s.dev.txRing desc).status ≠ 0 ∨ timeout - 1 = 0 then (none, { s with pc := .testing desc data })
      else (none, { s with pc := .waiting desc data (timeout - 1) })
    | .testing desc data =>
      (some (if (s.dev.txRing desc).status ≠ 0 then (data.length : Int) else -1), { s with pc := .idle })

def txStart (bar0 : UInt32) : TxLink := ⟨txInit bar0, .idle, [], []⟩

end BaSic.Kernel
