import BaSic.Machine
import BaSic.Lib.OnesComplement
import BaSic.Lib.Reads

namespace BaSic.Kernel
open Lib

def ethTypeArp : UInt16 := 0x0806
def ethTypeIp : UInt16 := 0x0800
def arpRequest : UInt16 := 1
def arpReply : UInt16 := 2
def ipProtoIcmp : UInt8 := 1
def ipProtoUdp : UInt8 := 17
def icmpEchoReq : UInt8 := 8
def icmpEchoRep : UInt8 := 0
def udpMaxPayload : Nat := 512

abbrev Mac := Fin 6 → UInt8
abbrev Ip := Fin 4 → UInt8

def bcast : Mac := fun _ => 0xFF

structure ArpEntry where
  ip : Ip
  mac : Mac
  valid : Bool

structure UdpPortEntry (η : Type) where
  port : UInt16
  handler : η
  used : Bool

/-- What a handler was called with; `data` are the `len` bytes of the payload. -/
structure UdpCall (η : Type) where
  handler : η
  data : List UInt8
  len : UInt16
  srcIp : Ip
  srcPort : UInt16

/-- The statics of `net.c`, the frames given to `e1000_send` and the calls of the handlers. -/
structure Net (η : Type) where
  myMac : Mac
  myIp : Ip
  arpCache : Fin 8 → ArpEntry
  udpHandlers : Fin 8 → UdpPortEntry η
  sent : List (List UInt8)
  calls : List (UdpCall η)

/-- What is on the stack where `net_poll` has its `buf` and `handle_icmp` its `reply`. -/
structure Stack where
  buf : Mem
  reply : Mem

variable {η : Type}

def htons (v : UInt16) : UInt16 := (v >>> 8) ||| (v <<< 8)

/-- A 16-bit value as it is stored. -/
def u16Bytes (v : UInt16) : List UInt8 := [v.toUInt8, (v >>> 8).toUInt8]

def loadU16 (pkt : Mem) (i : Nat) : Reading UInt16 := do
  let lo ← readCell pkt i
  let hi ← readCell pkt (i + 1)
  pure (lo.toUInt16 ||| (hi.toUInt16 <<< 8))

def netUdpRegister (s : Net η) (port : UInt16) (handler : η) : Net η :=
  match Fin.find? (fun i => !(s.udpHandlers i).used) with
  | some i => { s with udpHandlers := Function.update s.udpHandlers i ⟨port, handler, true⟩ }
  | none => s

/-- The loop that adds up the words. -/
def ipSum (sum : Nat) : List UInt8 → Nat
  | lo :: hi :: data => ipSum (u32 (sum + (lo.toNat + 256 * hi.toNat))) data
  | [b] => u32 (sum + b.toNat)
  | [] => sum

def ipChecksum (data : List UInt8) : UInt16 := ~~~ UInt16.ofNat (foldCarries (ipSum 0 data))

/-- `ip_checksum(m + base, len)` -/
def ipChecksumAt (m : Mem) (base len : Nat) : Reading UInt16 := do
  let data ← readCells m base len
  pure (ipChecksum (List.ofFn data))

/-- The comparison of the entry with the address at `ip`, where the entry is valid. -/
def arpMatches (e : ArpEntry) (m : Mem) (ip : Nat) : Reading Bool :=
  if e.valid then compareCells m ip (List.ofFn e.ip) else pure false

/-- The first of the entries that holds the address at `ip`. -/
def arpFind (cache : Fin 8 → ArpEntry) (m : Mem) (ip : Nat) : List (Fin 8) → Reading (Option (Fin 8))
  | [] => pure none
  | i :: is => do
    if ← arpMatches (cache i) m ip then pure (some i) else arpFind cache m ip is

/-- `arp_cache_set(m + ip, m + mac)` -/
def arpCacheSet (s : Net η) (m : Mem) (ip mac : Nat) : Reading (Net η) := do
  match ← arpFind s.arpCache m ip (List.finRange 8) with
  | some i =>
    let new ← readCells m mac 6
    pure { s with arpCache := Function.update s.arpCache i { s.arpCache i with mac := new } }
  | none =>
    match Fin.find? (fun i => !(s.arpCache i).valid) with
    | some i =>
      let addr ← readCells m ip 4
      let new ← readCells m mac 6
      pure { s with arpCache := Function.update s.arpCache i ⟨addr, new, true⟩ }
    | none => pure s

def arpCacheGet (s : Net η) (ip : Ip) : Option Mac :=
  (Fin.find? (fun i => (s.arpCache i).valid && (s.arpCache i).ip = ip)).map (fun i => (s.arpCache i).mac)

def e1000Send (s : Net η) (frame : List UInt8) : Net η := { s with sent := s.sent ++ [frame] }

def ethHdr (dst src : Mac) (type : UInt16) : List UInt8 :=
  List.ofFn dst ++ List.ofFn src ++ u16Bytes (htons type)

def arpPkt (op : UInt16) (sha : Mac) (spa : Ip) (tha : Mac) (tpa : Ip) : List UInt8 :=
  u16Bytes (htons 1) ++ u16Bytes (htons ethTypeIp) ++ [6, 4] ++ u16Bytes (htons op) ++
    List.ofFn sha ++ List.ofFn spa ++ List.ofFn tha ++ List.ofFn tpa

/-- The header starts at 0, the ARP packet at 14. -/
def handleArp (s : Net η) (pkt : Mem) : Reading (Net η) := do
  let s ← arpCacheSet s pkt 28 22
  let op ← loadU16 pkt 20
  if htons op ≠ arpRequest then return s
  let mine ← compareCells pkt 38 (List.ofFn s.myIp)
  if !mine then return s
  let dst ← readCells pkt 6 6
  let tha ← readCells pkt 22 6
  let tpa ← readCells pkt 28 4
  return e1000Send s (ethHdr dst s.myMac ethTypeArp ++ arpPkt arpReply s.myMac s.myIp tha tpa)

/-- `memcpy(m + base, bytes, n)` -/
def storeBytes (m : Mem) (base : Nat) (bytes : List UInt8) : Mem := fun i =>
  if base ≤ i then bytes.getD (i - base) (m i) else m i

/-- `reply` starts as a copy of the packet, so that an offset in it is one in the packet. -/
def handleIcmp (stack : Stack) (s : Net η) (pkt : Mem) (len : UInt16) : Reading (Net η) := do
  let type ← readCell pkt 34
  if type ≠ icmpEchoReq then return s
  let src ← readCells pkt 26 4
  let len := if len > 1500 then 1500 else len
  let copy ← readCells pkt 0 len.toNat
  let reply := storeBytes stack.reply 0 (List.ofFn copy)
  let dst ← readCells pkt 6 6
  let reply := storeBytes reply 0 (List.ofFn dst)
  let reply := storeBytes reply 6 (List.ofFn s.myMac)
  let reply := storeBytes reply 30 (List.ofFn src)
  let reply := storeBytes reply 26 (List.ofFn s.myIp)
  let reply := storeBytes reply 24 (u16Bytes 0)
  let checksum ← ipChecksumAt reply 14 20
  let reply := storeBytes reply 24 (u16Bytes checksum)
  let reply := storeBytes reply 34 [icmpEchoRep]
  let reply := storeBytes reply 36 (u16Bytes 0)
  let icmpLen := sub32 (sub32 len.toNat 14) 20
  let checksum ← ipChecksumAt reply 34 icmpLen
  let reply := storeBytes reply 36 (u16Bytes checksum)
  return e1000Send s ((List.range len.toNat).map reply)

def handleUdp (s : Net η) (pkt : Mem) (len : UInt16) : Reading (Net η) := do
  let dstPort ← loadU16 pkt 36
  let srcPort ← loadU16 pkt 34
  let length ← loadU16 pkt 38
  let payLen := htons length - 8
  if payLen > len then return s
  match Fin.find? (fun i => (s.udpHandlers i).used && (s.udpHandlers i).port = htons dstPort) with
  | some i =>
    let payload ← readCells pkt 42 payLen.toNat
    let srcIp ← readCells pkt 26 4
    return { s with calls := s.calls ++
      [⟨(s.udpHandlers i).handler, List.ofFn payload, payLen, srcIp, htons srcPort⟩] }
  | none => return s

def handleIp (stack : Stack) (s : Net η) (pkt : Mem) (len : UInt16) : Reading (Net η) := do
  let mine ← compareCells pkt 30 (List.ofFn s.myIp)
  if !mine then return s
  let proto ← readCell pkt 23
  let s ← if proto = ipProtoIcmp then handleIcmp stack s pkt len else pure s
  let proto ← readCell pkt 23
  if proto = ipProtoUdp then handleUdp s pkt len else return s

/-- The type that `net_poll` reads itself, also from what an earlier frame left in `buf`. -/
def frameType (buf : Mem) : UInt16 := htons (loadU16 buf 12).val

/-- What the body of the loop of `net_poll` does with the `n` bytes received. -/
def handleFrame (stack : Stack) (s : Net η) (buf : Mem) (n : UInt16) : Reading (Net η) :=
  if frameType buf = ethTypeArp then handleArp s buf
  else if frameType buf = ethTypeIp then handleIp stack s buf n
  else pure s

/-- `frames` are those that wait in the receive ring. -/
def netPoll (stack : Stack) (s : Net η) (buf : Mem) : (frames : List (List UInt8)) → Net η
  | [] => s
  | frame :: frames =>
    let bytes := frame.take 1500
    if bytes.length > 0 then
      let buf := storeBytes buf 0 bytes
      netPoll stack (handleFrame stack s buf (UInt16.ofNat bytes.length)).val buf frames
    else s

/-- The rounds of the loop of `net_arp_request`; `arrivals` are the frames that each poll
finds in the receive ring. -/
def arpWait (stack : Stack) (ip : Ip) (s : Net η) : (arrivals : List (List (List UInt8))) → Bool × Net η
  | [] => (false, s)
  | frames :: arrivals =>
    let s := netPoll stack s stack.buf frames
    if (arpCacheGet s ip).isSome then (true, s) else arpWait stack ip s arrivals

def netArpRequest (stack : Stack) (s : Net η) (ip : Ip) (arrivals : Fin 50 → List (List UInt8)) : Bool × Net η :=
  let s := e1000Send s
    (ethHdr bcast s.myMac ethTypeArp ++ arpPkt arpRequest s.myMac s.myIp (fun _ => 0) ip)
  arpWait stack ip s (List.ofFn arrivals)

def ipHdr (totalLen : UInt16) (proto : UInt8) (checksum : UInt16) (src dst : Ip) : List UInt8 :=
  [0x45, 0] ++ u16Bytes (htons totalLen) ++ [0, 0, 0, 0, 64, proto] ++ u16Bytes checksum ++
    List.ofFn src ++ List.ofFn dst

/-- The header with the checksum of the header that has none yet. -/
def ipHdrSummed (totalLen : UInt16) (proto : UInt8) (src dst : Ip) : List UInt8 :=
  ipHdr totalLen proto (ipChecksum (ipHdr totalLen proto 0 src dst)) src dst

def udpHdr (srcPort dstPort length : UInt16) : List UInt8 :=
  u16Bytes (htons srcPort) ++ u16Bytes (htons dstPort) ++ u16Bytes (htons length) ++ u16Bytes 0

/-- The bytes of `pkt` that `net_udp_send` sends. -/
def udpFrame (s : Net η) (dstMac : Mac) (dstIp : Ip) (dstPort srcPort : UInt16) (data : List UInt8) : List UInt8 :=
  let udpLen := 8 + UInt16.ofNat data.length
  let ipLen := 20 + udpLen
  ethHdr dstMac s.myMac ethTypeIp ++ ipHdrSummed ipLen ipProtoUdp s.myIp dstIp ++
    udpHdr srcPort dstPort udpLen ++ data

def netUdpSend (stack : Stack) (s : Net η) (arrivals : Fin 50 → List (List UInt8)) (dstIp : Ip)
    (dstPort srcPort : UInt16) (data : List UInt8) : Int × Net η :=
  if data.length > udpMaxPayload then (-1, s)
  else
    match arpCacheGet s dstIp with
    | some dstMac => (data.length, e1000Send s (udpFrame s dstMac dstIp dstPort srcPort data))
    | none =>
      match netArpRequest stack s dstIp arrivals with
      | (false, s) => (-1, s)
      | (true, s) =>
        match arpCacheGet s dstIp with
        | some dstMac => (data.length, e1000Send s (udpFrame s dstMac dstIp dstPort srcPort data))
        | none => (-1, s)

def icmpHdr (type : UInt8) (checksum id seq : UInt16) : List UInt8 :=
  [type, 0] ++ u16Bytes checksum ++ u16Bytes (htons id) ++ u16Bytes (htons seq)

/-- The request that `net_ping` sends, with 32 bytes that are zero. -/
def pingEcho (checksum : UInt16) : List UInt8 := icmpHdr icmpEchoReq checksum 0x1337 1 ++ List.replicate 32 0

def pingFrame (s : Net η) (dstMac : Mac) (ip : Ip) : List UInt8 :=
  ethHdr dstMac s.myMac ethTypeIp ++ ipHdrSummed 60 ipProtoIcmp s.myIp ip ++ pingEcho (ipChecksum (pingEcho 0))

/-- The 100 polls after the request, whatever they find. -/
def pingWait (stack : Stack) (s : Net η) (replies : Fin 100 → List (List UInt8)) : Net η :=
  (List.ofFn replies).foldl (fun s frames => netPoll stack s stack.buf frames) s

def netPing (stack : Stack) (s : Net η) (arrivals : Fin 50 → List (List UInt8)) (replies : Fin 100 → List (List UInt8))
    (ip : Ip) : Int × Net η :=
  match arpCacheGet s ip with
  | some dstMac => (0, pingWait stack (e1000Send s (pingFrame s dstMac ip)) replies)
  | none =>
    match netArpRequest stack s ip arrivals with
    | (false, s) => (-1, s)
    | (true, s) =>
      match arpCacheGet s ip with
      | some dstMac => (0, pingWait stack (e1000Send s (pingFrame s dstMac ip)) replies)
      | none => (-1, s)

/-- The address of the gateway, which never answers ARP, and after it its MAC. -/
def gateway : Mem := fun i => [10, 0, 2, 2, 0x52, 0x55, 0x0a, 0x00, 0x02, 0x02].getD i 0

/-- `net_init` on a card with this MAC; `null` is the handler of a cleared entry. -/
def netInit (s : Net η) (mac : Mac) (null : η) : Net η :=
  let s := { s with arpCache := fun _ => ⟨fun _ => 0, fun _ => 0, false⟩, udpHandlers := fun _ => ⟨0, null, false⟩ }
  (arpCacheSet { s with myMac := mac } gateway 0 4).val

end BaSic.Kernel
