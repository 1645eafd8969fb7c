import BaSic.Lib.Soup
import BaSic.Proofs.ArpCache
import BaSic.Proofs.UdpRoundTrip

namespace BaSic.Proofs.Ethernet
open Kernel Lib NetBounds ArpCache Checksum UdpRoundTrip

/-- What a host does without a poll in between: between two of these the others may act. -/
inductive HostAct (η : Type) where
  | poll (stack : Stack) (frames : List (List UInt8))
  | request (ip : Ip)
  | udp (dstIp : Ip) (dstPort srcPort : UInt16) (data : List UInt8)
  | ping (ip : Ip)
  | register (port : UInt16) (handler : η)

variable {ι η : Type} {s t : Net η} {stack : Stack} {ip : Ip}

def HostAct.frames : HostAct η → List (List UInt8)
  | .poll _ frames => frames
  | _ => []

/-- What goes to an address is sent once the cache knows it. -/
def act (s : Net η) : HostAct η → Net η
  | .poll stack frames => netPoll stack s stack.buf frames
  | .request ip => requested s ip
  | .udp dstIp dstPort srcPort data =>
    match arpCacheGet s dstIp with
    | some dstMac => if data.length ≤ udpMaxPayload then e1000Send s (udpFrame s dstMac dstIp dstPort srcPort data) else s
    | none => s
  | .ping ip =>
    match arpCacheGet s ip with
    | some dstMac => e1000Send s (pingFrame s dstMac ip)
    | none => s
  | .register port handler => netUdpRegister s port handler

theorem act_udp (s : Net η) (dstIp : Ip) (dst src : UInt16) (data : List UInt8) :
    act s (.udp dstIp dst src data) = match arpCacheGet s dstIp with
      | some dstMac => if data.length ≤ udpMaxPayload then e1000Send s (udpFrame s dstMac dstIp dst src data) else s
      | none => s := rfl

theorem act_ping (s : Net η) (ip : Ip) : act s (.ping ip) = match arpCacheGet s ip with
    | some dstMac => e1000Send s (pingFrame s dstMac ip)
    | none => s := rfl

/-- The state is reached by acts that take nothing but these frames. -/
def ActsTo (arrivals : List (List UInt8)) (s t : Net η) : Prop :=
  ∃ acts : List (HostAct η), acts.foldl act s = t ∧ ∀ a ∈ acts, ∀ frame ∈ a.frames, frame ∈ arrivals

theorem ActsTo.refl (arrivals : List (List UInt8)) (s : Net η) : ActsTo arrivals s s :=
  ⟨[], rfl, fun _ h => absurd h List.not_mem_nil⟩

theorem ActsTo.step {arrivals : List (List UInt8)} (h : ActsTo arrivals s t) (a : HostAct η)
    (ha : ∀ frame ∈ a.frames, frame ∈ arrivals) : ActsTo arrivals s (act t a) := by
  obtain ⟨acts, rfl, hacts⟩ := h
  refine ⟨acts ++ [a], by simp, ?_⟩
  simpa [or_imp, forall_and] using ⟨hacts, ha⟩

theorem ActsTo.polls {arrivals : List (List UInt8)} (h : ActsTo arrivals s t) (stack : Stack)
    {rounds : List (List (List UInt8))} (hrounds : ∀ frames ∈ rounds, frames ⊆ arrivals) :
    ActsTo arrivals s (polled stack t rounds) := by
  induction rounds generalizing t with
  | nil => exact h
  | cons frames rounds ih =>
    obtain ⟨hframes, hrest⟩ := List.forall_mem_cons.mp hrounds
    exact ih (h.step (.poll stack frames) hframes) hrest

theorem arp_wait_polled (stack : Stack) (ip : Ip) (s : Net η) (rounds : List (List (List UInt8))) :
    ∃ k, (arpWait stack ip s rounds).2 = polled stack s (rounds.take k) := by
  induction rounds generalizing s with
  | nil => exact ⟨0, rfl⟩
  | cons frames rounds ih =>
    unfold arpWait
    dsimp only
    split
    · exact ⟨1, rfl⟩
    · obtain ⟨k, hk⟩ := ih (netPoll stack s stack.buf frames)
      exact ⟨k + 1, hk⟩

variable {arrivals : Fin 50 → List (List UInt8)}

theorem net_arp_request_acts (stack : Stack) (s : Net η) (ip : Ip) (arrivals : Fin 50 → List (List UInt8)) :
    ActsTo (List.ofFn arrivals).flatten s (netArpRequest stack s ip arrivals).2 := by
  obtain ⟨k, hk⟩ := arp_wait_polled stack ip (requested s ip) (List.ofFn arrivals)
  have hrun : (netArpRequest stack s ip arrivals).2 = _ := hk
  rw [hrun]
  apply ((ActsTo.refl _ s).step (.request ip) (fun _ h => absurd h List.not_mem_nil)).polls
  exact fun frames hframes _ h => List.mem_flatten_of_mem (List.mem_of_mem_take hframes) h

/-- `net_udp_send` is a sequence of acts. -/
theorem net_udp_send_acts (stack : Stack) (s : Net η) (arrivals : Fin 50 → List (List UInt8)) (dstIp : Ip)
    (dst src : UInt16) (data : List UInt8) :
    ActsTo (List.ofFn arrivals).flatten s (netUdpSend stack s arrivals dstIp dst src data).2 := by
  have hsend : ∀ {t : Net η} {dstMac : Mac}, ActsTo (List.ofFn arrivals).flatten s t → arpCacheGet t dstIp = some dstMac →
      data.length ≤ udpMaxPayload → ActsTo (List.ofFn arrivals).flatten s (e1000Send t (udpFrame t dstMac dstIp dst src data)) := by
    intro t dstMac ht hmac hdata
    have hstep := ht.step (.udp dstIp dst src data) (fun _ h => absurd h List.not_mem_nil)
    simpa [act, hmac, hdata] using hstep
  have hrequest := net_arp_request_acts stack s dstIp arrivals
  unfold netUdpSend
  split
  · exact .refl _ s
  · rename_i hdata
    have hdata := Nat.le_of_not_lt hdata
    split
    · rename_i dstMac hmac
      exact hsend (.refl _ s) hmac hdata
    · split
      · rename_i t hfail
        rw [hfail] at hrequest
        exact hrequest
      · rename_i t hdone
        rw [hdone] at hrequest
        split
        · rename_i dstMac hmac
          exact hsend hrequest hmac hdata
        · exact hrequest

/-- `net_ping` is a sequence of acts. -/
theorem net_ping_acts (stack : Stack) (s : Net η) (arrivals : Fin 50 → List (List UInt8))
    (replies : Fin 100 → List (List UInt8)) (ip : Ip) :
    ActsTo ((List.ofFn arrivals).flatten ++ (List.ofFn replies).flatten) s (netPing stack s arrivals replies ip).2 := by
  have hsend : ∀ {t : Net η} {dstMac : Mac},
      ActsTo ((List.ofFn arrivals).flatten ++ (List.ofFn replies).flatten) s t → arpCacheGet t ip = some dstMac →
      ActsTo ((List.ofFn arrivals).flatten ++ (List.ofFn replies).flatten) s
        (pingWait stack (e1000Send t (pingFrame t dstMac ip)) replies) := by
    intro t dstMac ht hmac
    have hstep := ht.step (.ping ip) (fun _ h => absurd h List.not_mem_nil)
    have hsent : act t (.ping ip) = e1000Send t (pingFrame t dstMac ip) := by simp [act, hmac]
    rw [hsent] at hstep
    apply hstep.polls stack
    exact fun frames hframes _ h => List.mem_append_right _ (List.mem_flatten_of_mem hframes h)
  have hrequest : ActsTo ((List.ofFn arrivals).flatten ++ (List.ofFn replies).flatten) s
      (netArpRequest stack s ip arrivals).2 := by
    obtain ⟨acts, hrun, hacts⟩ := net_arp_request_acts stack s ip arrivals
    exact ⟨acts, hrun, fun a ha frame h => List.mem_append_left _ (hacts a ha frame h)⟩
  unfold netPing
  split
  · rename_i dstMac hmac
    exact hsend (.refl _ s) hmac
  · split
    · rename_i t hfail
      rw [hfail] at hrequest
      exact hrequest
    · rename_i t hdone
      rw [hdone] at hrequest
      split
      · rename_i dstMac hmac
        exact hsend hrequest hmac
      · exact hrequest

variable {m pkt : Mem} {frame : List UInt8} {len : UInt16}

theorem arp_cache_set_only (s : Net η) (m : Mem) (ip mac : Nat) :
    ∃ cache, (arpCacheSet s m ip mac).val = { s with arpCache := cache } := by
  unfold arpCacheSet
  rw [bind_val]
  split
  · exact ⟨_, rfl⟩
  · split
    · exact ⟨_, rfl⟩
    · exact ⟨s.arpCache, rfl⟩

/-- The answer to a request in the buffer. -/
def arpAnswer (s : Net η) (pkt : Mem) : List UInt8 :=
  ethHdr (macAt pkt 6) s.myMac ethTypeArp ++ arpPkt arpReply s.myMac s.myIp (senderMac pkt) (senderIp pkt)

theorem handle_arp_cases (s : Net η) (pkt : Mem) :
    ∃ cache, (handleArp s pkt).val = { s with arpCache := cache } ∨
      (handleArp s pkt).val = e1000Send { s with arpCache := cache } (arpAnswer s pkt) := by
  obtain ⟨cache, hcache⟩ := arp_cache_set_only s pkt 28 22
  refine ⟨cache, ?_⟩
  unfold handleArp
  rw [bind_val, bind_val, hcache]
  split
  · exact Or.inl rfl
  · rw [bind_val]
    split
    · exact Or.inl rfl
    · exact Or.inr rfl

/-- A reply is as long as the request was, repeats its bytes between the addresses, and is none
to be replied to. -/
structure EchoOf (pkt : Mem) (len : UInt16) (reply : List UInt8) : Prop where
  length : reply.length = min len.toNat 1500
  middle : ∀ i, 12 ≤ i → i < 24 → i < reply.length → reply[i]? = some (pkt i)
  type : 34 < reply.length → reply[34]? = some icmpEchoRep

theorem handle_icmp_cases (stack : Stack) (s : Net η) (pkt : Mem) (len : UInt16) :
    (handleIcmp stack s pkt len).val = s ∨
      ∃ reply, (handleIcmp stack s pkt len).val = e1000Send s reply ∧ EchoOf pkt len reply := by
  unfold handleIcmp
  rw [bind_val]
  split
  · exact Or.inl rfl
  · refine Or.inr ⟨_, rfl, ?_⟩
    have hmin : (if len > 1500 then 1500 else len).toNat = min len.toNat 1500 := by
      split
      · rename_i h
        have hlt : (1500 : UInt16).toNat < len.toNat := h
        have hnum : (1500 : UInt16).toNat = 1500 := rfl
        omega
      · rename_i h
        have hle : ¬ (1500 : UInt16).toNat < len.toNat := h
        have hnum : (1500 : UInt16).toNat = 1500 := rfl
        omega
    generalize hn : (if len > 1500 then 1500 else len) = n at *
    refine ⟨?_, fun i hlo hhi hi => ?_, fun hi => ?_⟩
    · simpa using hmin
    · simp only [List.length_map, List.length_range] at hi
      rw [List.getElem?_map, List.getElem?_range hi]
      simp only [Option.map_some, Option.some.injEq]
      rw [store_bytes_outside, store_bytes_outside, store_bytes_outside, store_bytes_outside, store_bytes_outside,
        store_bytes_outside, store_bytes_outside, store_bytes_outside, store_bytes_outside]
      · have hcopy := store_bytes_holds stack.reply 0 (List.ofFn (readCells pkt 0 n.toNat).val) i (by simpa using hi)
        simpa using hcopy
      all_goals simp [u16Bytes]
      all_goals omega
    · simp only [List.length_map, List.length_range] at hi
      rw [List.getElem?_map, List.getElem?_range hi]
      simp only [Option.map_some, Option.some.injEq]
      rw [store_bytes_outside (Or.inl (by omega)), store_bytes_outside (Or.inl (by omega))]
      exact store_bytes_holds _ 34 [icmpEchoRep] 0 Nat.one_pos

/-- The frame in the buffer is a UDP message. -/
def IsUdp (m : Mem) : Prop := frameType m = ethTypeIp ∧ m 23 = ipProtoUdp

/-- A handler of the port is called with what the buffer holds. -/
structure CallOf (s : Net η) (pkt : Mem) (len : UInt16) (c : UdpCall η) : Prop where
  udp : IsUdp pkt
  mine : addr pkt 30 = s.myIp
  fits : payLen pkt ≤ len
  handler : ∃ i, (s.udpHandlers i).used = true ∧ (s.udpHandlers i).port = dstPort pkt ∧
    c.handler = (s.udpHandlers i).handler
  len : c.len = payLen pkt
  data : c.data = List.ofFn (readCells pkt 42 (payLen pkt).toNat).val
  srcIp : c.srcIp = addr pkt 26
  srcPort : c.srcPort = srcPort pkt

theorem handle_udp_cases (hudp : IsUdp pkt) (hmine : addr pkt 30 = s.myIp) (len : UInt16) :
    (handleUdp s pkt len).val = s ∨
      ∃ c, (handleUdp s pkt len).val = { s with calls := s.calls ++ [c] } ∧ CallOf s pkt len c := by
  unfold handleUdp
  simp only [bind_val]
  split
  · exact Or.inl rfl
  · rename_i hfits
    split
    · rename_i i hfirst
      obtain ⟨hused, hport⟩ := Bool.and_eq_true_iff.mp (Fin.find?_eq_some_iff.mp hfirst).1
      exact Or.inr ⟨_, rfl, hudp, hmine, UInt16.not_lt.mp hfits, ⟨i, hused, of_decide_eq_true hport, rfl⟩, rfl, rfl, rfl, rfl⟩
    · exact Or.inl rfl

/-- What a frame can do to a host: the sender of an ARP packet is stored and may be answered,
a ping is answered, a datagram is handed on, or nothing happens. -/
inductive FrameOutcome (s : Net η) (pkt : Mem) (len : UInt16) : Net η → Prop where
  | arp (cache : Fin 8 → ArpEntry) (htype : frameType pkt = ethTypeArp)
      (hstore : slots { s with arpCache := cache } = (slots s).store (senderIp pkt) (senderMac pkt)) :
      FrameOutcome s pkt len { s with arpCache := cache }
  | arpAnswered (cache : Fin 8 → ArpEntry) (htype : frameType pkt = ethTypeArp)
      (hstore : slots { s with arpCache := cache } = (slots s).store (senderIp pkt) (senderMac pkt)) :
      FrameOutcome s pkt len (e1000Send { s with arpCache := cache } (arpAnswer s pkt))
  | pinged (reply : List UInt8) (htype : frameType pkt = ethTypeIp) (hproto : pkt 23 = ipProtoIcmp)
      (hreply : EchoOf pkt len reply) : FrameOutcome s pkt len (e1000Send s reply)
  | called (c : UdpCall η) (hcall : CallOf s pkt len c) : FrameOutcome s pkt len { s with calls := s.calls ++ [c] }
  | none : FrameOutcome s pkt len s

theorem handle_ip_outcome (stack : Stack) (s : Net η) (htype : frameType pkt = ethTypeIp) (len : UInt16) :
    FrameOutcome s pkt len (handleIp stack s pkt len).val := by
  by_cases hmine : addr pkt 30 = s.myIp
  · by_cases hudp : pkt 23 = ipProtoUdp
    · rw [handle_ip_udp stack len hmine hudp]
      rcases handle_udp_cases ⟨htype, hudp⟩ hmine len with hsame | ⟨c, hrun, hcall⟩
      · rw [hsame]
        exact .none
      · rw [hrun]
        exact .called c hcall
    · unfold handleIp
      rw [bind_val, compare_addr.mpr hmine, Bool.not_true, if_neg Bool.false_ne_true, bind_val, read_cell_val]
      by_cases hicmp : pkt 23 = ipProtoIcmp
      · rw [if_pos hicmp, bind_val, bind_val, read_cell_val, if_neg hudp, pure_val]
        rcases handle_icmp_cases stack s pkt len with hsame | ⟨reply, hrun, hreply⟩
        · rw [hsame]
          exact .none
        · rw [hrun]
          exact .pinged reply htype hicmp hreply
      · rw [if_neg hicmp, bind_val, bind_val, read_cell_val, if_neg hudp]
        exact .none
  · unfold handleIp
    rw [bind_val, compare_addr_ne hmine, Bool.not_false, if_pos rfl, pure_val]
    exact .none

theorem handle_frame_outcome (stack : Stack) (s : Net η) (pkt : Mem) (len : UInt16) :
    FrameOutcome s pkt len (handleFrame stack s pkt len).val := by
  unfold handleFrame
  split
  · rename_i htype
    have hslots := handle_arp_slots s pkt
    obtain ⟨cache, hrun | hrun⟩ := handle_arp_cases s pkt
    · rw [hrun] at hslots ⊢
      exact .arp cache htype hslots
    · rw [hrun] at hslots ⊢
      exact .arpAnswered cache htype hslots
  · split
    · rename_i htype
      exact handle_ip_outcome stack s htype len
    · exact .none

/-- A UDP message from one address to another. -/
structure Datagram where
  srcIp : Ip
  dstIp : Ip
  srcPort : UInt16
  dstPort : UInt16
  data : List UInt8

/-- The memory starts with the frame, as far as `net_poll` takes it. -/
def Received (m : Mem) (frame : List UInt8) : Prop := HoldsBytes m 0 (frame.take 1500)

/-- The fields are those of the datagram. -/
structure Carries (m : Mem) (d : Datagram) : Prop where
  srcIp : addr m 26 = d.srcIp
  dstIp : addr m 30 = d.dstIp
  srcPort : srcPort m = d.srcPort
  dstPort : dstPort m = d.dstPort
  len : (payLen m).toNat = d.data.length
  data : HoldsBytes m 42 d.data

/-- The frame has all of the datagram in it. -/
def Says (frame : List UInt8) (d : Datagram) : Prop := ∀ m, Received m frame → Carries m d

/-- A datagram or a ping: what is sent to the MAC of an address. -/
def Directed (m : Mem) : Prop := IsUdp m ∨ frameType m = ethTypeIp ∧ m 23 = ipProtoIcmp ∧ m 34 = icmpEchoReq

/-- A device that runs other code says the truth about who owns an address, and does not send
datagrams in part. -/
structure HonestFrame (owner : Ip → Mac → Prop) (frame : List UInt8) : Prop where
  whole : 42 ≤ frame.length
  arp : ∀ m, Received m frame → frameType m = ethTypeArp → owner (senderIp m) (senderMac m)
  udp : ∀ m, Received m frame → IsUdp m → ∃ d, Says frame d

/-- Hosts and devices on one Ethernet; the link may append to a frame. -/
def ether (owner : Ip → Mac → Prop) : SoupRules (Net η) (HostAct η) (List UInt8) where
  act := act
  sent := Net.sent
  takes := HostAct.frames
  arrives frame received := frame <+: received
  honest := HonestFrame owner

def clearedNet (ip : Ip) (null : η) : Net η :=
  ⟨fun _ => 0, ip, fun _ => ⟨fun _ => 0, fun _ => 0, false⟩, fun _ => ⟨0, null, false⟩, [], []⟩

/-- The hosts when all have called `net_init`. -/
def started (ips : ι → Ip) (macs : ι → Mac) (null : η) : Soup ι (Net η) (List UInt8) :=
  ⟨fun i => netInit (clearedNet (ips i) null) (macs i) null, []⟩

abbrev EtherEvent (ι η : Type) := SoupEvent ι (HostAct η) (List UInt8)

/-- The event is the call that is to send the datagram, which goes out if the cache has the
address and the data fits, or the datagram itself, from another device. -/
def Sends (ips : ι → Ip) : EtherEvent ι η → Datagram → Prop
  | .act i (.udp dstIp dstPort srcPort data), d => d = ⟨ips i, dstIp, srcPort, dstPort, data⟩
  | .other frame, d => Says frame d
  | _, _ => False

/-- The handler had been registered for the port of a datagram for this host that had been sent. -/
def Genuine (ips : ι → Ip) (past : List (EtherEvent ι η × Unit)) (i : ι) (c : UdpCall η) : Prop :=
  ∃ d e, (e, ()) ∈ past ∧ Sends ips e d ∧ d.dstIp = ips i ∧ c.data = d.data ∧ c.len.toNat = d.data.length ∧
    c.srcIp = d.srcIp ∧ c.srcPort = d.srcPort ∧ (.act i (.register d.dstPort c.handler), ()) ∈ past

/-- What holds of every frame on the wire. -/
structure Trusted (owner : Ip → Mac → Prop) (ips : ι → Ip) (past : List (EtherEvent ι η × Unit)) (frame : List UInt8) :
    Prop where
  whole : 42 ≤ frame.length
  arp : ∀ m, Received m frame → frameType m = ethTypeArp → owner (senderIp m) (senderMac m)
  udp : ∀ m, Received m frame → IsUdp m → ∃ d e, (e, ()) ∈ past ∧ Sends ips e d ∧ Says frame d

/-- What holds of every host. -/
structure Decent (owner : Ip → Mac → Prop) (ips : ι → Ip) (macs : ι → Mac) (past : List (EtherEvent ι η × Unit)) (i : ι)
    (s : Net η) : Prop where
  ip : s.myIp = ips i
  mac : s.myMac = macs i
  cache : ∀ k a v, slots s k = some (a, v) → owner a v
  handlers : ∀ k, (s.udpHandlers k).used = true →
    (.act i (.register (s.udpHandlers k).port (s.udpHandlers k).handler), ()) ∈ past
  calls : ∀ c ∈ s.calls, Genuine ips past i c
  directed : ∀ frame ∈ s.sent, ∀ m, Received m frame → Directed m → owner (addr m 30) (macAt m 0)

section Invariant
variable {owner : Ip → Mac → Prop} {ips : ι → Ip} {macs : ι → Mac} {past : List (EtherEvent ι η × Unit)} {i : ι}

theorem Genuine.grows {c : UdpCall η} (h : Genuine ips past i c) (e : EtherEvent ι η × Unit) :
    Genuine ips (past ++ [e]) i c := by
  obtain ⟨d, e', he, hsends, hmine, hdata, hlen, hip, hport, hreg⟩ := h
  exact ⟨d, e', List.mem_append_left _ he, hsends, hmine, hdata, hlen, hip, hport, List.mem_append_left _ hreg⟩

theorem Trusted.lasts (h : Trusted owner ips past frame) (e : EtherEvent ι η × Unit) :
    Trusted owner ips (past ++ [e]) frame where
  whole := h.whole
  arp := h.arp
  udp m hm hudp := by
    obtain ⟨d, e', he, hsends, hreads⟩ := h.udp m hm hudp
    exact ⟨d, e', List.mem_append_left _ he, hsends, hreads⟩

theorem Decent.grows (h : Decent owner ips macs past i s) (e : EtherEvent ι η × Unit) :
    Decent owner ips macs (past ++ [e]) i s where
  ip := h.ip
  mac := h.mac
  cache := h.cache
  handlers k hk := List.mem_append_left _ (h.handlers k hk)
  calls c hc := (h.calls c hc).grows e
  directed := h.directed

theorem HonestFrame.trusted (h : HonestFrame owner frame) :
    Trusted owner ips (past ++ [((.other frame : EtherEvent ι η), ())]) frame where
  whole := h.whole
  arp := h.arp
  udp m hm hudp := by
    obtain ⟨d, hd⟩ := h.udp m hm hudp
    exact ⟨d, .other frame, by simp, hd, hd⟩

/-- What is appended on the link changes nothing that was received. -/
theorem received_prefix {received : List UInt8} (hm : Received m received) (h : frame <+: received) :
    Received m frame := by
  obtain ⟨after, hafter⟩ := h.take 1500
  unfold Received at hm
  rw [← hafter, holds_bytes_append] at hm
  exact hm.1

theorem received_short (hm : Received m frame) (h : frame.length ≤ 1500) : HoldsBytes m 0 frame := by
  unfold Received at hm
  rwa [List.take_of_length_le h] at hm

theorem mac_holds {base : Nat} {v : Mac} (h : HoldsBytes m base (List.ofFn v)) : macAt m base = v := by
  funext j
  have hj := h j (by simp)
  rwa [List.getElem_ofFn] at hj

theorem arp_frame_length (dst src sha tha : Mac) (op : UInt16) (spa tpa : Ip) :
    (ethHdr dst src ethTypeArp ++ arpPkt op sha spa tha tpa).length = 42 := by
  simp [eth_hdr_length, arpPkt, u16Bytes]

theorem arp_frame_holds {dst src sha tha : Mac} {op : UInt16} {spa tpa : Ip}
    (h : HoldsBytes m 0 (ethHdr dst src ethTypeArp ++ arpPkt op sha spa tha tpa)) :
    frameType m = ethTypeArp ∧ senderMac m = sha ∧ senderIp m = spa := by
  unfold arpPkt at h
  simp only [holds_bytes_append, eth_hdr_length] at h
  obtain ⟨heth, ⟨⟨⟨-, hsha⟩, hspa⟩, -⟩, -⟩ := h
  exact ⟨eth_hdr_holds heth, mac_holds hsha, addr_holds hspa⟩

/-- An ARP packet of the host itself. -/
theorem trusted_arp (past : List (EtherEvent ι η × Unit)) (ips : ι → Ip) (dst src tha : Mac) (op : UInt16) (tpa : Ip)
    {a : Ip} {v : Mac} (hown : owner a v) :
    Trusted owner ips past (ethHdr dst src ethTypeArp ++ arpPkt op v a tha tpa) ∧
      ∀ m, Received m (ethHdr dst src ethTypeArp ++ arpPkt op v a tha tpa) → ¬ Directed m := by
  have hlen := arp_frame_length dst src v tha op a tpa
  have htype : ∀ m, Received m (ethHdr dst src ethTypeArp ++ arpPkt op v a tha tpa) →
      frameType m = ethTypeArp ∧ senderMac m = v ∧ senderIp m = a :=
    fun m hm => arp_frame_holds (received_short hm (by omega))
  have hnot : ∀ m, Received m (ethHdr dst src ethTypeArp ++ arpPkt op v a tha tpa) → frameType m ≠ ethTypeIp := by
    intro m hm hip
    have harp := (htype m hm).1
    rw [hip] at harp
    exact absurd harp (by decide)
  refine ⟨⟨by omega, ?_, ?_⟩, ?_⟩
  · intro m hm _
    obtain ⟨-, hmac, hip⟩ := htype m hm
    rwa [hmac, hip]
  · exact fun m hm hudp => absurd hudp.1 (hnot m hm)
  · rintro m hm (hudp | hicmp)
    · exact hnot m hm hudp.1
    · exact hnot m hm hicmp.1

/-- A datagram of the host itself, sent to a MAC of the address. -/
theorem trusted_udp (past : List (EtherEvent ι η × Unit)) {dstIp : Ip} {dstMac : Mac} (dst src : UInt16)
    {data : List UInt8} (hip : s.myIp = ips i) (hown : owner dstIp dstMac) (hdata : data.length ≤ udpMaxPayload) :
    Trusted owner ips (past ++ [(.act i (.udp dstIp dst src data), ())]) (udpFrame s dstMac dstIp dst src data) ∧
      ∀ m, Received m (udpFrame s dstMac dstIp dst src data) → owner (addr m 30) (macAt m 0) := by
  have hsmall : data.length ≤ 512 := hdata
  have hlen := udp_frame_length s dstMac dstIp dst src data
  have hholds : ∀ m, Received m (udpFrame s dstMac dstIp dst src data) →
      HoldsBytes m 0 (udpFrame s dstMac dstIp dst src data ++ []) := by
    intro m hm
    rw [List.append_nil]
    exact received_short hm (by omega)
  have hreads : Says (udpFrame s dstMac dstIp dst src data) ⟨ips i, dstIp, src, dst, data⟩ := by
    intro m hm
    obtain ⟨-, -, hsrcIp, hdstIp, hsrc, hdst, hpay, hpayload⟩ := udp_frame_holds (hholds m hm)
    refine ⟨hsrcIp.trans hip, hdstIp, hsrc, hdst, ?_, hpayload⟩
    rw [hpay, UInt16.add_comm, UInt16.add_sub_cancel]
    exact UInt16.toNat_ofNat_of_lt' (Nat.lt_of_le_of_lt hdata (by decide))
  refine ⟨⟨by omega, ?_, ?_⟩, ?_⟩
  · intro m hm harp
    have htype := (udp_frame_holds (hholds m hm)).1
    rw [harp] at htype
    exact absurd htype (by decide)
  · exact fun m hm _ => ⟨_, .act i (.udp dstIp dst src data), by simp, rfl, hreads⟩
  · intro m hm
    have hmac : macAt m 0 = dstMac := by
      have hholds := hholds m hm
      unfold udpFrame ethHdr at hholds
      simp only [holds_bytes_append] at hholds
      exact mac_holds hholds.1.1.1.1.1.1
    have haddr : addr m 30 = dstIp := (hreads m hm).dstIp
    rwa [hmac, haddr]

theorem ping_frame_length (s : Net η) (dstMac : Mac) (ip : Ip) : (pingFrame s dstMac ip).length = 74 := by
  simp [pingFrame, pingEcho, icmpHdr, u16Bytes, eth_hdr_length, ip_hdr_summed_length]

theorem trusted_ping (past : List (EtherEvent ι η × Unit)) (ips : ι → Ip) (s : Net η) {dstMac : Mac} (hown : owner ip dstMac) :
    Trusted owner ips past (pingFrame s dstMac ip) ∧
      ∀ m, Received m (pingFrame s dstMac ip) → owner (addr m 30) (macAt m 0) := by
  have hlen := ping_frame_length s dstMac ip
  have hfields : ∀ m, Received m (pingFrame s dstMac ip) →
      frameType m = ethTypeIp ∧ m 23 = ipProtoIcmp ∧ addr m 30 = ip ∧ macAt m 0 = dstMac := by
    intro m hm
    have hholds := received_short hm (by omega)
    unfold pingFrame at hholds
    simp only [holds_bytes_append, eth_hdr_length] at hholds
    obtain ⟨⟨heth, hip⟩, -⟩ := hholds
    obtain ⟨hproto, -, hdst⟩ := ip_hdr_holds hip
    have htype := eth_hdr_holds heth
    unfold ethHdr at heth
    simp only [holds_bytes_append] at heth
    exact ⟨htype, hproto, hdst, mac_holds heth.1.1⟩
  refine ⟨⟨by omega, ?_, ?_⟩, ?_⟩
  · intro m hm harp
    have htype := (hfields m hm).1
    rw [harp] at htype
    exact absurd htype (by decide)
  · intro m hm hudp
    have hproto := (hfields m hm).2.1
    rw [hudp.2] at hproto
    exact absurd hproto (by decide)
  · intro m hm
    obtain ⟨-, -, haddr, hmac⟩ := hfields m hm
    rwa [haddr, hmac]

/-- The reply to a ping is neither an ARP packet nor a datagram, nor one more ping. -/
theorem trusted_echo {reply : List UInt8} (hreply : EchoOf pkt len reply) (htype : frameType pkt = ethTypeIp)
    (hproto : pkt 23 = ipProtoIcmp) (hlen : 42 ≤ len.toNat) :
    Trusted owner ips past reply ∧ ∀ m, Received m reply → ¬ Directed m := by
  have hcount := hreply.length
  have hcell : ∀ m, Received m reply → ∀ i, 12 ≤ i → i < 24 → m i = pkt i := by
    intro m hm i hlo hhi
    have hbyte := received_short hm (by omega) i (by omega)
    have hmiddle := hreply.middle i hlo hhi (by omega)
    rw [List.getElem?_eq_getElem (by omega), Option.some.injEq] at hmiddle
    rw [← hmiddle, ← hbyte, Nat.zero_add]
  have hip : ∀ m, Received m reply → frameType m = ethTypeIp := by
    intro m hm
    rw [← htype]
    unfold frameType loadU16
    simp only [bind_val, read_cell_val, pure_val, hcell m hm 12 (by omega) (by omega), hcell m hm 13 (by omega) (by omega)]
  have hicmp : ∀ m, Received m reply → m 23 = ipProtoIcmp :=
    fun m hm => (hcell m hm 23 (by omega) (by omega)).trans hproto
  have hudp : ∀ m, Received m reply → ¬ IsUdp m := by
    intro m hm h
    have hboth := (hicmp m hm).symm.trans h.2
    exact absurd hboth (by decide)
  refine ⟨⟨by omega, ?_, fun m hm h => absurd h (hudp m hm)⟩, ?_⟩
  · intro m hm harp
    have hboth := (hip m hm).symm.trans harp
    exact absurd hboth (by decide)
  · rintro m hm (h | ⟨-, -, hreq⟩)
    · exact hudp m hm h
    · have hbyte := received_short hm (by omega) 34 (by omega)
      have hzero := hreply.type (by omega)
      rw [List.getElem?_eq_getElem (by omega), Option.some.injEq] at hzero
      rw [Nat.zero_add, hzero, hreq] at hbyte
      exact absurd hbyte (by decide)

/-- The host, and what it has sent. -/
def Upright (owner : Ip → Mac → Prop) (ips : ι → Ip) (macs : ι → Mac) (past : List (EtherEvent ι η × Unit)) (i : ι)
    (s : Net η) : Prop := Decent owner ips macs past i s ∧ ∀ frame ∈ s.sent, Trusted owner ips past frame

theorem Upright.grows (h : Upright owner ips macs past i s) (e : EtherEvent ι η × Unit) :
    Upright owner ips macs (past ++ [e]) i s := ⟨h.1.grows e, fun frame hf => (h.2 frame hf).lasts e⟩

theorem Upright.sends (h : Upright owner ips macs past i s) (hframe : Trusted owner ips past frame)
    (hdirected : ∀ m, Received m frame → Directed m → owner (addr m 30) (macAt m 0)) :
    Upright owner ips macs past i (e1000Send s frame) := by
  refine ⟨⟨h.1.ip, h.1.mac, h.1.cache, h.1.handlers, h.1.calls, ?_⟩, ?_⟩
  all_goals
    intro sent hsent
    rcases List.mem_append.mp hsent with hold | hnew
  · exact h.1.directed sent hold
  · rw [List.mem_singleton.mp hnew]
    exact hdirected
  · exact h.2 sent hold
  · rw [List.mem_singleton.mp hnew]
    exact hframe

/-- A store adds no other pair than the one given. -/
theorem store_pair {t : SlotTable 8 Ip Mac} {a b : Ip} {v x : Mac} {k : Fin 8} (h : t.store a v k = some (b, x)) :
    t k = some (b, x) ∨ b = a ∧ x = v := by
  rcases t.store_cases a v with ⟨j, -, hstore⟩ | ⟨-, -, hstore⟩
  · rw [hstore] at h
    by_cases hk : k = j
    · subst hk
      rw [SlotTable.write_self] at h
      cases h
      exact Or.inr ⟨rfl, rfl⟩
    · rw [SlotTable.write_ne hk] at h
      exact Or.inl h
  · rw [hstore] at h
    exact Or.inl h

theorem Upright.caches (h : Upright owner ips macs past i s) {cache : Fin 8 → ArpEntry} {a : Ip} {v : Mac}
    (hown : owner a v) (hstore : slots { s with arpCache := cache } = (slots s).store a v) :
    Upright owner ips macs past i { s with arpCache := cache } := by
  refine ⟨⟨h.1.ip, h.1.mac, fun k b x hk => ?_, h.1.handlers, h.1.calls, h.1.directed⟩, h.2⟩
  rw [hstore] at hk
  rcases store_pair hk with hold | ⟨rfl, rfl⟩
  · exact h.1.cache k b x hold
  · exact hown

theorem call_genuine (h : Decent owner ips macs past i s) (hframe : Trusted owner ips past frame) (hm : Received pkt frame)
    {c : UdpCall η} (hcall : CallOf s pkt len c) : Genuine ips past i c := by
  obtain ⟨d, e, he, hsends, hreads⟩ := hframe.udp pkt hm hcall.udp
  have hd := hreads pkt hm
  obtain ⟨k, hused, hport, hhandler⟩ := hcall.handler
  have hregistered := h.handlers k hused
  rw [hport, ← hhandler, hd.dstPort] at hregistered
  refine ⟨d, e, he, hsends, ?_, ?_, ?_, ?_, ?_, hregistered⟩
  · rw [← hd.dstIp, hcall.mine, h.ip]
  · rw [hcall.data, hd.len, read_cells_holds hd.data]
  · rw [hcall.len, hd.len]
  · rw [hcall.srcIp, hd.srcIp]
  · rw [hcall.srcPort, hd.srcPort]

/-- A frame that can be trusted leaves the host upright. -/
theorem Upright.handled (hown : ∀ i, owner (ips i) (macs i)) (h : Upright owner ips macs past i s)
    (hframe : Trusted owner ips past frame) (hm : Received pkt frame) (hlen : 42 ≤ len.toNat)
    (hout : FrameOutcome s pkt len t) : Upright owner ips macs past i t := by
  cases hout with
  | arp cache htype hstore => exact h.caches (hframe.arp pkt hm htype) hstore
  | arpAnswered cache htype hstore =>
    have hself : owner s.myIp s.myMac := by
      rw [h.1.ip, h.1.mac]
      exact hown i
    obtain ⟨htrusted, hnot⟩ := trusted_arp past ips (macAt pkt 6) s.myMac (senderMac pkt) arpReply (senderIp pkt) hself
    exact (h.caches (hframe.arp pkt hm htype) hstore).sends htrusted (fun m hm hd => absurd hd (hnot m hm))
  | pinged reply htype hproto hreply =>
    obtain ⟨htrusted, hnot⟩ := trusted_echo hreply htype hproto hlen
    exact h.sends htrusted (fun m hm hd => absurd hd (hnot m hm))
  | called c hcall =>
    refine ⟨⟨h.1.ip, h.1.mac, h.1.cache, h.1.handlers, fun c' hc' => ?_, h.1.directed⟩, h.2⟩
    rcases List.mem_append.mp hc' with hold | hnew
    · exact h.1.calls c' hold
    · rw [List.mem_singleton.mp hnew]
      exact call_genuine h.1 hframe hm hcall
  | none => exact h

theorem Upright.poll (hown : ∀ i, owner (ips i) (macs i)) (h : Upright owner ips macs past i s) (stack : Stack) (buf : Mem)
    {frames : List (List UInt8)} (hframes : ∀ received ∈ frames, ∃ frame, Trusted owner ips past frame ∧ frame <+: received) :
    Upright owner ips macs past i (netPoll stack s buf frames) := by
  induction frames generalizing s buf with
  | nil => exact h
  | cons received frames ih =>
    rw [List.forall_mem_cons] at hframes
    obtain ⟨⟨frame, htrusted, hprefix⟩, hrest⟩ := hframes
    have hwhole := htrusted.whole
    have hcount : 42 ≤ (received.take 1500).length := by
      have hlen := hprefix.length_le
      rw [List.length_take]
      omega
    have hmax := List.length_take_le 1500 received
    have hto : (UInt16.ofNat (received.take 1500).length).toNat = (received.take 1500).length :=
      UInt16.toNat_ofNat_of_lt' (Nat.lt_of_le_of_lt hmax (by decide))
    rw [netPoll]
    dsimp only
    rw [if_pos (by omega)]
    apply ih _ _ hrest
    have hm := received_prefix (store_bytes_holds buf 0 (received.take 1500)) hprefix
    exact h.handled hown htrusted hm (by omega) (handle_frame_outcome stack s _ _)

theorem looked_up {a : Ip} {v : Mac} (h : Decent owner ips macs past i s) (hget : arpCacheGet s a = some v) : owner a v := by
  rw [arp_cache_get_eq] at hget
  unfold SlotTable.lookup at hget
  cases hslot : (slots s).slotOf a with
  | none => simp [hslot] at hget
  | some k =>
    obtain ⟨x, hx⟩ := any_key (SlotTable.slot_of_some.mp hslot).1
    have hv : x = v := by simpa [hslot, hx] using hget
    subst hv
    exact h.cache k a x hx

/-- Every act of a host that takes trusted frames leaves it upright. -/
theorem Upright.acts (hown : ∀ i, owner (ips i) (macs i)) (h : Upright owner ips macs past i s) (a : HostAct η)
    (htaken : ∀ received ∈ a.frames, ∃ frame, Trusted owner ips past frame ∧ frame <+: received) :
    Upright owner ips macs (past ++ [(.act i a, ())]) i (act s a) := by
  cases a with
  | poll stack frames => exact (h.poll hown stack stack.buf htaken).grows _
  | request ip =>
    have hself : owner s.myIp s.myMac := by
      rw [h.1.ip, h.1.mac]
      exact hown i
    obtain ⟨htrusted, hnot⟩ := trusted_arp past ips bcast s.myMac (fun _ => 0) arpRequest ip hself
    exact (h.sends htrusted (fun m hm hd => absurd hd (hnot m hm))).grows _
  | udp dstIp dstPort srcPort data =>
    rw [act_udp]
    split
    · rename_i dstMac hmac
      split
      · rename_i hdata
        obtain ⟨htrusted, hdirected⟩ := trusted_udp past dstPort srcPort h.1.ip
          (looked_up h.1 hmac) hdata
        exact (h.grows _).sends htrusted (fun m hm _ => hdirected m hm)
      · exact h.grows _
    · exact h.grows _
  | ping ip =>
    rw [act_ping]
    split
    · rename_i dstMac hmac
      obtain ⟨htrusted, hdirected⟩ := trusted_ping past ips s (looked_up h.1 hmac)
      exact (h.sends htrusted (fun m hm _ => hdirected m hm)).grows _
    · exact h.grows _
  | register port handler =>
    have hgrown := h.grows (.act i (.register port handler), ())
    have hact : act s (.register port handler) = netUdpRegister s port handler := rfl
    rw [hact]
    unfold netUdpRegister
    split
    · rename_i k hk
      refine ⟨⟨hgrown.1.ip, hgrown.1.mac, hgrown.1.cache, fun j hj => ?_, hgrown.1.calls, hgrown.1.directed⟩, hgrown.2⟩
      by_cases hjk : j = k
      · subst hjk
        simp
      · simp only [Function.update_of_ne hjk] at hj ⊢
        exact hgrown.1.handlers j hj
    · exact hgrown

/-- The gateway's address and MAC. -/
def gatewayIp : Ip := addr gateway 0
def gatewayMac : Mac := macAt gateway 4

theorem started_slots (ips : ι → Ip) (macs : ι → Mac) (null : η) (i : ι) :
    slots ((started ips macs null).parties i) = SlotTable.store (fun _ => none) gatewayIp gatewayMac :=
  arp_cache_set_slots { clearedNet (ips i) null with myMac := macs i } gateway 0 4

theorem started_upright (macs : ι → Mac) (hgateway : owner gatewayIp gatewayMac) (null : η) (i : ι) :
    Upright owner ips macs [] i ((started ips macs null).parties i) := by
  have hboot : (started ips macs null).parties i =
      (arpCacheSet { clearedNet (ips i) null with myMac := macs i } gateway 0 4).val := rfl
  have hslots := started_slots ips macs null i
  obtain ⟨cache, hcache⟩ := arp_cache_set_only { clearedNet (ips i) null with myMac := macs i } gateway 0 4
  have hhost := hboot.trans hcache
  refine ⟨⟨?_, ?_, fun k a v hk => ?_, ?_, ?_, ?_⟩, ?_⟩
  · rw [hhost]
    rfl
  · rw [hhost]
  · rw [hslots] at hk
    rcases store_pair hk with hold | ⟨rfl, rfl⟩
    · cases hold
    · exact hgateway
  · rw [hhost]
    intro k hk
    cases hk
  · rw [hhost]
    intro c hc
    cases hc
  · rw [hhost]
    intro frame hframe
    cases hframe
  · rw [hhost]
    intro frame hframe
    cases hframe

theorem ether_invariant (hown : ∀ i, owner (ips i) (macs i)) :
    SoupInvariant (ether (η := η) owner) (Upright owner ips macs) (Trusted owner ips) where
  grows past e i s h := h.grows e
  lasts past e frame h := h.lasts e
  acts past i s a h hsent htaken := by
    have hacts := h.acts hown a htaken
    exact ⟨hacts, hacts.2⟩
  others past frame h := h.trusted

variable [DecidableEq ι] {null : η} {trace : List (EtherEvent ι η × Unit)} {w : Soup ι (Net η) (List UInt8)}

theorem run_upright (hown : ∀ i, owner (ips i) (macs i)) (hgateway : owner gatewayIp gatewayMac)
    (hrun : Steps (Soup.Step (ether owner)) (started ips macs null) trace w) (i : ι) :
    Upright owner ips macs trace i (w.parties i) := by
  have hnone : ∀ frame, (started ips macs null).Sent (ether owner) frame → Trusted owner ips ([] : List (EtherEvent ι η × Unit)) frame := by
    rintro frame (⟨j, hj⟩ | hother)
    · exact (started_upright macs hgateway null j).2 frame hj
    · cases hother
  exact (Soup.invariant (ether_invariant hown) hrun (started_upright macs hgateway null) hnone).1 i

/-- As long as the devices on the wire are honest, no cache of a host ever names a MAC that does
not own the address, however frames are delayed, lost, repeated and interleaved, and
every datagram or ping a host has sent went to a MAC that owns its destination. -/
theorem caches_name_owners (hown : ∀ i, owner (ips i) (macs i)) (hgateway : owner gatewayIp gatewayMac)
    (hrun : Steps (Soup.Step (ether owner)) (started ips macs null) trace w) (i : ι) :
    (∀ ip mac, arpCacheGet (w.parties i) ip = some mac → owner ip mac) ∧
      ∀ frame ∈ (w.parties i).sent, ∀ m, Received m frame → Directed m → owner (addr m 30) (macAt m 0) := by
  have hupright := run_upright hown hgateway hrun i
  exact ⟨fun ip mac h => looked_up hupright.1 h, hupright.1.directed⟩

/-- Whatever a handler has been called with is a datagram for its host and its port that some host
or device has sent, whole and unchanged, with the address and the port it came from. -/
theorem calls_are_genuine (hown : ∀ i, owner (ips i) (macs i)) (hgateway : owner gatewayIp gatewayMac)
    (hrun : Steps (Soup.Step (ether owner)) (started ips macs null) trace w) (i : ι) :
    ∀ c ∈ (w.parties i).calls, Genuine ips trace i c := (run_upright hown hgateway hrun i).1.calls

end Invariant

/-- Two hosts, the first of which has the address of the gateway. -/
def pairIps : Fin 2 → Ip := ![gatewayIp, ![10, 0, 2, 15]]
def pairMacs : Fin 2 → Mac := ![fun _ => 0x52, fun _ => 0x53]

def PairOwns (a : Ip) (v : Mac) : Prop := (∃ i, a = pairIps i ∧ v = pairMacs i) ∨ a = gatewayIp ∧ v = gatewayMac

/-- Two bytes that the second sends to a port of the first. -/
def greeting : List UInt8 :=
  udpFrame ((started pairIps pairMacs ()).parties 1) gatewayMac gatewayIp 7 9 [104, 105]

def greetingTrace : List (EtherEvent (Fin 2) Unit × Unit) :=
  [(.act 0 (.register 7 ()), ()), (.act 1 (.udp gatewayIp 7 9 [104, 105]), ()), (.act 0 (.poll zeroStack [greeting]), ())]

theorem greeting_run : ∃ w, Steps (Soup.Step (ether PairOwns)) (started pairIps pairMacs ()) greetingTrace w := by
  refine ⟨_, .cons (.act _ 0 _ ?_) (.cons (.act _ 1 _ ?_) (.cons (.act _ 0 _ ?_) (.nil _)))⟩
  · exact fun _ h => absurd h List.not_mem_nil
  · exact fun _ h => absurd h List.not_mem_nil
  · intro received hreceived
    rw [List.mem_singleton.mp hreceived]
    refine ⟨greeting, Or.inl ⟨1, ?_⟩, List.prefix_rfl⟩
    have hknown : arpCacheGet ((started pairIps pairMacs ()).parties 1) gatewayIp = some gatewayMac := by
      rw [arp_cache_get_eq, started_slots]
      exact SlotTable.lookup_store_iff.mpr (Or.inr (by decide))
    have hsent : act ((started pairIps pairMacs ()).parties 1) (.udp gatewayIp 7 9 [104, 105]) =
        e1000Send ((started pairIps pairMacs ()).parties 1) greeting := by
      rw [act_udp, hknown]
      rfl
    simp [ether, hsent, e1000Send]

theorem caches_name_owners_greeting : ∃ w, Steps (Soup.Step (ether PairOwns)) (started pairIps pairMacs ()) greetingTrace w ∧
    (∀ ip mac, arpCacheGet (w.parties 1) ip = some mac → PairOwns ip mac) ∧
      ∀ frame ∈ (w.parties 1).sent, ∀ m, Received m frame → Directed m → PairOwns (addr m 30) (macAt m 0) := by
  obtain ⟨w, hrun⟩ := greeting_run
  exact ⟨w, hrun, caches_name_owners (fun i => Or.inl ⟨i, rfl, rfl⟩) (Or.inr ⟨rfl, rfl⟩) hrun 1⟩

theorem calls_are_genuine_greeting : ∃ w, Steps (Soup.Step (ether PairOwns)) (started pairIps pairMacs ()) greetingTrace w ∧
    ∀ c ∈ (w.parties 0).calls, Genuine pairIps greetingTrace 0 c := by
  obtain ⟨w, hrun⟩ := greeting_run
  exact ⟨w, hrun, calls_are_genuine (fun i => Or.inl ⟨i, rfl, rfl⟩) (Or.inr ⟨rfl, rfl⟩) hrun 0⟩

section Resolution
variable {η' : Type} {sender : Net η} {receiver : Net η'}

/-- The request that a host sends for an address. -/
def requestFrame (s : Net η) (ip : Ip) : List UInt8 :=
  ethHdr bcast s.myMac ethTypeArp ++ arpPkt arpRequest s.myMac s.myIp (fun _ => 0) ip

/-- A request for the host's own address is answered. -/
theorem handle_arp_answers (hop : htons (loadU16 pkt 20).val = arpRequest) (hmine : addr pkt 38 = s.myIp) :
    ∃ cache, (handleArp s pkt).val = e1000Send { s with arpCache := cache } (arpAnswer s pkt) := by
  obtain ⟨cache, hcache⟩ := arp_cache_set_only s pkt 28 22
  refine ⟨cache, ?_⟩
  unfold handleArp
  rw [bind_val, bind_val, hcache, if_neg (not_not.mpr hop), bind_val, compare_addr.mpr hmine, Bool.not_true,
    if_neg Bool.false_ne_true]
  rfl

theorem request_holds {ip : Ip} (h : HoldsBytes m 0 (requestFrame s ip)) :
    frameType m = ethTypeArp ∧ htons (loadU16 m 20).val = arpRequest ∧ addr m 38 = ip ∧ senderMac m = s.myMac ∧
      senderIp m = s.myIp := by
  obtain ⟨htype, hmac, haddr⟩ := arp_frame_holds h
  unfold requestFrame arpPkt at h
  simp only [holds_bytes_append, eth_hdr_length] at h
  obtain ⟨-, ⟨⟨⟨⟨-, hop⟩, -⟩, -⟩, -⟩, htpa⟩ := h
  have hop : (loadU16 m 20).val = htons arpRequest := load_u16_holds hop
  have htpa : addr m 38 = ip := addr_holds htpa
  exact ⟨htype, by rw [hop, htons_htons], htpa, hmac, haddr⟩

theorem arp_from_frame (dst src sha tha : Mac) (op : UInt16) (spa tpa : Ip) (pad : List UInt8) :
    ArpFrom (ethHdr dst src ethTypeArp ++ arpPkt op sha spa tha tpa ++ pad) spa := by
  have hlen := arp_frame_length dst src sha tha op spa tpa
  generalize hframe : ethHdr dst src ethTypeArp ++ arpPkt op sha spa tha tpa = frame at hlen
  have hholds : HoldsBytes (fun i => (frame ++ pad).getD i 0) 0 frame := by
    intro j hj
    simp [List.getElem?_append_left hj, hj]
  rw [← hframe] at hholds
  obtain ⟨htype, -, hip⟩ := arp_frame_holds hholds
  rw [hframe] at htype hip
  exact ⟨by rw [List.length_append]; omega, htype, hip⟩

/-- A host that receives a request for its address answers it with a packet of its own, and
knows the one that asked if there is room. -/
theorem poll_request (stack : Stack) (receiver : Net η') (sender : Net η) (pad : List UInt8) :
    ∃ cache reply, netPoll stack receiver stack.buf [requestFrame sender receiver.myIp ++ pad] =
        e1000Send { receiver with arpCache := cache } reply ∧
      (∀ pad', ArpFrom (reply ++ pad') receiver.myIp) ∧
      (Room receiver sender.myIp → arpCacheGet { receiver with arpCache := cache } sender.myIp = some sender.myMac) := by
  have hlen : (requestFrame sender receiver.myIp).length = 42 := arp_frame_length _ _ _ _ _ _ _
  have hreceived := received_prefix
    (store_bytes_holds stack.buf 0 ((requestFrame sender receiver.myIp ++ pad).take 1500)) (List.prefix_append _ pad)
  have hcount : 0 < ((requestFrame sender receiver.myIp ++ pad).take 1500).length := by
    rw [List.length_take, List.length_append]
    omega
  have hsingle := poll_single (s := receiver) stack stack.buf hcount
  generalize storeBytes stack.buf 0 ((requestFrame sender receiver.myIp ++ pad).take 1500) = pkt at hreceived hsingle
  obtain ⟨htype, hop, htpa, hmac, hip⟩ := request_holds (received_short hreceived (by omega))
  obtain ⟨cache, hanswer⟩ := handle_arp_answers (s := receiver) hop htpa
  have hslots := handle_arp_slots receiver pkt
  rw [hanswer, hip, hmac] at hslots
  refine ⟨cache, arpAnswer receiver pkt, ?_, fun pad' => arp_from_frame _ _ _ _ _ _ _ pad', fun hroom => ?_⟩
  · rw [hsingle]
    unfold handleFrame
    rw [if_pos htype, hanswer]
  · have hlookup : slots { receiver with arpCache := cache } = (slots receiver).store sender.myIp sender.myMac := hslots
    rw [arp_cache_get_eq, hlookup]
    exact SlotTable.lookup_store_iff.mpr (room_iff.mp hroom)

/-- A wait that succeeds ends with the address known. -/
theorem arp_wait_known {rounds : List (List (List UInt8))} (h : (arpWait stack ip s rounds).1 = true) :
    (arpCacheGet (arpWait stack ip s rounds).2 ip).isSome := by
  induction rounds generalizing s with
  | nil => exact absurd h Bool.false_ne_true
  | cons frames rounds ih =>
    unfold arpWait at h ⊢
    dsimp only at h ⊢
    split
    · assumption
    · rename_i hunknown
      rw [if_neg hunknown] at h
      exact ih h

/-- A datagram to a host that the sender has not heard of: the request reaches that host, its
answer the sender, in whichever of the 50 rounds, and the datagram goes out to the MAC that the
sender's cache then has and is handed to the handler of its port, if the sender has room for
the address when the answer comes. -/
theorem first_datagram_arrives (stack stack' stack'' : Stack) (sender : Net η) (receiver : Net η') (dst src : UInt16)
    {data : List UInt8} (hdata : data.length ≤ udpMaxPayload) (hnew : arpCacheGet sender receiver.myIp = none) {i : Fin 8}
    (hfirst : Fin.find? (fun i => (receiver.udpHandlers i).used && (receiver.udpHandlers i).port = dst) = some i)
    (pad : List UInt8) :
    ∃ receiver' reply, netPoll stack' receiver stack'.buf [requestFrame sender receiver.myIp ++ pad] = receiver' ∧
      receiver'.sent = receiver.sent ++ [reply] ∧
      (Room receiver sender.myIp → arpCacheGet receiver' sender.myIp = some sender.myMac) ∧
      ∀ (pad' : List UInt8) (arrivals : Fin 50 → List (List UInt8)) (rounds later : List (List (List UInt8)))
        (before after : List (List UInt8)),
        List.ofFn arrivals = rounds ++ (before ++ (reply ++ pad') :: after) :: later → (∀ frame ∈ before, frame ≠ []) →
        Room (whenHandled stack sender receiver.myIp rounds before) receiver.myIp →
        ∃ sender' frames datagram dstMac, netUdpSend stack sender arrivals receiver.myIp dst src data =
            ((data.length : Int), sender') ∧ sender'.sent = frames ++ [datagram] ∧
          arpCacheGet sender' receiver.myIp = some dstMac ∧ datagram.take 6 = List.ofFn dstMac ∧
          ∀ pad'', (netPoll stack'' receiver' stack''.buf [datagram ++ pad'']).calls = receiver.calls ++
            [⟨(receiver.udpHandlers i).handler, data, UInt16.ofNat data.length, sender.myIp, src⟩] := by
  obtain ⟨cache, reply, hpoll, hreply, hknows⟩ := poll_request stack' receiver sender pad
  refine ⟨_, reply, hpoll, rfl, hknows, ?_⟩
  intro pad' arrivals rounds later before after harrives hbefore hroom
  have hresolved := (request_resolves_iff harrives hbefore (hreply pad')).mpr hroom
  have hmyIp := net_arp_request_my_ip stack sender receiver.myIp arrivals
  have hwaited : (arpWait stack receiver.myIp (requested sender receiver.myIp) (List.ofFn arrivals)).1 = true := hresolved
  have hknown := arp_wait_known hwaited
  obtain ⟨dstMac, hmac⟩ := Option.isSome_iff_exists.mp hknown
  have hmac : arpCacheGet (netArpRequest stack sender receiver.myIp arrivals).2 receiver.myIp = some dstMac := hmac
  generalize hrequest : netArpRequest stack sender receiver.myIp arrivals = resolved at hresolved hmyIp hmac
  obtain ⟨done, sender'⟩ := resolved
  have hdone : done = true := hresolved
  subst hdone
  have hmyIp : sender'.myIp = sender.myIp := hmyIp
  have hmac : arpCacheGet sender' receiver.myIp = some dstMac := hmac
  refine ⟨e1000Send sender' (udpFrame sender' dstMac receiver.myIp dst src data), sender'.sent,
    udpFrame sender' dstMac receiver.myIp dst src data, dstMac, ?_, rfl, hmac, ?_, fun pad'' => ?_⟩
  · unfold netUdpSend
    rw [if_neg (Nat.not_lt.mpr hdata), hnew, hrequest]
    dsimp only
    rw [hmac]
  · unfold udpFrame ethHdr
    simp only [List.append_assoc]
    exact List.take_left' (List.length_ofFn)
  · rw [← hmyIp]
    exact poll_udp_frame (s := e1000Send { receiver with arpCache := cache } reply) stack'' stack''.buf sender' dstMac src
      hdata pad'' rfl hfirst

/-- A host that has only just been started. -/
def newcomer : Net Unit := clearedNet ![10, 0, 2, 3] ()

theorem first_datagram_arrives_newcomer :
    ∃ receiver' reply, netPoll zeroStack listener zeroStack.buf [requestFrame newcomer listener.myIp ++ []] = receiver' ∧
      ∃ sender' frames datagram dstMac,
        netUdpSend zeroStack newcomer (fun _ => [reply ++ []]) listener.myIp 7 9 [104, 105] = (2, sender') ∧
        sender'.sent = frames ++ [datagram] ∧
        arpCacheGet sender' listener.myIp = some dstMac ∧ datagram.take 6 = List.ofFn dstMac ∧
        ∀ pad, (netPoll zeroStack receiver' zeroStack.buf [datagram ++ pad]).calls = listener.calls ++
          [⟨(listener.udpHandlers 0).handler, [104, 105], 2, newcomer.myIp, 9⟩] := by
  have hdata : ([104, 105] : List UInt8).length ≤ udpMaxPayload := by decide
  obtain ⟨receiver', reply, hpoll, -, -, hsend⟩ := first_datagram_arrives zeroStack zeroStack zeroStack newcomer listener 7 9
    hdata (by decide) (i := 0) (by decide) []
  exact ⟨receiver', reply, hpoll, hsend [] (fun _ => [reply ++ []]) [] _ [] [] rfl (fun _ h => absurd h List.not_mem_nil)
    (Or.inr ⟨0, rfl⟩)⟩

end Resolution

end BaSic.Proofs.Ethernet
