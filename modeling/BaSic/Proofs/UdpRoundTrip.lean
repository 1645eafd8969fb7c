import BaSic.Lib.Words
import BaSic.Proofs.Checksum
import BaSic.Proofs.NetBounds

namespace BaSic.Proofs.UdpRoundTrip
open Kernel Lib NetBounds Checksum

variable {η : Type} {s : Net η} {m pkt : Mem} {base : Nat}

theorem htons_to_nat (v : UInt16) : (htons v).toNat = v.toNat / 256 + v.toNat % 256 * 256 := by
  have hv := v.toNat_lt
  have hhi : v.toNat / 256 < 2 ^ 8 := by omega
  have hjoin : v.toNat / 256 ||| (v.toNat % 256) <<< 8 = v.toNat / 256 + v.toNat % 256 * 256 := or_shl_of_lt hhi _
  have hlow : v.toNat <<< 8 % 65536 = (v.toNat % 256) <<< 8 := by
    rw [Nat.shiftLeft_eq, Nat.shiftLeft_eq]
    omega
  unfold htons
  rw [UInt16.toNat_or, UInt16.toNat_shiftLeft, UInt16.toNat_shiftRight]
  simp only [UInt16.reduceToNat, Nat.reduceMod]
  rw [Nat.shiftRight_eq_div_pow, ← hjoin, ← hlow]

theorem htons_htons (v : UInt16) : htons (htons v) = v := by
  apply UInt16.toNat_inj.mp
  have hv := v.toNat_lt
  rw [htons_to_nat, htons_to_nat]
  omega

theorem load_u16_holds {v : UInt16} (h : HoldsBytes m base (u16Bytes v)) : (loadU16 m base).val = v := by
  have hv := v.toNat_lt
  have hlo : m base = v.toUInt8 := h 0 Nat.zero_lt_two
  have hhi : m (base + 1) = (v >>> 8).toUInt8 := h 1 Nat.one_lt_two
  have hval : (loadU16 m base).val = (m base).toUInt16 ||| ((m (base + 1)).toUInt16 <<< 8) := rfl
  apply UInt16.toNat_inj.mp
  rw [hval, word_to_nat, hlo, hhi, UInt16.toNat_toUInt8, UInt16.toNat_toUInt8, UInt16.toNat_shiftRight]
  simp only [UInt16.reduceToNat, Nat.reduceMod, Nat.shiftRight_eq_div_pow]
  omega

theorem addr_holds {a : Ip} (h : HoldsBytes m base (List.ofFn a)) : addr m base = a :=
  compare_addr.mp (compare_cells_val.mpr h)

theorem eth_hdr_holds {dst src : Mac} {type : UInt16} (h : HoldsBytes m 0 (ethHdr dst src type)) :
    frameType m = type := by
  unfold ethHdr at h
  rw [holds_bytes_append, List.length_append, List.length_ofFn, List.length_ofFn] at h
  unfold frameType
  rw [load_u16_holds h.2, htons_htons]

theorem ip_hdr_holds {totalLen checksum : UInt16} {proto : UInt8} {src dst : Ip}
    (h : HoldsBytes m 14 (ipHdr totalLen proto checksum src dst)) :
    m 23 = proto ∧ addr m 26 = src ∧ addr m 30 = dst := by
  unfold ipHdr at h
  simp only [holds_bytes_append] at h
  obtain ⟨⟨⟨⟨-, hproto⟩, -⟩, hsrc⟩, hdst⟩ := h
  exact ⟨hproto 5 (Nat.lt_succ_self 5), addr_holds hsrc, addr_holds hdst⟩

theorem udp_hdr_holds {src dst length : UInt16} (h : HoldsBytes m 34 (udpHdr src dst length)) :
    srcPort m = src ∧ dstPort m = dst ∧ payLen m = length - 8 := by
  unfold udpHdr at h
  simp only [holds_bytes_append] at h
  obtain ⟨⟨⟨hsrc, hdst⟩, hlength⟩, -⟩ := h
  have hsrc : (loadU16 m 34).val = htons src := load_u16_holds hsrc
  have hdst : (loadU16 m 36).val = htons dst := load_u16_holds hdst
  have hlength : (loadU16 m 38).val = htons length := load_u16_holds hlength
  unfold srcPort dstPort payLen
  rw [hsrc, hdst, hlength, htons_htons, htons_htons, htons_htons]
  exact ⟨rfl, rfl, rfl⟩

/-- What a handler is called with for a packet that passes the test of its length. -/
theorem handle_udp_calls {len : UInt16} {i : Fin 8} (hlen : payLen pkt ≤ len)
    (hfirst : Fin.find? (fun i => (s.udpHandlers i).used && (s.udpHandlers i).port = dstPort pkt) = some i) :
    (handleUdp s pkt len).val.calls = s.calls ++ [⟨(s.udpHandlers i).handler,
      List.ofFn (readCells pkt 42 (payLen pkt).toNat).val, payLen pkt, addr pkt 26, srcPort pkt⟩] := by
  have hpay : htons (loadU16 pkt 38).val - 8 = payLen pkt := rfl
  have hdst : htons (loadU16 pkt 36).val = dstPort pkt := rfl
  unfold handleUdp
  simp only [bind_val]
  rw [hpay, hdst, if_neg (UInt16.not_lt.mpr hlen), hfirst]
  rfl

theorem handle_ip_udp (stack : Stack) (len : UInt16) (hmine : addr pkt 30 = s.myIp) (hudp : pkt 23 = ipProtoUdp) :
    (handleIp stack s pkt len).val = (handleUdp s pkt len).val := by
  have hicmp : pkt 23 ≠ ipProtoIcmp := by
    rw [hudp]
    decide
  unfold handleIp
  rw [bind_val, compare_addr.mpr hmine, Bool.not_true, if_neg Bool.false_ne_true, bind_val, read_cell_val,
    if_neg hicmp, bind_val, bind_val, read_cell_val, if_pos hudp, pure_val]

theorem handle_frame_ip (stack : Stack) (len : UInt16) (hip : frameType pkt = ethTypeIp) :
    handleFrame stack s pkt len = handleIp stack s pkt len := by
  have harp : frameType pkt ≠ ethTypeArp := by
    rw [hip]
    decide
  unfold handleFrame
  rw [if_neg harp, if_pos hip]

theorem poll_single (stack : Stack) (buf : Mem) {frame : List UInt8} (hne : 0 < (frame.take 1500).length) :
    netPoll stack s buf [frame] = (handleFrame stack s (storeBytes buf 0 (frame.take 1500))
      (UInt16.ofNat (frame.take 1500).length)).val := by
  rw [netPoll, if_pos hne, netPoll]

theorem ip_hdr_length (totalLen checksum : UInt16) (proto : UInt8) (src dst : Ip) :
    (ipHdr totalLen proto checksum src dst).length = 20 := by
  unfold ipHdr u16Bytes
  simp only [List.length_append, List.length_ofFn, List.length_cons, List.length_nil]

theorem ip_hdr_summed_length (totalLen : UInt16) (proto : UInt8) (src dst : Ip) :
    (ipHdrSummed totalLen proto src dst).length = 20 := ip_hdr_length _ _ _ _ _

theorem eth_hdr_length (dst src : Mac) (type : UInt16) : (ethHdr dst src type).length = 14 := by
  unfold ethHdr u16Bytes
  simp only [List.length_append, List.length_ofFn, List.length_cons, List.length_nil]

theorem udp_hdr_length (src dst length : UInt16) : (udpHdr src dst length).length = 8 := rfl

theorem udp_frame_length (sender : Net η) (dstMac : Mac) (dstIp : Ip) (dstPort srcPort : UInt16) (data : List UInt8) :
    (udpFrame sender dstMac dstIp dstPort srcPort data).length = 42 + data.length := by
  unfold udpFrame
  simp only [List.length_append, ip_hdr_summed_length, eth_hdr_length, udp_hdr_length]

theorem ip_hdr_summed_verifies (totalLen : UInt16) (proto : UInt8) (src dst : Ip) :
    ipChecksum (ipHdrSummed totalLen proto src dst) = 0 := by
  have hfields : ∀ checksum, ipHdr totalLen proto checksum src dst =
      ([0x45, 0] ++ u16Bytes (htons totalLen) ++ [0, 0, 0, 0, 64, proto]) ++ u16Bytes checksum ++
        (List.ofFn src ++ List.ofFn dst) := fun _ => List.append_assoc _ _ _
  have hten : ([0x45, 0] ++ u16Bytes (htons totalLen) ++ [0, 0, 0, 0, 64, proto]).length = 10 := rfl
  have height : (List.ofFn src ++ List.ofFn dst).length = 8 := by
    rw [List.length_append, List.length_ofFn, List.length_ofFn]
  unfold ipHdrSummed
  rw [hfields, hfields]
  refine checksum_verifies ?_ ?_
  · rw [hten]
  · rw [hten, height]
    decide

theorem header_verifies (sender : Net η) (dstMac : Mac) (dstIp : Ip) (dstPort srcPort : UInt16) (data : List UInt8) :
    ipChecksum (((udpFrame sender dstMac dstIp dstPort srcPort data).drop 14).take 20) = 0 := by
  unfold udpFrame
  dsimp only
  rw [List.append_assoc, List.append_assoc, List.drop_left' (eth_hdr_length _ _ _),
    List.take_left' (ip_hdr_summed_length _ _ _ _)]
  exact ip_hdr_summed_verifies _ _ _ _

/-- What is read from memory that holds a frame of `net_udp_send`. -/
theorem udp_frame_holds {η' : Type} {sender : Net η'} {dstMac : Mac} {dstIp : Ip} {dst src : UInt16}
    {data pad : List UInt8} (h : HoldsBytes m 0 (udpFrame sender dstMac dstIp dst src data ++ pad)) :
    frameType m = ethTypeIp ∧ m 23 = ipProtoUdp ∧ addr m 26 = sender.myIp ∧ addr m 30 = dstIp ∧
      srcPort m = src ∧ dstPort m = dst ∧ payLen m = 8 + UInt16.ofNat data.length - 8 ∧ HoldsBytes m 42 data := by
  unfold udpFrame at h
  simp only [holds_bytes_append, List.length_append, ip_hdr_summed_length, eth_hdr_length, udp_hdr_length] at h
  obtain ⟨⟨⟨⟨heth, hip⟩, hudp⟩, hdata⟩, -⟩ := h
  obtain ⟨hproto, hsrcIp, hdstIp⟩ := ip_hdr_holds hip
  obtain ⟨hsrc, hdst, hlen⟩ := udp_hdr_holds hudp
  exact ⟨eth_hdr_holds heth, hproto, hsrcIp, hdstIp, hsrc, hdst, hlen, hdata⟩

/-- A frame for this host calls the handler of its port. -/
theorem handle_udp_frame {η' : Type} (stack : Stack) {sender : Net η'} {dstMac : Mac} {dstIp : Ip}
    {dst src : UInt16} {data pad : List UInt8} {len : UInt16} {i : Fin 8}
    (hbytes : HoldsBytes m 0 (udpFrame sender dstMac dstIp dst src data ++ pad))
    (hdata : data.length ≤ udpMaxPayload) (hlen : data.length ≤ len.toNat) (hmine : s.myIp = dstIp)
    (hfirst : Fin.find? (fun i => (s.udpHandlers i).used && (s.udpHandlers i).port = dst) = some i) :
    (handleFrame stack s m len).val.calls = s.calls ++
      [⟨(s.udpHandlers i).handler, data, UInt16.ofNat data.length, sender.myIp, src⟩] := by
  obtain ⟨htype, hproto, hsrcIp, hdstIp, hsrc, hdst, hpay, hpayload⟩ := udp_frame_holds hbytes
  have hsize : data.length < UInt16.size := Nat.lt_of_le_of_lt hdata (by decide)
  have hpay : payLen m = UInt16.ofNat data.length := by
    rw [hpay, UInt16.add_comm, UInt16.add_sub_cancel]
  have hcount : (UInt16.ofNat data.length).toNat = data.length := UInt16.toNat_ofNat_of_lt' hsize
  have hfits : payLen m ≤ len := by
    rw [hpay, UInt16.le_iff_toNat_le, hcount]
    exact hlen
  rw [← hdst] at hfirst
  rw [handle_frame_ip stack len htype, handle_ip_udp stack len (hdstIp.trans hmine.symm) hproto,
    handle_udp_calls hfits hfirst, hpay, hsrcIp, hsrc, hcount, read_cells_holds hpayload]

/-- The link may append what it likes. -/
theorem poll_udp_frame {η' : Type} (stack : Stack) (buf : Mem) (sender : Net η') (dstMac : Mac) {dstIp : Ip}
    {dst : UInt16} (src : UInt16) {data : List UInt8} (hdata : data.length ≤ udpMaxPayload) (pad : List UInt8)
    (hmine : s.myIp = dstIp) {i : Fin 8}
    (hfirst : Fin.find? (fun i => (s.udpHandlers i).used && (s.udpHandlers i).port = dst) = some i) :
    (netPoll stack s buf [udpFrame sender dstMac dstIp dst src data ++ pad]).calls = s.calls ++
      [⟨(s.udpHandlers i).handler, data, UInt16.ofNat data.length, sender.myIp, src⟩] := by
  have hsmall : data.length ≤ 512 := hdata
  have hlen := udp_frame_length sender dstMac dstIp dst src data
  have htake : (udpFrame sender dstMac dstIp dst src data ++ pad).take 1500 =
      udpFrame sender dstMac dstIp dst src data ++ pad.take (1500 - (42 + data.length)) := by
    rw [List.take_append, List.take_of_length_le (by omega), hlen]
  have hcount : 42 + data.length ≤ ((udpFrame sender dstMac dstIp dst src data ++ pad).take 1500).length := by
    rw [List.length_take, List.length_append, hlen]
    omega
  have hsize : ((udpFrame sender dstMac dstIp dst src data ++ pad).take 1500).length < UInt16.size :=
    Nat.lt_of_le_of_lt (List.length_take_le _ _) (by decide)
  have hbytes : ∀ pkt, HoldsBytes pkt 0 ((udpFrame sender dstMac dstIp dst src data ++ pad).take 1500) →
      HoldsBytes pkt 0 (udpFrame sender dstMac dstIp dst src data ++ pad.take (1500 - (42 + data.length))) := by
    intro pkt h
    rwa [htake] at h
  have hn := UInt16.toNat_ofNat_of_lt' hsize
  rw [poll_single stack buf (by omega)]
  refine handle_udp_frame stack (hbytes _ (store_bytes_holds _ _ _)) hdata ?_ hmine hfirst
  rw [hn]
  omega

theorem handle_frame_my_ip (stack : Stack) (s : Net η) (pkt : Mem) (n : UInt16) :
    (handleFrame stack s pkt n).val.myIp = s.myIp := by
  have hkept : Kept (fun s : Net η => s.myIp) := ⟨fun _ _ => rfl, fun _ _ => rfl⟩
  unfold handleFrame
  split_ifs
  · exact (hkept.handle_arp s pkt).trans arp_cache_set_my_ip
  · exact hkept.handle_ip stack s pkt n
  · rfl

theorem net_poll_my_ip (stack : Stack) (s : Net η) (buf : Mem) (frames : List (List UInt8)) :
    (netPoll stack s buf frames).myIp = s.myIp :=
  net_poll_rule (I := fun t => t.myIp = s.myIp) (fun t buf n h => (handle_frame_my_ip stack t buf n).trans h) frames rfl

theorem arp_wait_my_ip (stack : Stack) (ip : Ip) (s : Net η) (arrivals : List (List (List UInt8))) :
    (arpWait stack ip s arrivals).2.myIp = s.myIp := by
  induction arrivals generalizing s with
  | nil => rfl
  | cons frames arrivals ih =>
    rw [arpWait]
    split
    · exact net_poll_my_ip stack s stack.buf frames
    · rw [ih, net_poll_my_ip]

theorem net_arp_request_my_ip (stack : Stack) (s : Net η) (ip : Ip) (arrivals : Fin 50 → List (List UInt8)) :
    (netArpRequest stack s ip arrivals).2.myIp = s.myIp := arp_wait_my_ip stack ip _ _

/-- What is sent last where `net_udp_send` succeeds. -/
theorem net_udp_send_frame {stack : Stack} {sender sender' : Net η} {arrivals : Fin 50 → List (List UInt8)}
    {dstIp : Ip} {dst src : UInt16} {data : List UInt8} {ret : Int}
    (hsend : netUdpSend stack sender arrivals dstIp dst src data = (ret, sender')) (hret : ret ≠ -1) :
    data.length ≤ udpMaxPayload ∧ ∃ (before : Net η) (dstMac : Mac), before.myIp = sender.myIp ∧
      sender'.sent = before.sent ++ [udpFrame before dstMac dstIp dst src data] := by
  unfold netUdpSend at hsend
  split at hsend
  · exact absurd (Prod.mk.inj hsend).1.symm hret
  · rename_i hlen
    refine ⟨Nat.le_of_not_lt hlen, ?_⟩
    split at hsend
    · rename_i dstMac hmac
      obtain ⟨-, rfl⟩ := Prod.mk.inj hsend
      exact ⟨sender, dstMac, rfl, rfl⟩
    · have hip := net_arp_request_my_ip stack sender dstIp arrivals
      split at hsend
      · exact absurd (Prod.mk.inj hsend).1.symm hret
      · rename_i resolved hrequest
        rw [hrequest] at hip
        split at hsend
        · rename_i dstMac hmac
          obtain ⟨-, rfl⟩ := Prod.mk.inj hsend
          exact ⟨resolved, dstMac, hip, rfl⟩
        · exact absurd (Prod.mk.inj hsend).1.symm hret

/-- The payload arrives whole, once, with the address and the port it came from. -/
theorem udp_round_trip {η' : Type} (stack stack' : Stack) (sender sender' : Net η) (receiver : Net η')
    (arrivals : Fin 50 → List (List UInt8)) (dstIp : Ip) (dst src : UInt16) (data : List UInt8) (ret : Int)
    (hsend : netUdpSend stack sender arrivals dstIp dst src data = (ret, sender')) (hret : ret ≠ -1)
    (hmine : receiver.myIp = dstIp) (i : Fin 8)
    (hfirst : Fin.find? (fun i => (receiver.udpHandlers i).used && (receiver.udpHandlers i).port = dst) = some i) :
    ∃ before frame, sender'.sent = before ++ [frame] ∧ ipChecksum ((frame.drop 14).take 20) = 0 ∧
      ∀ pad, (netPoll stack' receiver stack'.buf [frame ++ pad]).calls = receiver.calls ++
        [⟨(receiver.udpHandlers i).handler, data, UInt16.ofNat data.length, sender.myIp, src⟩] := by
  obtain ⟨hdata, before, dstMac, hip, hsent⟩ := net_udp_send_frame hsend hret
  refine ⟨before.sent, _, hsent, header_verifies before dstMac dstIp dst src data, fun pad => ?_⟩
  rw [← hip]
  exact poll_udp_frame stack' stack'.buf before dstMac src hdata pad hmine hfirst

/-- A host that knows the hardware address of the listener. -/
def talker : Net Unit :=
  { listener with myIp := ![10, 0, 2, 2], arpCache := fun _ => ⟨![10, 0, 2, 15], fun _ => 0x52, true⟩ }

theorem udp_round_trip_talker :
    ∃ before frame,
      (netUdpSend zeroStack talker (fun _ => []) ![10, 0, 2, 15] 7 9 [104, 105]).2.sent = before ++ [frame] ∧
      ipChecksum ((frame.drop 14).take 20) = 0 ∧
      ∀ pad, (netPoll zeroStack listener zeroStack.buf [frame ++ pad]).calls =
        listener.calls ++ [⟨(listener.udpHandlers 0).handler, [104, 105], 2, talker.myIp, 9⟩] := by
  have hsend : netUdpSend zeroStack talker (fun _ => []) ![10, 0, 2, 15] 7 9 [104, 105] =
      (2, (netUdpSend zeroStack talker (fun _ => []) ![10, 0, 2, 15] 7 9 [104, 105]).2) := Prod.ext (by decide) rfl
  exact udp_round_trip zeroStack zeroStack talker _ listener (fun _ => []) _ 7 9 [104, 105] 2 hsend (by decide) rfl 0
    (by decide)

end BaSic.Proofs.UdpRoundTrip
