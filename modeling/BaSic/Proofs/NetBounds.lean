import BaSic.Kernel.Net

namespace BaSic.Proofs.NetBounds
open Kernel Lib

variable {η : Type}

/-- The address at offset `i`. -/
def addr (pkt : Mem) (i : Nat) : Ip := fun j => pkt (i + j)

def dstPort (pkt : Mem) : UInt16 := htons (loadU16 pkt 36).val
def srcPort (pkt : Mem) : UInt16 := htons (loadU16 pkt 34).val
def payLen (pkt : Mem) : UInt16 := htons (loadU16 pkt 38).val - 8

def Registered (s : Net η) (port : UInt16) : Prop :=
  ∃ i, (s.udpHandlers i).used = true ∧ (s.udpHandlers i).port = port

/-- The entry is valid and holds the address at offset `ip`. -/
def Names (e : ArpEntry) (m : Mem) (ip : Nat) : Prop := e.valid = true ∧ addr m ip = e.ip

instance (e : ArpEntry) (m : Mem) (ip : Nat) : Decidable (Names e m ip) :=
  inferInstanceAs (Decidable (e.valid = true ∧ addr m ip = e.ip))

/-- The sender is copied to an entry, unless the cache is full and only compared with it. -/
def SenderFits (s : Net η) (pkt : Mem) (n : Nat) : Prop :=
  if (∃ i, Names (s.arpCache i) pkt 28) ∨ (∃ i, (s.arpCache i).valid = false) then 32 ≤ n
  else ∀ i, 28 + compared pkt 28 (List.ofFn (s.arpCache i).ip) ≤ n

/-- An ARP packet of `n` bytes has its sender and its operation, and a request as much of
its target as is compared with `my_ip`. -/
structure ArpFits (s : Net η) (pkt : Mem) (n : Nat) : Prop where
  op : 22 ≤ n
  sender : SenderFits s pkt n
  target : htons (loadU16 pkt 20).val = arpRequest → 38 + compared pkt 38 (List.ofFn s.myIp) ≤ n

/-- The UDP header is there, and the payload that a handler would be given. -/
structure UdpFits (s : Net η) (pkt : Mem) (n : Nat) : Prop where
  header : 40 ≤ n
  payload : (payLen pkt).toNat ≤ n → Registered s (dstPort pkt) → 0 < (payLen pkt).toNat → 42 + (payLen pkt).toNat ≤ n

/-- An IP packet has as much of its destination as is compared, and what its protocol reads
if it is for this host. -/
structure IpFits (s : Net η) (pkt : Mem) (n : Nat) : Prop where
  dst : 30 + compared pkt 30 (List.ofFn s.myIp) ≤ n
  icmp : addr pkt 30 = s.myIp → pkt 23 = ipProtoIcmp → 35 ≤ n
  udp : addr pkt 30 = s.myIp → pkt 23 = ipProtoUdp → UdpFits s pkt n

structure FrameFits (s : Net η) (pkt : Mem) (n : Nat) : Prop where
  arp : frameType pkt = ethTypeArp → ArpFits s pkt n
  ip : frameType pkt = ethTypeIp → IpFits s pkt n

variable {s : Net η} {m pkt : Mem} {e : ArpEntry} {base n ip : Nat}

theorem compare_addr {a : Ip} : (compareCells m base (List.ofFn a)).val = true ↔ addr m base = a := by
  rw [compare_cells_val]
  unfold HoldsBytes
  rw [funext_iff, Fin.forall_iff]
  simp only [List.length_ofFn, List.getElem_ofFn, addr]

theorem compare_addr_ne {a : Ip} (h : addr m base ≠ a) : (compareCells m base (List.ofFn a)).val = false :=
  Bool.eq_false_iff.mpr (fun htrue => h (compare_addr.mp htrue))

theorem compared_addr_le (m : Mem) (base : Nat) (a : Ip) : compared m base (List.ofFn a) ≤ 4 := by
  have hle := compared_le m base (List.ofFn a)
  rwa [List.length_ofFn] at hle

theorem compared_addr {a : Ip} (h : addr m base = a) : compared m base (List.ofFn a) = 4 := by
  rw [compared_of_eq (compare_addr.mpr h), List.length_ofFn]

theorem within_addr {a : Ip} :
    (compareCells m base (List.ofFn a)).Within n ↔ base + compared m base (List.ofFn a) ≤ n :=
  within_compare (fun hnil => by simpa using congrArg List.length hnil)

theorem within_load_u16 : (loadU16 m base).Within n ↔ base + 2 ≤ n := by
  unfold loadU16
  rw [within_bind, within_bind, within_cell, within_cell]
  have hpure := within_pure (n := n) ((readCell m base).val.toUInt16 ||| ((readCell m (base + 1)).val.toUInt16 <<< 8))
  constructor
  · rintro ⟨-, hhi, -⟩
    exact hhi
  · intro h
    exact ⟨by omega, h, hpure⟩

theorem arp_matches_val : (arpMatches e m ip).val = true ↔ Names e m ip := by
  unfold arpMatches Names
  by_cases hvalid : e.valid = true
  · rw [if_pos hvalid, compare_addr]
    exact (and_iff_right hvalid).symm
  · rw [if_neg hvalid, pure_val]
    exact iff_of_false Bool.false_ne_true (fun h => hvalid h.1)

theorem within_arp_matches :
    (arpMatches e m ip).Within n ↔ (e.valid = true → ip + compared m ip (List.ofFn e.ip) ≤ n) := by
  unfold arpMatches
  by_cases hvalid : e.valid = true
  · rw [if_pos hvalid, within_addr]
    exact (imp_iff_right hvalid).symm
  · rw [if_neg hvalid]
    exact iff_of_true (within_pure _) (fun h => absurd h hvalid)

theorem arp_find_none (cache : Fin 8 → ArpEntry) (is : List (Fin 8)) :
    (arpFind cache m ip is).val = none ↔ ¬ ∃ i ∈ is, Names (cache i) m ip := by
  induction is with
  | nil => simp [arpFind]
  | cons i is ih =>
    unfold arpFind
    rw [bind_val, List.exists_mem_cons_iff, ← arp_matches_val]
    by_cases hi : (arpMatches (cache i) m ip).val = true
    · rw [if_pos hi, pure_val]
      exact iff_of_false (fun h => by cases h) (fun h => h (.inl hi))
    · rw [if_neg hi, ih]
      exact not_congr (or_iff_right hi).symm

/-- The scan reads the whole address where an entry has it, and else what each comparison
needs to fail. -/
theorem within_arp_find (cache : Fin 8 → ArpEntry) (is : List (Fin 8)) :
    (arpFind cache m ip is).Within n ↔
      if ∃ i ∈ is, Names (cache i) m ip then ip + 4 ≤ n
      else ∀ i ∈ is, (cache i).valid = true → ip + compared m ip (List.ofFn (cache i).ip) ≤ n := by
  induction is with
  | nil => simp [arpFind]
  | cons i is ih =>
    unfold arpFind
    rw [within_bind, within_arp_matches]
    have hle := compared_addr_le m ip (cache i).ip
    by_cases hi : Names (cache i) m ip
    · rw [if_pos (arp_matches_val.mpr hi), if_pos ⟨i, List.mem_cons_self, hi⟩, and_iff_left (within_pure _),
        compared_addr hi.2]
      exact imp_iff_right hi.1
    · rw [if_neg (fun h => hi (arp_matches_val.mp h)), ih]
      by_cases hrest : ∃ j ∈ is, Names (cache j) m ip
      · rw [if_pos hrest, if_pos ((List.exists_mem_cons_iff _ _ _).mpr (.inr hrest))]
        refine and_iff_right_of_imp (fun hfour _ => ?_)
        omega
      · have hnone : ¬ ∃ j ∈ i :: is, Names (cache j) m ip := by
          rw [List.exists_mem_cons_iff]
          rintro (h | h)
          · exact hi h
          · exact hrest h
        rw [if_neg hrest, if_neg hnone, List.forall_mem_cons]

theorem within_arp_cache_set : (arpCacheSet s pkt 28 22).Within n ↔ SenderFits s pkt n := by
  unfold arpCacheSet SenderFits
  rw [within_bind, within_arp_find]
  simp only [List.mem_finRange, true_and, forall_const]
  by_cases hknown : ∃ i, Names (s.arpCache i) pkt 28
  · have hsome : (arpFind s.arpCache pkt 28 (List.finRange 8)).val ≠ none := by
      intro hnone
      rw [arp_find_none] at hnone
      exact hnone (hknown.imp (fun i hi => ⟨List.mem_finRange i, hi⟩))
    obtain ⟨i, hi⟩ := Option.ne_none_iff_exists'.mp hsome
    rw [if_pos hknown, if_pos (.inl hknown), hi]
    dsimp only
    rw [within_bind, within_cells, and_iff_left (within_pure _)]
    omega
  · have hnone : (arpFind s.arpCache pkt 28 (List.finRange 8)).val = none :=
      (arp_find_none _ _).mpr (fun ⟨i, _, hi⟩ => hknown ⟨i, hi⟩)
    rw [if_neg hknown, hnone]
    dsimp only
    cases hfree : Fin.find? (fun i => !(s.arpCache i).valid) with
    | none =>
      have hfull : ∀ i, (s.arpCache i).valid = true := by
        intro i
        simpa using Fin.find?_eq_none_iff.mp hfree i
      have hnot : ¬ ∃ i, (s.arpCache i).valid = false := by
        rintro ⟨i, hi⟩
        rw [hfull i] at hi
        cases hi
      rw [if_neg (fun h => h.elim hknown hnot)]
      simp only [hfull, forall_const]
      exact and_iff_left (within_pure s)
    | some i =>
      have hinvalid : ∃ i, (s.arpCache i).valid = false := by
        refine ⟨i, ?_⟩
        simpa using (Fin.find?_eq_some_iff.mp hfree).1
      rw [if_pos (.inr hinvalid)]
      dsimp only
      rw [within_bind, within_bind, within_cells, within_cells]
      constructor
      · rintro ⟨-, hip, -⟩
        exact hip (by decide)
      · intro h
        refine ⟨fun i _ => ?_, fun _ => h, fun _ => by omega, within_pure _⟩
        have hle := compared_addr_le pkt 28 (s.arpCache i).ip
        omega

theorem arp_cache_set_my_ip : (arpCacheSet s pkt ip base).val.myIp = s.myIp := by
  unfold arpCacheSet
  rw [bind_val]
  split
  · rfl
  · split
    · rfl
    · rfl

theorem within_handle_arp : (handleArp s pkt).Within n ↔ ArpFits s pkt n := by
  unfold handleArp
  rw [within_bind, within_bind, within_arp_cache_set, within_load_u16]
  by_cases hop : htons (loadU16 pkt 20).val = arpRequest
  · rw [if_neg (not_not.mpr hop), within_bind, within_addr, arp_cache_set_my_ip]
    constructor
    · rintro ⟨hsender, hread, htarget, -⟩
      exact ⟨hread, hsender, fun _ => htarget⟩
    · intro h
      have htarget := h.target hop
      refine ⟨h.sender, h.op, htarget, ?_⟩
      by_cases hmine : addr pkt 38 = s.myIp
      · rw [compared_addr hmine] at htarget
        rw [compare_addr.mpr hmine, Bool.not_true, if_neg Bool.false_ne_true]
        simp only [within_bind, within_cells]
        exact ⟨fun _ => by omega, fun _ => by omega, fun _ => by omega, within_pure _⟩
      · rw [compare_addr_ne hmine, Bool.not_false, if_pos rfl]
        exact within_pure _
  · rw [if_pos hop]
    constructor
    · rintro ⟨hsender, hread, -⟩
      exact ⟨hread, hsender, fun h => absurd h hop⟩
    · intro h
      exact ⟨h.sender, h.op, within_pure _⟩

theorem registered_iff (port : UInt16) :
    Registered s port ↔ Fin.find? (fun i => (s.udpHandlers i).used && (s.udpHandlers i).port = port) ≠ none := by
  rw [Ne, Fin.find?_eq_none_iff]
  simp [Registered]

theorem within_handle_udp {len : UInt16} (hlen : len.toNat = n) : (handleUdp s pkt len).Within n ↔ UdpFits s pkt n := by
  unfold handleUdp
  simp only [within_bind, within_load_u16]
  have hpay : htons (loadU16 pkt 38).val - 8 = payLen pkt := rfl
  have hdst : htons (loadU16 pkt 36).val = dstPort pkt := rfl
  rw [hpay, hdst]
  have hread : 38 + 2 ≤ n → 36 + 2 ≤ n ∧ 34 + 2 ≤ n := fun h => ⟨by omega, by omega⟩
  by_cases hlong : payLen pkt > len
  · rw [if_pos hlong]
    have hnot : ¬ (payLen pkt).toNat ≤ n := by
      rw [← hlen]
      exact Nat.not_le_of_lt (UInt16.lt_iff_toNat_lt.mp hlong)
    constructor
    · rintro ⟨-, -, hheader, -⟩
      exact ⟨hheader, fun h => absurd h hnot⟩
    · intro h
      obtain ⟨hdst, hsrc⟩ := hread h.header
      exact ⟨hdst, hsrc, h.header, within_pure s⟩
  · rw [if_neg hlong]
    have hfits : (payLen pkt).toNat ≤ n := by
      rw [← hlen]
      exact UInt16.le_iff_toNat_le.mp (UInt16.not_lt.mp hlong)
    have hport := registered_iff (s := s) (dstPort pkt)
    cases hfind : Fin.find? (fun i => (s.udpHandlers i).used && (s.udpHandlers i).port = dstPort pkt) with
    | none =>
      have hnot : ¬ Registered s (dstPort pkt) := fun h => hport.mp h hfind
      dsimp only
      constructor
      · rintro ⟨-, -, hheader, -⟩
        exact ⟨hheader, fun _ h => absurd h hnot⟩
      · intro h
        obtain ⟨hdst, hsrc⟩ := hread h.header
        exact ⟨hdst, hsrc, h.header, within_pure s⟩
    | some i =>
      have hregistered : Registered s (dstPort pkt) := by
        rw [hport, hfind]
        exact Option.some_ne_none i
      simp only [within_bind, within_cells]
      constructor
      · rintro ⟨-, -, hheader, hpayload, -⟩
        exact ⟨hheader, fun _ _ => hpayload⟩
      · intro h
        obtain ⟨hdst, hsrc⟩ := hread h.header
        have hheader := h.header
        exact ⟨hdst, hsrc, hheader, h.payload hfits hregistered, fun _ => by omega, within_pure _⟩

theorem within_checksum (m : Mem) (base len : Nat) : (ipChecksumAt m base len).Within n ↔ 0 < len → base + len ≤ n := by
  unfold ipChecksumAt
  rw [within_bind, within_cells]
  exact and_iff_left (within_pure _)

/-- The reply is a copy of the packet, so that its checksums read no further. -/
theorem within_handle_icmp (stack : Stack) {len : UInt16} (hlen : len.toNat = n) (hmax : n ≤ 1500) :
    (handleIcmp stack s pkt len).Within n ↔ 35 ≤ n := by
  have hnot : ¬ len > 1500 := by
    intro h
    have hgt := UInt16.lt_iff_toNat_lt.mp h
    rw [hlen] at hgt
    exact absurd hmax (Nat.not_le_of_lt hgt)
  unfold handleIcmp
  rw [within_bind, within_cell, read_cell_val]
  by_cases htype : pkt 34 = icmpEchoReq
  · rw [if_neg (not_not.mpr htype)]
    simp only [within_bind, if_neg hnot, within_checksum, within_cells, hlen]
    constructor
    · rintro ⟨h, -⟩
      exact h
    · intro h
      have hicmp : sub32 (sub32 n 14) 20 = n - 34 := by
        have hip : sub32 n 14 = n - 14 := sub32_of_le (by omega) (by omega)
        rw [hip, sub32_of_le (by omega) (by omega), Nat.sub_sub]
      refine ⟨h, fun _ => by omega, fun _ => by omega, fun _ => by omega, fun _ => by omega, fun _ => ?_, within_pure _⟩
      rw [hicmp]
      omega
  · rw [if_pos htype]
    exact and_iff_left (within_pure s)

theorem within_handle_ip (stack : Stack) {len : UInt16} (hlen : len.toNat = n) (hmax : n ≤ 1500) :
    (handleIp stack s pkt len).Within n ↔ IpFits s pkt n := by
  unfold handleIp
  rw [within_bind, within_addr]
  by_cases hmine : addr pkt 30 = s.myIp
  · have hfour : 30 + compared pkt 30 (List.ofFn s.myIp) ≤ n ↔ 34 ≤ n := by rw [compared_addr hmine]
    rw [compare_addr.mpr hmine, Bool.not_true, if_neg Bool.false_ne_true, within_bind, within_cell, read_cell_val]
    by_cases hicmp : pkt 23 = ipProtoIcmp
    · have hother : pkt 23 ≠ ipProtoUdp := by
        rw [hicmp]
        decide
      rw [if_pos hicmp, within_bind, within_bind, within_cell, read_cell_val, if_neg hother,
        within_handle_icmp stack hlen hmax]
      constructor
      · rintro ⟨hdst, -, hreads, -⟩
        exact ⟨hdst, fun _ _ => hreads, fun _ h => absurd h hother⟩
      · intro h
        have hreads := h.icmp hmine hicmp
        exact ⟨h.dst, by omega, hreads, by omega, within_pure _⟩
    · rw [if_neg hicmp, within_bind, within_bind, within_cell, read_cell_val, pure_val]
      by_cases hudp : pkt 23 = ipProtoUdp
      · rw [if_pos hudp, within_handle_udp hlen]
        constructor
        · rintro ⟨hdst, -, -, -, hreads⟩
          exact ⟨hdst, fun _ h => absurd h hicmp, fun _ _ => hreads⟩
        · intro h
          have hdst := hfour.mp h.dst
          exact ⟨h.dst, by omega, within_pure s, by omega, h.udp hmine hudp⟩
      · rw [if_neg hudp]
        constructor
        · rintro ⟨hdst, -⟩
          exact ⟨hdst, fun _ h => absurd h hicmp, fun _ h => absurd h hudp⟩
        · intro h
          have hdst := hfour.mp h.dst
          exact ⟨h.dst, by omega, within_pure s, by omega, within_pure s⟩
  · rw [compare_addr_ne hmine, Bool.not_false, if_pos rfl]
    constructor
    · rintro ⟨hdst, -⟩
      exact ⟨hdst, fun h => absurd h hmine, fun h => absurd h hmine⟩
    · intro h
      exact ⟨h.dst, within_pure s⟩

theorem within_handle_frame (stack : Stack) {len : UInt16} (hlen : len.toNat = n) (hmax : n ≤ 1500) :
    (handleFrame stack s pkt len).Within n ↔ FrameFits s pkt n := by
  unfold handleFrame
  have hother : ethTypeArp ≠ ethTypeIp := by decide
  by_cases harp : frameType pkt = ethTypeArp
  · rw [if_pos harp, within_handle_arp]
    exact ⟨fun h => ⟨fun _ => h, fun hip => absurd (harp.symm.trans hip) hother⟩, fun h => h.arp harp⟩
  · rw [if_neg harp]
    by_cases hip : frameType pkt = ethTypeIp
    · rw [if_pos hip, within_handle_ip stack hlen hmax]
      exact ⟨fun h => ⟨fun h => absurd h harp, fun _ => h⟩, fun h => h.ip hip⟩
    · rw [if_neg hip]
      exact iff_of_true (within_pure s) ⟨fun h => absurd h harp, fun h => absurd h hip⟩

/-- The handlers read inside the frame, and hand out a payload inside it, exactly when the
frame is long enough for what it says it is. -/
theorem reads_within_iff (stack : Stack) (s : Net η) (stale : Mem) (frame : List UInt8)
    (hmax : frame.length ≤ 1500) :
    (handleFrame stack s (storeBytes stale 0 frame) (UInt16.ofNat frame.length)).Within frame.length ↔
      FrameFits s (storeBytes stale 0 frame) frame.length := by
  have hsize : frame.length < UInt16.size := Nat.lt_of_le_of_lt hmax (by decide)
  exact within_handle_frame stack (UInt16.toNat_ofNat_of_lt' hsize) hmax

/-- A part of the state that frames sent and handlers called leave alone. -/
structure Kept {β : Type*} (f : Net η → β) : Prop where
  sent : ∀ s frame, f (e1000Send s frame) = f s
  called : ∀ s calls, f { s with calls := calls } = f s

theorem Kept.handle_arp {β : Type*} {f : Net η → β} (h : Kept f) (s : Net η) (pkt : Mem) :
    f (handleArp s pkt).val = f (arpCacheSet s pkt 28 22).val := by
  unfold handleArp
  rw [bind_val, bind_val]
  split_ifs
  · rfl
  · rw [bind_val]
    split_ifs
    · rfl
    · exact h.sent _ _

theorem Kept.handle_icmp {β : Type*} {f : Net η → β} (h : Kept f) (stack : Stack) (s : Net η) (pkt : Mem) (len : UInt16) :
    f (handleIcmp stack s pkt len).val = f s := by
  unfold handleIcmp
  rw [bind_val]
  by_cases htype : (readCell pkt 34).val ≠ icmpEchoReq
  · rw [if_pos htype]
    rfl
  · rw [if_neg htype]
    exact h.sent s _

theorem Kept.handle_udp {β : Type*} {f : Net η → β} (h : Kept f) (s : Net η) (pkt : Mem) (len : UInt16) :
    f (handleUdp s pkt len).val = f s := by
  unfold handleUdp
  simp only [bind_val]
  split
  · rfl
  · split
    · exact h.called s _
    · rfl

theorem Kept.handle_ip {β : Type*} {f : Net η → β} (h : Kept f) (stack : Stack) (s : Net η) (pkt : Mem) (len : UInt16) :
    f (handleIp stack s pkt len).val = f s := by
  unfold handleIp
  rw [bind_val]
  split_ifs
  · rfl
  · rw [bind_val]
    split_ifs
    · rw [bind_val, bind_val]
      split_ifs
      · rw [h.handle_udp, h.handle_icmp]
      · exact h.handle_icmp stack s pkt len
    · rw [bind_val, bind_val]
      split_ifs
      · exact h.handle_udp s pkt len
      · rfl

/-- What every frame keeps a poll keeps. -/
theorem net_poll_rule {stack : Stack} {I : Net η → Prop} (hframe : ∀ s buf n, I s → I (handleFrame stack s buf n).val)
    {buf : Mem} (frames : List (List UInt8)) (h : I s) : I (netPoll stack s buf frames) := by
  induction frames generalizing s buf with
  | nil => exact h
  | cons frame frames ih =>
    rw [netPoll]
    split
    · exact ih (hframe _ _ _ h)
    · exact h

/-- A host with a handler for port 7. -/
def listener : Net Unit :=
  netUdpRegister ⟨fun _ => 0x52, ![10, 0, 2, 15], fun _ => ⟨fun _ => 0, fun _ => 0, false⟩,
    fun _ => ⟨0, (), false⟩, [], []⟩ 7 ()

def zeroStack : Stack := ⟨fun _ => 0, fun _ => 0⟩

/-- A frame of 60 bytes for it with 18 bytes of payload. -/
def datagram : List UInt8 :=
  ethHdr (fun _ => 0x52) (fun _ => 0x50) ethTypeIp ++ ipHdr 46 ipProtoUdp 44898 ![10, 0, 2, 2] ![10, 0, 2, 15] ++
    udpHdr 9 7 26 ++ List.replicate 18 0

theorem reads_within_datagram : (handleFrame zeroStack listener (storeBytes (fun _ => 0) 0 datagram)
    (UInt16.ofNat datagram.length)).Within datagram.length := by
  refine (reads_within_iff zeroStack listener (fun _ => 0) datagram (by decide)).mpr ⟨?_, fun _ => ⟨by decide, ?_, ?_⟩⟩
  · intro harp
    exact absurd harp (by decide)
  · intro _ hicmp
    exact absurd hicmp (by decide)
  · intro _ _
    exact ⟨by decide, fun _ _ _ => by decide⟩

/-- One that says it has 60 bytes of payload. -/
def overstated : List UInt8 :=
  ethHdr (fun _ => 0x52) (fun _ => 0x50) ethTypeIp ++ ipHdr 46 ipProtoUdp 44898 ![10, 0, 2, 2] ![10, 0, 2, 15] ++
    udpHdr 9 7 68 ++ List.replicate 18 0

theorem payload_past_frame :
    ¬ ∀ (stack : Stack) (s : Net Unit) (stale : Mem) (frame : List UInt8), 1 ≤ frame.length → frame.length ≤ 1500 →
      (handleFrame stack s (storeBytes stale 0 frame) (UInt16.ofNat frame.length)).Within frame.length := by
  intro h
  have hreads := h zeroStack listener (fun _ => 0) overstated (by decide) (by decide)
  revert hreads
  decide

end BaSic.Proofs.NetBounds
