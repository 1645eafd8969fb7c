import BaSic.Lib.Fields
import BaSic.Proofs.UdpRoundTrip

namespace BaSic.Proofs.IcmpReply
open Kernel Lib Fields NetBounds Checksum UdpRoundTrip

/-- An echo request under an IP header without options, and what the link put behind it. -/
structure EchoRequest where
  dst : Mac
  src : Mac
  tos : UInt8
  ident : UInt16
  flagsFrag : UInt16
  ttl : UInt8
  ipCheck : UInt16
  srcIp : Ip
  dstIp : Ip
  code : UInt8
  check : UInt16
  id : UInt16
  seq : UInt16
  payload : List UInt8
  pad : List UInt8
  fits : 42 + payload.length + pad.length ≤ 1500

/-- `total_len` -/
def EchoRequest.totalLen (r : EchoRequest) : Nat := 28 + r.payload.length

/-- The IP header up to its checksum. -/
def EchoRequest.head (r : EchoRequest) : List UInt8 :=
  [0x45, r.tos] ++ u16Bytes (htons (UInt16.ofNat r.totalLen)) ++ u16Bytes r.ident ++ u16Bytes r.flagsFrag ++
    [r.ttl, ipProtoIcmp]

/-- The ICMP message after its checksum. -/
def EchoRequest.message (r : EchoRequest) : List UInt8 := u16Bytes r.id ++ u16Bytes r.seq ++ r.payload

/-- The frame of a message that differs from that of the request in these fields. -/
def EchoRequest.fields (r : EchoRequest) (dst src : Mac) (ipCheck : UInt16) (srcIp dstIp : Ip) (type : UInt8)
    (check : UInt16) : List (List UInt8) :=
  [List.ofFn dst, List.ofFn src, u16Bytes (htons ethTypeIp), r.head, u16Bytes ipCheck, List.ofFn srcIp,
    List.ofFn dstIp, [type], [r.code], u16Bytes check, r.message, r.pad]

def EchoRequest.frame (r : EchoRequest) : List UInt8 :=
  (r.fields r.dst r.src r.ipCheck r.srcIp r.dstIp icmpEchoReq r.check).flatten

/-- The reply is addressed to the sender, repeats the message, and its checksums verify over
the header and over the message. -/
structure Answers (s : Net η) (r : EchoRequest) (reply : List UInt8) : Prop where
  dst : slice reply 0 6 = List.ofFn r.src
  src : slice reply 6 6 = List.ofFn s.myMac
  srcIp : slice reply 26 4 = List.ofFn s.myIp
  dstIp : slice reply 30 4 = List.ofFn r.srcIp
  type : slice reply 34 1 = [icmpEchoRep]
  message : slice reply 38 (r.totalLen - 24) = r.message
  ipVerifies : ipChecksum (slice reply 14 20) = 0
  icmpVerifies : ipChecksum (slice reply 34 (r.totalLen - 20)) = 0

/-- What the padding adds to the sum over the message. Its first byte is a high byte after a
message of odd length. -/
def padSum (r : EchoRequest) : Nat := wordSum (if r.payload.length % 2 = 1 then 0 :: r.pad else r.pad)

/-- The padding leaves the checksum of the message as it is. -/
def PadUnnoticed (r : EchoRequest) : Prop :=
  padSum r ≡ 0 [MOD 65535] ∧ (r.code = 0 → (∀ b ∈ r.message, b = 0) → ∀ b ∈ r.pad, b = 0)

/-- What the host sends when it gets the frame answers it. -/
def Answered (stack : Stack) (s : Net η) (stale : Mem) (r : EchoRequest) : Prop :=
  ∃ reply, (handleFrame stack s (storeBytes stale 0 r.frame) (UInt16.ofNat r.frame.length)).val.sent =
    s.sent ++ [reply] ∧ Answers s r reply

variable {η : Type} {s : Net η} {m pkt : Mem} {fields : List (List UInt8)} {a b b' c : List UInt8} {base k j : Nat}

/-- A store of a field leaves the other fields as they are. -/
theorem store_field (k base : Nat) (b : List UInt8) (h : HoldsBytes m 0 fields.flatten) (hold : fields[k]? = some a)
    (hbase : offset fields k = base) (hlen : b.length = a.length) :
    HoldsBytes (storeBytes m base b) 0 (fields.set k b).flatten := by
  obtain ⟨hk, rfl⟩ := List.getElem?_eq_some_iff.mp hold
  rw [flatten_field hk] at h
  rw [flatten_set hk, ← hbase, ← Nat.zero_add (offset fields k)]
  exact store_splice h hlen

theorem holds_slice (h : HoldsBytes m 0 b) (hfit : base + k ≤ b.length) :
    List.ofFn (readCells m base k).val = slice b base k := by
  have hlen : (slice b base k).length = k := by
    simp [slice]
    omega
  refine List.ext_getElem (by simp [hlen]) (fun j hj hj' => ?_)
  rw [List.getElem_ofFn, read_cells_val]
  have hcell := h (base + j) (by omega)
  rw [Nat.zero_add] at hcell
  simp [slice, hcell]

theorem cells_of_holds (h : HoldsBytes m 0 b) : (List.range b.length).map m = b := by
  refine List.ext_getElem (by simp) (fun j hj hj' => ?_)
  rw [List.getElem_map, List.getElem_range, ← h j hj', Nat.zero_add]

theorem holds_field (h : HoldsBytes m 0 fields.flatten) (hfield : fields[k]? = some b)
    (hbase : offset fields k = base) : HoldsBytes m base b := by
  obtain ⟨hk, rfl⟩ := List.getElem?_eq_some_iff.mp hfield
  rw [flatten_field hk, holds_bytes_append, holds_bytes_append] at h
  have hcells := h.1.2
  rwa [Nat.zero_add, ← offset, hbase] at hcells

theorem cells_of_fn {n : Nat} {f : Fin n → UInt8} (h : HoldsBytes m base (List.ofFn f)) :
    (readCells m base n).val = f := by
  funext i
  have hcell := h i (by simp)
  rwa [List.getElem_ofFn] at hcell

section Fields
variable {r : EchoRequest} {dst src : Mac} {ipCheck check : UInt16} {srcIp dstIp : Ip} {type : UInt8}

theorem length_head (r : EchoRequest) : r.head.length = 10 := rfl

theorem length_message (r : EchoRequest) : r.message.length = 4 + r.payload.length := by
  simp [EchoRequest.message, u16Bytes]
  omega

theorem length_fields : (r.fields dst src ipCheck srcIp dstIp type check).flatten.length =
    42 + r.payload.length + r.pad.length := by
  simp [EchoRequest.fields, length_head, length_message, u16Bytes]
  omega

/-- The checksum that the reply's header gets. -/
def headSum (r : EchoRequest) (srcIp : Ip) : UInt16 :=
  ipChecksum (r.head ++ u16Bytes 0 ++ (List.ofFn srcIp ++ List.ofFn r.srcIp))

/-- The checksum that the reply's message gets, over the padding too. -/
def messageSum (r : EchoRequest) : UInt16 :=
  ipChecksum ([icmpEchoRep, r.code] ++ u16Bytes 0 ++ r.message ++ r.pad)

def EchoRequest.reply (r : EchoRequest) (s : Net η) : List UInt8 :=
  (r.fields r.src s.myMac (headSum r s.myIp) s.myIp r.srcIp icmpEchoRep (messageSum r)).flatten

theorem head_sum_at (h : HoldsBytes m 0 (r.fields dst src 0 srcIp r.srcIp type check).flatten) :
    (ipChecksumAt m 14 20).val = headSum r srcIp := by
  have hread : List.ofFn (readCells m 14 20).val = r.head ++ u16Bytes 0 ++ (List.ofFn srcIp ++ List.ofFn r.srcIp) := by
    rw [holds_slice h (by rw [length_fields]; omega)]
    exact slice_fields 3 4 (by simp [EchoRequest.fields]) rfl rfl
  exact congrArg ipChecksum hread

theorem message_sum_at (h : HoldsBytes m 0 (r.fields dst src ipCheck srcIp dstIp icmpEchoRep 0).flatten) :
    (ipChecksumAt m 34 (8 + r.payload.length + r.pad.length)).val = messageSum r := by
  have hread : List.ofFn (readCells m 34 (8 + r.payload.length + r.pad.length)).val =
      [icmpEchoRep, r.code] ++ u16Bytes 0 ++ r.message ++ r.pad := by
    rw [holds_slice h (by rw [length_fields]; omega)]
    apply slice_fields 7 5 (by simp [EchoRequest.fields]) rfl
    simp [length_message, u16Bytes]
    omega
  exact congrArg ipChecksum hread

theorem handle_icmp_sent (stack : Stack) (s : Net η) (h : HoldsBytes pkt 0 r.frame) {len : UInt16}
    (hlen : len.toNat = r.frame.length) : (handleIcmp stack s pkt len).val.sent = s.sent ++ [r.reply s] := by
  have hcount : r.frame.length = 42 + r.payload.length + r.pad.length := length_fields
  have hfits := r.fits
  have htype : pkt 34 = icmpEchoReq := holds_field (k := 7) h rfl rfl 0 Nat.one_pos
  have hsrc : (readCells pkt 26 4).val = r.srcIp := cells_of_fn (holds_field (k := 5) h rfl rfl)
  have hdst : (readCells pkt 6 6).val = r.src := cells_of_fn (holds_field (k := 1) h rfl rfl)
  have hnot : ¬ len > 1500 := by
    intro hlong
    have hgt := UInt16.lt_iff_toNat_lt.mp hlong
    rw [hlen, hcount] at hgt
    exact absurd hfits (Nat.not_le_of_lt hgt)
  have hicmp : sub32 (sub32 len.toNat 14) 20 = 8 + r.payload.length + r.pad.length := by
    have hip : sub32 len.toNat 14 = len.toNat - 14 := sub32_of_le (by omega) (by omega)
    rw [hip, sub32_of_le (by omega) (by omega)]
    omega
  have hcopy : List.ofFn (readCells pkt 0 len.toNat).val = r.frame := by
    rw [holds_slice h (by omega), hlen, slice, List.drop_zero, List.take_length]
  -- each store replaces one field
  have h₀ : HoldsBytes (storeBytes stack.reply 0 r.frame) 0 r.frame := store_bytes_holds _ _ _
  have h₁ : HoldsBytes _ 0 (r.fields r.src r.src r.ipCheck r.srcIp r.dstIp icmpEchoReq r.check).flatten :=
    store_field 0 0 (List.ofFn r.src) h₀ rfl rfl rfl
  have h₂ : HoldsBytes _ 0 (r.fields r.src s.myMac r.ipCheck r.srcIp r.dstIp icmpEchoReq r.check).flatten :=
    store_field 1 6 (List.ofFn s.myMac) h₁ rfl rfl rfl
  have h₃ : HoldsBytes _ 0 (r.fields r.src s.myMac r.ipCheck r.srcIp r.srcIp icmpEchoReq r.check).flatten :=
    store_field 6 30 (List.ofFn r.srcIp) h₂ rfl rfl rfl
  have h₄ : HoldsBytes _ 0 (r.fields r.src s.myMac r.ipCheck s.myIp r.srcIp icmpEchoReq r.check).flatten :=
    store_field 5 26 (List.ofFn s.myIp) h₃ rfl rfl rfl
  have h₅ : HoldsBytes _ 0 (r.fields r.src s.myMac 0 s.myIp r.srcIp icmpEchoReq r.check).flatten :=
    store_field 4 24 (u16Bytes 0) h₄ rfl rfl rfl
  have h₆ : HoldsBytes _ 0 (r.fields r.src s.myMac (headSum r s.myIp) s.myIp r.srcIp icmpEchoReq r.check).flatten :=
    store_field 4 24 (u16Bytes (headSum r s.myIp)) h₅ rfl rfl rfl
  have h₇ : HoldsBytes _ 0 (r.fields r.src s.myMac (headSum r s.myIp) s.myIp r.srcIp icmpEchoRep r.check).flatten :=
    store_field 7 34 [icmpEchoRep] h₆ rfl rfl rfl
  have h₈ : HoldsBytes _ 0 (r.fields r.src s.myMac (headSum r s.myIp) s.myIp r.srcIp icmpEchoRep 0).flatten :=
    store_field 9 36 (u16Bytes 0) h₇ rfl rfl rfl
  have h₉ : HoldsBytes _ 0 (r.reply s) := store_field 9 36 (u16Bytes (messageSum r)) h₈ rfl rfl rfl
  have hsent := cells_of_holds h₉
  have hreply : (r.reply s).length = len.toNat := length_fields.trans (hcount.symm.trans hlen.symm)
  unfold handleIcmp
  rw [bind_val, read_cell_val, if_neg (not_not.mpr htype)]
  simp only [bind_val]
  generalize hlen' : (if len > 1500 then 1500 else len) = len'
  rw [if_neg hnot] at hlen'
  subst hlen'
  rw [hsrc, hdst, hcopy, head_sum_at h₅, hicmp, message_sum_at h₈, ← hreply, hsent]
  rfl

/-- The reply in all but the checksum of its message. -/
theorem reply_answers_iff (r : EchoRequest) (s : Net η) : Answers s r (r.reply s) ↔
    ipChecksum ([icmpEchoRep, r.code] ++ u16Bytes (messageSum r) ++ r.message) = 0 := by
  have hslice : slice (r.reply s) 34 (r.totalLen - 20) =
      [icmpEchoRep, r.code] ++ u16Bytes (messageSum r) ++ r.message := by
    apply slice_fields 7 4 (by simp [EchoRequest.fields]) rfl
    simp [length_message, u16Bytes, EchoRequest.totalLen]
    omega
  constructor
  · intro h
    rw [← hslice]
    exact h.icmpVerifies
  · intro hsum
    exact {
      dst := slice_fields 0 1 (by simp [EchoRequest.fields]) rfl rfl
      src := slice_fields 1 1 (by simp [EchoRequest.fields]) rfl rfl
      srcIp := slice_fields 5 1 (by simp [EchoRequest.fields]) rfl rfl
      dstIp := slice_fields 6 1 (by simp [EchoRequest.fields]) rfl rfl
      type := slice_fields 7 1 (by simp [EchoRequest.fields]) rfl rfl
      message := by
        apply slice_fields 10 1 (by simp [EchoRequest.fields]) rfl
        simp [length_message, EchoRequest.totalLen]
        omega
      ipVerifies := by
        have hhead : slice (r.reply s) 14 20 =
            r.head ++ u16Bytes (headSum r s.myIp) ++ (List.ofFn s.myIp ++ List.ofFn r.srcIp) :=
          slice_fields 3 4 (by simp [EchoRequest.fields]) rfl rfl
        rw [hhead]
        apply checksum_verifies
        · rw [length_head]
        · simp [length_head]
      icmpVerifies := by
        rw [hslice]
        exact hsum }

theorem checksum_zero_iff {data : List UInt8} (hlen : data.length ≤ 65535) :
    ipChecksum data = 0 ↔ foldCarries (wordSum data) = 65535 := by
  have hfold := fold_carries_lt (wordSum data)
  rw [← UInt16.toNat_inj, ip_checksum_to_nat hlen, UInt16.toNat_zero]
  omega

/-- The message without its checksum adds up to zero only where it is all zero. -/
theorem message_sum_zero (r : EchoRequest) :
    wordSum ([icmpEchoRep, r.code] ++ u16Bytes 0 ++ r.message) = 0 ↔ r.code = 0 ∧ ∀ b ∈ r.message, b = 0 := by
  rw [word_sum_eq_zero]
  simp [icmpEchoRep, u16Bytes]

theorem pad_sum_zero (r : EchoRequest) : padSum r = 0 ↔ ∀ b ∈ r.pad, b = 0 := by
  unfold padSum
  rw [word_sum_eq_zero]
  split <;> simp

/-- The checksum over message and padding verifies over the message alone exactly when the
padding adds nothing. -/
theorem message_verifies_iff (r : EchoRequest) :
    ipChecksum ([icmpEchoRep, r.code] ++ u16Bytes (messageSum r) ++ r.message) = 0 ↔ PadUnnoticed r := by
  have hfits := r.fits
  have hmessage := length_message r
  have hlength : ∀ v, ([icmpEchoRep, r.code] ++ u16Bytes v ++ r.message).length = 8 + r.payload.length := by
    intro v
    simp [hmessage, u16Bytes]
    omega
  have hsum : wordSum ([icmpEchoRep, r.code] ++ u16Bytes 0 ++ r.message ++ r.pad) =
      wordSum ([icmpEchoRep, r.code] ++ u16Bytes 0 ++ r.message) + padSum r := by
    rw [word_sum_append_aligned, hlength, Nat.add_mod, Nat.zero_add, Nat.mod_mod]
    rfl
  have hshort : ([icmpEchoRep, r.code] ++ u16Bytes 0 ++ r.message ++ r.pad).length ≤ 65535 := by
    rw [List.length_append, hlength]
    omega
  have heven : [icmpEchoRep, r.code].length % 2 = 0 := by simp
  rw [checksum_zero_iff (by rw [hlength]; omega), word_sum_field heven, messageSum, ip_checksum_to_nat hshort,
    fold_carries_complement_iff, hsum, Nat.add_eq_zero_iff]
  unfold PadUnnoticed
  rw [← pad_sum_zero]
  constructor
  · rintro ⟨hmod, hzero⟩
    refine ⟨Nat.ModEq.add_left_cancel' _ hmod, fun hcode hall => ?_⟩
    exact (hzero ((message_sum_zero r).mpr ⟨hcode, hall⟩)).2
  · rintro ⟨hmod, hzero⟩
    refine ⟨hmod.add_left _, fun hall => ⟨hall, ?_⟩⟩
    obtain ⟨hcode, hbytes⟩ := (message_sum_zero r).mp hall
    exact hzero hcode hbytes

end Fields

variable {r : EchoRequest}

/-- The frame is handed to `handle_icmp`. -/
theorem handle_frame_icmp (stack : Stack) {len : UInt16} (h : HoldsBytes pkt 0 r.frame) (hmine : r.dstIp = s.myIp) :
    (handleFrame stack s pkt len).val = (handleIcmp stack s pkt len).val := by
  have htype : frameType pkt = ethTypeIp := by
    have hfield : HoldsBytes pkt 12 (u16Bytes (htons ethTypeIp)) := holds_field (k := 2) h rfl rfl
    rw [frameType, load_u16_holds hfield, htons_htons]
  have haddr : addr pkt 30 = s.myIp := (addr_holds (holds_field (k := 6) h rfl rfl)).trans hmine
  have hproto : pkt 23 = ipProtoIcmp := holds_field (k := 3) h rfl rfl 9 (Nat.lt_succ_self 9)
  have hudp : pkt 23 ≠ ipProtoUdp := by
    rw [hproto]
    decide
  rw [handle_frame_ip stack len htype]
  unfold handleIp
  rw [bind_val, compare_addr.mpr haddr, Bool.not_true, if_neg Bool.false_ne_true, bind_val, read_cell_val,
    if_pos hproto, bind_val, bind_val, read_cell_val, if_neg hudp, pure_val]

theorem answered_iff_verifies (stack : Stack) (s : Net η) (stale : Mem) (r : EchoRequest) (hmine : r.dstIp = s.myIp) :
    Answered stack s stale r ↔
      ipChecksum ([icmpEchoRep, r.code] ++ u16Bytes (messageSum r) ++ r.message) = 0 := by
  have hfits := r.fits
  have hcount : r.frame.length = 42 + r.payload.length + r.pad.length := length_fields
  have hsize : r.frame.length < UInt16.size := by
    have hmax : UInt16.size = 65536 := rfl
    omega
  have hholds : HoldsBytes (storeBytes stale 0 r.frame) 0 r.frame := store_bytes_holds _ _ _
  unfold Answered
  rw [handle_frame_icmp stack hholds hmine, handle_icmp_sent stack s hholds (UInt16.toNat_ofNat_of_lt' hsize),
    ← reply_answers_iff r s]
  constructor
  · rintro ⟨reply, hsent, hanswers⟩
    obtain rfl := List.singleton_inj.mp (List.append_cancel_left hsent)
    exact hanswers
  · intro hanswers
    exact ⟨_, rfl, hanswers⟩

/-- The answer is right exactly when the checksum does not notice the padding. -/
theorem answered_iff (stack : Stack) (s : Net η) (stale : Mem) (r : EchoRequest) (hmine : r.dstIp = s.myIp) :
    Answered stack s stale r ↔ PadUnnoticed r :=
  (answered_iff_verifies stack s stale r hmine).trans (message_verifies_iff r)

/-- A ping of no payload, in a frame that the link fills up to 60 bytes. -/
def paddedPing (filler : UInt8) : EchoRequest where
  dst := fun _ => 0x52
  src := fun _ => 0x50
  tos := 0
  ident := 0
  flagsFrag := 0
  ttl := 64
  ipCheck := 0xD162
  srcIp := ![10, 0, 2, 2]
  dstIp := ![10, 0, 2, 15]
  code := 0
  check := 0xFEF6
  id := 1
  seq := 0x0100
  payload := []
  pad := List.replicate 18 filler
  fits := by simp

theorem answered_zero_filled : Answered zeroStack listener (fun _ => 0) (paddedPing 0) :=
  (answered_iff zeroStack listener (fun _ => 0) (paddedPing 0) rfl).mpr ⟨by decide, by decide⟩

/-- Filled with other bytes than zeros the reply has a checksum that does not verify. -/
theorem padding_noticed : ¬ Answered zeroStack listener (fun _ => 0) (paddedPing 1) := by
  rw [answered_iff_verifies zeroStack listener _ (paddedPing 1) rfl, message_verifies_iff]
  rintro ⟨hmod, -⟩
  have hsum : padSum (paddedPing 1) = 2313 := by decide
  rw [hsum] at hmod
  revert hmod
  decide

end BaSic.Proofs.IcmpReply
