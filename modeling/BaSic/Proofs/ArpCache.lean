import BaSic.Proofs.NetBounds
import BaSic.Lib.SlotTable
import BaSic.Lib.Steps

namespace BaSic.Proofs.ArpCache
open Kernel Lib NetBounds

variable {η : Type}

def macAt (pkt : Mem) (i : Nat) : Mac := fun j => pkt (i + j)

/-- The sender of an ARP packet. -/
def senderIp (pkt : Mem) : Ip := addr pkt 28

def senderMac (pkt : Mem) : Mac := macAt pkt 22

/-- No address has two valid entries. -/
def Distinct (s : Net η) : Prop :=
  ∀ i j, (s.arpCache i).valid = true → (s.arpCache j).valid = true → (s.arpCache i).ip = (s.arpCache j).ip → i = j

/-- The address has an entry, or one is free. -/
def Room (s : Net η) (ip : Ip) : Prop := (arpCacheGet s ip).isSome = true ∨ ∃ i, (s.arpCache i).valid = false

/-- `handle_arp` on a packet. -/
def handle (s : Net η) (pkt : Mem) : Unit × Net η := ((), (handleArp s pkt).val)

/-- Right after the packet its sender is found with its MAC. -/
def Learns (s : Net η) (pkt : Mem) : Prop :=
  arpCacheGet (handleArp s pkt).val (senderIp pkt) = some (senderMac pkt)

/-- The cache as a table of slots. -/
def slots (s : Net η) : SlotTable 8 Ip Mac := fun i =>
  if (s.arpCache i).valid then some ((s.arpCache i).ip, (s.arpCache i).mac) else none

variable {s : Net η} {m pkt : Mem} {i : Fin 8} {k : Ip}

theorem slot_key : (slots s i).any (·.1 = k) = ((s.arpCache i).valid && (s.arpCache i).ip = k) := by
  unfold slots
  cases (s.arpCache i).valid <;> simp

theorem slot_free : (slots s i).isNone = !(s.arpCache i).valid := by
  unfold slots
  cases (s.arpCache i).valid <;> simp

theorem slots_apart : (slots s).Apart ↔ Distinct s := by
  unfold SlotTable.Apart Distinct
  simp only [slot_key, Bool.and_eq_true, decide_eq_true_eq]
  constructor
  · intro h i j hi hj hij
    exact h i j _ ⟨hi, rfl⟩ ⟨hj, hij.symm⟩
  · rintro h i j k ⟨hi, rfl⟩ ⟨hj, hij⟩
    exact h i j hi hj hij.symm

theorem free_entry : Fin.find? (fun i => !(s.arpCache i).valid) = (slots s).freeSlot := by
  unfold SlotTable.freeSlot
  simp only [slot_free]

theorem arp_cache_get_eq (s : Net η) (ip : Ip) : arpCacheGet s ip = (slots s).lookup ip := by
  unfold arpCacheGet SlotTable.lookup SlotTable.slotOf
  simp only [slot_key]
  cases hi : Fin.find? (fun i => (s.arpCache i).valid && decide ((s.arpCache i).ip = ip)) with
  | none => rfl
  | some i =>
    have hvalid := (Fin.find?_eq_some_iff.mp hi).1
    rw [Bool.and_eq_true] at hvalid
    simp [slots, hvalid.1]

theorem room_iff {ip : Ip} : Room s ip ↔ (slots s).RoomFor ip := by
  have hfree : (∃ i, (s.arpCache i).valid = false) ↔ (slots s).freeSlot ≠ none := by
    rw [← free_entry, ne_eq, Fin.find?_eq_none_iff]
    simp
  unfold Room SlotTable.RoomFor
  rw [arp_cache_get_eq, Option.isSome_iff_ne_none, hfree]

/-- The scan finds the slot of the address. -/
theorem arp_find_slot (s : Net η) (m : Mem) (ip : Nat) :
    (arpFind s.arpCache m ip (List.finRange 8)).val = (slots s).slotOf (addr m ip) := by
  have hscan : ∀ is, (arpFind s.arpCache m ip is).val = is.find? (fun i => (slots s i).any (·.1 = addr m ip)) := by
    intro is
    induction is with
    | nil => rfl
    | cons i is ih =>
      have hnames : (arpMatches (s.arpCache i) m ip).val = (slots s i).any (·.1 = addr m ip) := by
        rw [Bool.eq_iff_iff, arp_matches_val, slot_key, Names, Bool.and_eq_true, decide_eq_true_eq]
        exact and_congr_right (fun _ => eq_comm)
      unfold arpFind
      rw [bind_val, hnames, List.find?_cons]
      cases (slots s i).any (·.1 = addr m ip) with
      | true => rfl
      | false => exact ih
  rw [hscan]
  exact Fin.find?_eq_find?_finRange.symm

theorem slots_update (s : Net η) (i : Fin 8) (ip : Ip) (mac : Mac) :
    slots { s with arpCache := Function.update s.arpCache i ⟨ip, mac, true⟩ } = (slots s).write i ip mac := by
  funext j
  unfold slots SlotTable.write
  by_cases hj : j = i
  · subst hj
    simp
  · simp [Function.update_of_ne hj]

theorem arp_cache_set_slots (s : Net η) (m : Mem) (ip mac : Nat) :
    slots (arpCacheSet s m ip mac).val = (slots s).store (addr m ip) (macAt m mac) := by
  unfold arpCacheSet SlotTable.store
  rw [bind_val, arp_find_slot]
  cases hi : (slots s).slotOf (addr m ip) with
  | some i =>
    have hkey := (SlotTable.slot_of_some.mp hi).1
    rw [slot_key, Bool.and_eq_true, decide_eq_true_eq] at hkey
    have hupdate := slots_update s i (addr m ip) (macAt m mac)
    have hentry : (⟨addr m ip, macAt m mac, true⟩ : ArpEntry) = { s.arpCache i with mac := macAt m mac } := by
      rw [← hkey.2, ← hkey.1]
    rw [hentry] at hupdate
    exact hupdate
  | none =>
    dsimp only
    rw [free_entry]
    cases (slots s).freeSlot with
    | some i => exact slots_update s i (addr m ip) (macAt m mac)
    | none => rfl

theorem kept_slots : Kept (slots : Net η → SlotTable 8 Ip Mac) := ⟨fun _ _ => rfl, fun _ _ => rfl⟩

/-- Only the cache entry of the sender is written. -/
theorem handle_arp_slots (s : Net η) (pkt : Mem) :
    slots (handleArp s pkt).val = (slots s).store (senderIp pkt) (senderMac pkt) :=
  (kept_slots.handle_arp s pkt).trans (arp_cache_set_slots s pkt 28 22)

theorem learns_iff : Learns s pkt ↔ Room s (senderIp pkt) := by
  unfold Learns
  rw [arp_cache_get_eq, handle_arp_slots, SlotTable.lookup_store_iff, room_iff]

theorem Distinct.handle (h : Distinct s) (pkt : Mem) : Distinct (handleArp s pkt).val := by
  rw [← slots_apart] at h ⊢
  rw [handle_arp_slots]
  exact h.store _ _

theorem net_init_distinct (s : Net η) (mac : Mac) (null : η) : Distinct (netInit s mac null) := by
  rw [← slots_apart]
  unfold netInit
  rw [arp_cache_set_slots]
  refine SlotTable.Apart.store (fun i j k hi => ?_) _ _
  cases hi

variable {stack : Stack} {buf : Mem} {ip : Ip}

/-- A frame stores its sender if it is an ARP packet, and else leaves the cache alone. -/
theorem handle_frame_slots (stack : Stack) (s : Net η) (buf : Mem) (n : UInt16) :
    slots (handleFrame stack s buf n).val =
      if frameType buf = ethTypeArp then (slots s).store (senderIp buf) (senderMac buf) else slots s := by
  unfold handleFrame
  split
  · exact handle_arp_slots s buf
  · split
    · exact kept_slots.handle_ip stack s buf n
    · rfl

/-- What every store keeps of the cache, every poll keeps. -/
theorem net_poll_keeps {I : SlotTable 8 Ip Mac → Prop} (hstore : ∀ t k v, I t → I (t.store k v)) (frames : List (List UInt8))
    (h : I (slots s)) : I (slots (netPoll stack s buf frames)) := by
  refine net_poll_rule (I := fun t => I (slots t)) (fun t buf n h => ?_) frames h
  rw [handle_frame_slots]
  split
  · exact hstore _ _ _ h
  · exact h

/-- Frames that are not empty are handled one after the other. -/
theorem net_poll_append {before : List (List UInt8)} (hbefore : ∀ frame ∈ before, frame ≠ []) (rest : List (List UInt8)) :
    ∃ buf', netPoll stack s buf (before ++ rest) = netPoll stack (netPoll stack s buf before) buf' rest := by
  induction before generalizing s buf with
  | nil => exact ⟨buf, rfl⟩
  | cons frame before ih =>
    have hlen : (frame.take 1500).length > 0 := by
      have hne := List.length_pos_of_ne_nil (hbefore frame List.mem_cons_self)
      rw [List.length_take]
      omega
    rw [List.cons_append, netPoll, netPoll]
    dsimp only
    rw [if_pos hlen, if_pos hlen]
    exact ih (fun frame hf => hbefore frame (List.mem_cons_of_mem _ hf))

/-- An ARP packet of the sender, in full. -/
structure ArpFrom (frame : List UInt8) (ip : Ip) : Prop where
  size : 42 ≤ frame.length
  type : frameType (fun i => frame.getD i 0) = ethTypeArp
  sender : senderIp (fun i => frame.getD i 0) = ip

theorem received_read {frame : List UInt8} (hsize : 42 ≤ frame.length) {i : Nat} (hi : i < 42) :
    storeBytes buf 0 (frame.take 1500) i = frame.getD i 0 := by
  unfold storeBytes
  rw [if_pos (Nat.zero_le i), Nat.sub_zero, List.getD_eq_getElem _ _ (by rw [List.length_take]; omega),
    List.getD_eq_getElem _ _ (by omega), List.getElem_take]

/-- A poll with the packet in it knows the sender at its end if there was room for it, and
has no room for it any more if there was none. -/
theorem poll_reply {before : List (List UInt8)} {reply : List UInt8} (hbefore : ∀ frame ∈ before, frame ≠ [])
    (hreply : ArpFrom reply ip) (after : List (List UInt8)) :
    (Room (netPoll stack s buf before) ip → (slots (netPoll stack s buf (before ++ reply :: after))).lookup ip ≠ none) ∧
      (¬ Room (netPoll stack s buf before) ip → ¬ (slots (netPoll stack s buf (before ++ reply :: after))).RoomFor ip) := by
  obtain ⟨stale, hpoll⟩ : ∃ stale, netPoll stack s buf (before ++ reply :: after) =
      netPoll stack (netPoll stack s buf before) stale (reply :: after) := net_poll_append hbefore _
  have hlen : (reply.take 1500).length > 0 := by
    have hsize := hreply.size
    rw [List.length_take]
    omega
  have hread : ∀ i, i < 42 → storeBytes stale 0 (reply.take 1500) i = reply.getD i 0 :=
    fun i hi => received_read hreply.size hi
  have htype : frameType (storeBytes stale 0 (reply.take 1500)) = ethTypeArp := by
    rw [← hreply.type]
    unfold frameType loadU16
    simp only [bind_val, read_cell_val, pure_val, hread 12 (by omega), hread 13 (by omega)]
  have hsender : senderIp (storeBytes stale 0 (reply.take 1500)) = ip := by
    rw [← hreply.sender]
    funext j
    exact hread (28 + j) (by omega)
  rw [hpoll, netPoll]
  dsimp only
  rw [if_pos hlen, room_iff]
  constructor
  · intro hroom
    refine net_poll_keeps (I := fun t => t.lookup ip ≠ none) (fun t k v h => SlotTable.lookup_store_some h) after ?_
    rw [handle_frame_slots, if_pos htype, hsender, SlotTable.lookup_store_iff.mpr hroom]
    exact Option.some_ne_none _
  · intro hroom
    refine net_poll_keeps (I := fun t => ¬ t.RoomFor ip) (fun t k v h => SlotTable.no_room_store h) after ?_
    rw [handle_frame_slots, if_pos htype]
    exact SlotTable.no_room_store hroom

/-- The state after rounds of a wait that have not ended it. -/
def polled (stack : Stack) (s : Net η) (rounds : List (List (List UInt8))) : Net η :=
  rounds.foldl (fun s frames => netPoll stack s stack.buf frames) s

theorem polled_keeps {I : SlotTable 8 Ip Mac → Prop} (hstore : ∀ t k v, I t → I (t.store k v))
    (rounds : List (List (List UInt8))) (h : I (slots s)) : I (slots (polled stack s rounds)) := by
  induction rounds generalizing s with
  | nil => exact h
  | cons frames rounds ih => exact ih (net_poll_keeps hstore frames h)

/-- The wait succeeds exactly when the address is known after all its rounds, since what is
known stays so. -/
theorem arp_wait_iff {rounds : List (List (List UInt8))} (hne : rounds ≠ []) :
    (arpWait stack ip s rounds).1 = true ↔ (slots (polled stack s rounds)).lookup ip ≠ none := by
  induction rounds generalizing s with
  | nil => exact absurd rfl hne
  | cons frames rounds ih =>
    have hget := Option.isSome_iff_ne_none (o := arpCacheGet (netPoll stack s stack.buf frames) ip)
    rw [arp_cache_get_eq] at hget
    unfold arpWait
    dsimp only
    rw [arp_cache_get_eq]
    by_cases hknown : ((slots (netPoll stack s stack.buf frames)).lookup ip).isSome = true
    · rw [if_pos hknown]
      refine iff_of_true rfl ?_
      exact polled_keeps (I := fun t => t.lookup ip ≠ none) (fun t k v h => SlotTable.lookup_store_some h) rounds
        (hget.mp hknown)
    · rw [if_neg hknown]
      cases rounds with
      | nil => exact iff_of_false Bool.false_ne_true (fun h => hknown (hget.mpr h))
      | cons next rounds => exact ih (List.cons_ne_nil next rounds)

/-- The state after the request has been sent. -/
def requested (s : Net η) (ip : Ip) : Net η :=
  e1000Send s (ethHdr bcast s.myMac ethTypeArp ++ arpPkt arpRequest s.myMac s.myIp (fun _ => 0) ip)

/-- The state in which the reply is handled that comes after the rounds and frames given. -/
def whenHandled (stack : Stack) (s : Net η) (ip : Ip) (rounds : List (List (List UInt8))) (before : List (List UInt8)) :
    Net η :=
  netPoll stack (polled stack (requested s ip) rounds) stack.buf before

/-- A request whose reply arrives succeeds exactly when there is room for it by then. -/
theorem request_resolves_iff {arrivals : Fin 50 → List (List UInt8)} {rounds later : List (List (List UInt8))}
    {before after : List (List UInt8)} {reply : List UInt8}
    (harrives : List.ofFn arrivals = rounds ++ (before ++ reply :: after) :: later)
    (hbefore : ∀ frame ∈ before, frame ≠ []) (hreply : ArpFrom reply ip) :
    (netArpRequest stack s ip arrivals).1 = true ↔ Room (whenHandled stack s ip rounds before) ip := by
  have hrequest : netArpRequest stack s ip arrivals = arpWait stack ip (requested s ip) (List.ofFn arrivals) := rfl
  have hpolled : polled stack (requested s ip) (rounds ++ (before ++ reply :: after) :: later) =
      polled stack (netPoll stack (polled stack (requested s ip) rounds) stack.buf (before ++ reply :: after)) later := by
    unfold polled
    rw [List.foldl_append, List.foldl_cons]
  obtain ⟨hknown, hnone⟩ : (Room (whenHandled stack s ip rounds before) ip → _) ∧ _ := poll_reply hbefore hreply after
  rw [hrequest, harrives, arp_wait_iff (by simp), hpolled]
  constructor
  · intro hlast
    by_contra hroom
    refine polled_keeps (I := fun t => ¬ t.RoomFor ip) (fun t k v h => SlotTable.no_room_store h) later
      (hnone hroom) (Or.inl hlast)
  · intro hroom
    exact polled_keeps (I := fun t => t.lookup ip ≠ none) (fun t k v h => SlotTable.lookup_store_some h) later
      (hknown hroom)

/-- After `net_init` the cached addresses stay distinct, and packets and replies are learnt
exactly as long as there is room for their senders. -/
theorem arp_cache_learns (s : Net η) (mac : Mac) (null : η) (pkts : List Mem) :
    Distinct (run handle (netInit s mac null) pkts).2 ∧
    (Along Learns handle (netInit s mac null) pkts ↔
      Along (fun s pkt => Room s (senderIp pkt)) handle (netInit s mac null) pkts) ∧
    ∀ (stack : Stack) (ip : Ip) (arrivals : Fin 50 → List (List UInt8)) (rounds later : List (List (List UInt8)))
      (before after : List (List UInt8)) (reply : List UInt8),
      List.ofFn arrivals = rounds ++ (before ++ reply :: after) :: later → (∀ frame ∈ before, frame ≠ []) →
      ArpFrom reply ip →
      ((netArpRequest stack (run handle (netInit s mac null) pkts).2 ip arrivals).1 = true ↔
        Room (whenHandled stack (run handle (netInit s mac null) pkts).2 ip rounds before) ip) := by
  refine ⟨?_, ?_, ?_⟩
  · exact run_invariant (Q := fun _ => True) (fun s pkt _ h => h.handle pkt) (fun _ _ => trivial)
      (net_init_distinct s mac null)
  · exact Along.congr (I := fun _ => True) (fun _ _ _ _ => trivial) (fun s pkt _ => learns_iff) trivial pkts
  · intro stack ip arrivals rounds later before after reply harrives hbefore hreply
    exact request_resolves_iff harrives hbefore hreply

/-- A reply from `10.0.2.3` -/
def replyFrame : List UInt8 :=
  ethHdr (fun _ => 0x52) (fun _ => 0x50) ethTypeArp ++ arpPkt arpReply (fun _ => 0x50) ![10, 0, 2, 3] (fun _ => 0x52) ![10, 0, 2, 15]

/-- An ARP packet from `0.0.0.n`. -/
def hello (n : UInt8) : Mem := fun i => if i = 31 then n else 0

/-- Three senders are learnt, one of them twice, and then `10.0.2.3` answers. -/
theorem arp_cache_learns_reply :
    Along Learns handle (netInit listener bcast ()) ([1, 2, 1, 3].map hello) ∧
      (netArpRequest zeroStack (run handle (netInit listener bcast ()) ([1, 2, 1, 3].map hello)).2 ![10, 0, 2, 3]
        (fun _ => [replyFrame])).1 = true := by
  obtain ⟨-, hlearns, hrequest⟩ := arp_cache_learns listener bcast () ([1, 2, 1, 3].map hello)
  refine ⟨hlearns.mpr ?_, ?_⟩
  · unfold Room
    decide
  · refine (hrequest zeroStack ![10, 0, 2, 3] (fun _ => [replyFrame]) [] _ [] [] replyFrame rfl
      (fun frame h => by cases h) ⟨by decide, by decide, by decide⟩).mpr ?_
    unfold Room
    decide

/-- With the gateway and seven others in the cache the eighth is not learnt. -/
theorem ninth_sender_lost : ¬ ∀ (s : Net Unit) (mac : Mac) (pkts : List Mem), Along Learns handle (netInit s mac ()) pkts := by
  intro h
  have hlast := Along.iff_split.mp (h listener bcast ([1, 2, 3, 4, 5, 6, 7, 8].map hello))
    ([1, 2, 3, 4, 5, 6, 7].map hello) (hello 8) [] rfl
  revert hlast
  unfold Learns
  decide

end BaSic.Proofs.ArpCache
