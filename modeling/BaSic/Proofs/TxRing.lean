import BaSic.Kernel.E1000

namespace BaSic.Proofs.TxRing
open Kernel Lib

/-- The buffer of the `k`-th frame. -/
def slot (k : Nat) : Nat := k % e1000NumTx

/-- The frame is whole in its buffer, and its descriptor says how long it is. -/
structure Stored (dev : E1000Tx) (k : Nat) (frame : List UInt8) : Prop where
  bytes : ∀ i (h : i < frame.length), dev.txBuf (slot k) i = frame[i]
  length : (dev.txRing (slot k)).length.toNat = frame.length
  cmd : (dev.txRing (slot k)).cmd = txCmd

/-- The frames that the NIC has been told of. -/
def handed : SendPc → List (List UInt8) → List (List UInt8)
  | .copying _, taken | .describing _, taken | .clearing _, taken | .advancing _, taken | .ringing _ _, taken =>
    taken.dropLast
  | _, taken => taken

/-- What the NIC sends if it is left to work, in so many steps. -/
def drain : Nat → E1000Tx → List (List UInt8)
  | 0, _ => []
  | n + 1, dev =>
    match nicTransmit dev with
    | (none, _) => []
    | (some frame, dev) => frame :: drain n dev

/-- Every frame handed over is on the wire or still goes there, whole, once and in order. -/
def AllGo (s : TxLink) : Prop := s.wire ++ drain e1000NumTx s.dev = handed s.pc s.taken

/-- The doorbell is rung with fewer than all the buffers waiting. -/
def RoomLeft (s : TxLink) (e : TxEvent) : Prop :=
  match e, s.pc with
  | .next, .ringing _ _ => s.taken.length < s.wire.length + e1000NumTx
  | _, _ => True

/-- A call about to return that finds the done bit says so of its frame, and of all before it. -/
def TellsTruth (s : TxLink) : Prop :=
  match s.pc with
  | .testing desc _ => (s.dev.txRing desc).status ≠ 0 ↔ s.wire = s.taken
  | _ => True

variable {dev dev' : E1000Tx} {sent wire taken : List (List UInt8)} {frame data : List UInt8} {s : TxLink} {k : Nat}

theorem slot_ne {j k : Nat} (hjk : j < k) (hturn : k < j + e1000NumTx) : slot k ≠ slot j := by
  unfold slot
  unfold e1000NumTx at hturn ⊢
  omega

theorem slot_succ (k : Nat) : (slot k + 1) % e1000NumTx = slot (k + 1) := Nat.mod_add_mod k e1000NumTx 1

theorem slot_eq {j k : Nat} (hjk : j ≤ k) (hturn : k ≤ j + e1000NumTx) (h : slot k = slot j) : k = j ∨ k = j + e1000NumTx := by
  unfold slot at h
  unfold e1000NumTx at hturn h ⊢
  omega

/-- The frames sent wait in the buffers from the head of the NIC to its tail. -/
structure Waits (dev : E1000Tx) (sent wire : List (List UInt8)) : Prop where
  head : dev.tdh = slot wire.length
  last : dev.tdt = slot sent.length
  order : wire <+: sent
  room : sent.length < wire.length + e1000NumTx
  stored : ∀ k frame, wire.length ≤ k → sent[k]? = some frame → Stored dev k frame ∧ (dev.txRing (slot k)).status = 0

/-- What the NIC changes when it sends a frame. -/
structure Sends (dev dev' : E1000Tx) : Prop where
  base : dev'.mmioBase = dev.mmioBase
  tail : dev'.txTail = dev.txTail
  tdt : dev'.tdt = dev.tdt
  head : dev'.tdh = (dev.tdh + 1) % e1000NumTx
  buf : dev'.txBuf = dev.txBuf
  ring : ∀ i, i ≠ dev.tdh → dev'.txRing i = dev.txRing i
  done : (dev.txRing dev.tdh).cmd = txCmd → (dev'.txRing dev.tdh).status ≠ 0

theorem nic_transmit_cases (dev : E1000Tx) :
    (dev.tdh = dev.tdt ∧ nicTransmit dev = (none, dev)) ∨ (dev.tdh ≠ dev.tdt ∧ ∃ dev', nicTransmit dev =
      (some ((List.range (dev.txRing dev.tdh).length.toNat).map (dev.txBuf dev.tdh)), dev') ∧ Sends dev dev') := by
  unfold nicTransmit
  by_cases hempty : dev.tdh = dev.tdt
  · exact Or.inl ⟨hempty, if_pos hempty⟩
  · refine Or.inr ⟨hempty, _, if_neg hempty, rfl, rfl, rfl, rfl, rfl, ?_, ?_⟩
    · exact fun i hi => Function.update_of_ne hi _ _
    · intro hcmd
      dsimp only
      rw [Function.update_self, hcmd, if_pos (by decide)]
      intro hzero
      have hval : (dev.txRing dev.tdh).status.toNat ||| 1 = 0 := (UInt8.toNat_or _ _).symm.trans (congrArg UInt8.toNat hzero)
      have hbit := Nat.right_le_or (n := (dev.txRing dev.tdh).status.toNat) (m := 1)
      omega

theorem Stored.image (h : Stored dev k frame) :
    (List.range (dev.txRing (slot k)).length.toNat).map (dev.txBuf (slot k)) = frame := by
  rw [h.length]
  refine List.ext_getElem ?_ (fun i hi hj => ?_)
  · rw [List.length_map, List.length_range]
  · rw [List.getElem_map, List.getElem_range]
    exact h.bytes i hj

theorem Stored.same (h : Stored dev k frame) (hbuf : dev'.txBuf = dev.txBuf) (hring : dev'.txRing = dev.txRing) :
    Stored dev' k frame := by
  refine ⟨fun i hi => ?_, ?_, ?_⟩
  · rw [hbuf]
    exact h.bytes i hi
  · rw [hring]
    exact h.length
  · rw [hring]
    exact h.cmd

theorem Stored.sends (h : Stored dev k frame) (hsends : Sends dev dev') (hother : slot k ≠ dev.tdh) : Stored dev' k frame := by
  refine ⟨fun i hi => ?_, ?_, ?_⟩
  · rw [hsends.buf]
    exact h.bytes i hi
  · rw [hsends.ring _ hother]
    exact h.length
  · rw [hsends.ring _ hother]
    exact h.cmd

/-- The NIC has nothing to do, or sends the first of the frames that wait. -/
theorem Waits.transmit (h : Waits dev sent wire) : (wire = sent ∧ nicTransmit dev = (none, dev)) ∨
    ∃ frame dev', nicTransmit dev = (some frame, dev') ∧ sent[wire.length]? = some frame ∧ Sends dev dev' ∧
      (dev.txRing dev.tdh).cmd = txCmd ∧ Waits dev' sent (wire ++ [frame]) := by
  obtain ⟨rest, hrest⟩ := h.order
  have hle := h.order.length_le
  have hroom := h.room
  rcases nic_transmit_cases dev with ⟨hempty, hnic⟩ | ⟨hne, dev', hnic, hsends⟩
  · left
    rw [h.head, h.last] at hempty
    have hlen : sent.length = wire.length := by
      rcases slot_eq hle (Nat.le_of_lt hroom) hempty.symm with heq | heq
      · exact heq
      · omega
    exact ⟨h.order.eq_of_length hlen.symm, hnic⟩
  · right
    rw [h.head, h.last] at hne
    cases rest with
    | nil =>
      rw [List.append_nil] at hrest
      exact absurd (congrArg (fun l => slot l.length) hrest) hne
    | cons frame rest =>
      have hfirst : sent[wire.length]? = some frame := by
        rw [← hrest, List.getElem?_append_right (Nat.le_refl _), Nat.sub_self]
        rfl
      obtain ⟨hstored, -⟩ := h.stored _ _ (Nat.le_refl _) hfirst
      have hlen : (wire ++ [frame]).length = wire.length + 1 := List.length_append
      rw [h.head] at hnic
      rw [hstored.image] at hnic
      refine ⟨frame, dev', hnic, hfirst, hsends, h.head ▸ hstored.cmd, ?_, ?_, ⟨rest, ?_⟩, by omega, fun k x hk hx => ?_⟩
      · rw [hsends.head, h.head, slot_succ, hlen]
      · rw [hsends.tdt, h.last]
      · rw [List.append_assoc]
        exact hrest
      · have hlt := (List.getElem?_eq_some_iff.mp hx).1
        have hother : slot k ≠ dev.tdh := by
          rw [h.head]
          exact slot_ne (by omega) (by omega)
        obtain ⟨hkept, hzero⟩ := h.stored k x (by omega) hx
        rw [hsends.ring _ hother]
        exact ⟨hkept.sends hsends hother, hzero⟩

theorem Waits.drain (h : Waits dev sent wire) (n : Nat) : drain n dev = (sent.drop wire.length).take n := by
  induction n generalizing dev wire with
  | zero => rfl
  | succ n ih =>
    unfold TxRing.drain
    rcases h.transmit with ⟨rfl, hnic⟩ | ⟨frame, dev', hnic, hfirst, -, -, hnext⟩
    · simp [hnic]
    · obtain ⟨hlt, hget⟩ := List.getElem?_eq_some_iff.mp hfirst
      rw [hnic]
      dsimp only
      rw [ih hnext, List.drop_eq_getElem_cons hlt, hget, List.length_append, List.take_succ_cons]
      rfl

theorem Waits.all_go (h : Waits dev sent wire) : wire ++ TxRing.drain e1000NumTx dev = sent := by
  obtain ⟨rest, rfl⟩ := h.order
  have hroom := h.room
  rw [h.drain, List.drop_left, List.take_of_length_le]
  rw [List.length_append] at hroom
  omega

/-- How far the call under way has come with its frame, whose buffer is the one behind those told of. -/
def Calls (dev : E1000Tx) (sent wire taken : List (List UInt8)) : SendPc → Prop
  | .idle => dev.txTail = slot sent.length ∧ taken = sent
  | .copying data => (dev.txTail = slot sent.length ∧ taken = sent ++ [data]) ∧ data.length ≤ e1000BufSize
  | .describing data => (dev.txTail = slot sent.length ∧ taken = sent ++ [data]) ∧ data.length ≤ e1000BufSize ∧
      ∀ i (h : i < data.length), dev.txBuf (slot sent.length) i = data[i]
  | .clearing data => (dev.txTail = slot sent.length ∧ taken = sent ++ [data]) ∧ Stored dev sent.length data
  | .advancing data => (dev.txTail = slot sent.length ∧ taken = sent ++ [data]) ∧ Stored dev sent.length data ∧
      (dev.txRing (slot sent.length)).status = 0
  | .ringing desc data => (dev.txTail = slot (sent.length + 1) ∧ taken = sent ++ [data]) ∧ desc = slot sent.length ∧
      Stored dev sent.length data ∧ (dev.txRing (slot sent.length)).status = 0
  | .waiting desc _ _ | .testing desc _ => (dev.txTail = slot sent.length ∧ taken = sent) ∧
      (∃ k, k + 1 = sent.length ∧ desc = slot k) ∧ ((dev.txRing desc).status ≠ 0 ↔ wire = sent)

/-- What holds after `e1000_init` as long as the ring is never overrun. -/
structure TxOk (s : TxLink) : Prop where
  base : s.dev.mmioBase ≠ 0
  waits : Waits s.dev (handed s.pc s.taken) s.wire
  calls : Calls s.dev (handed s.pc s.taken) s.wire s.taken s.pc

/-- The NIC does not come near the frame under way. -/
theorem Waits.under_way (h : Waits dev sent wire) (hfirst : wire.length < sent.length) : slot sent.length ≠ dev.tdh := by
  rw [h.head]
  exact slot_ne hfirst h.room

theorem Calls.transmit {pc : SendPc} (h : Calls dev sent wire taken pc) (hwaits : Waits dev sent wire)
    (hfirst : sent[wire.length]? = some frame) (hcmd : (dev.txRing dev.tdh).cmd = txCmd) (hsends : Sends dev dev')
    (hnext : Waits dev' sent (wire ++ [frame])) : Calls dev' sent (wire ++ [frame]) taken pc := by
  have hlt := (List.getElem?_eq_some_iff.mp hfirst).1
  have hother := hwaits.under_way hlt
  have hroom := hwaits.room
  have hdone : ∀ desc, (∃ k, k + 1 = sent.length ∧ desc = slot k) → ((dev.txRing desc).status ≠ 0 ↔ wire = sent) →
      ((dev'.txRing desc).status ≠ 0 ↔ wire ++ [frame] = sent) := by
    rintro desc ⟨k, hk, rfl⟩ hstatus
    by_cases hlast : k = wire.length
    · have hend : wire ++ [frame] = sent := by
        refine hnext.order.eq_of_length ?_
        rw [List.length_append, List.length_singleton]
        omega
      rw [hlast, ← hwaits.head]
      exact iff_of_true (hsends.done hcmd) hend
    · have hne : slot k ≠ dev.tdh := by
        rw [hwaits.head]
        exact slot_ne (by omega) (by omega)
      rw [hsends.ring _ hne]
      refine iff_of_false (fun hset => ?_) (fun hend => ?_)
      · have hall := hstatus.mp hset
        rw [hall] at hlt
        exact absurd hlt (Nat.lt_irrefl _)
      · have hcount := congrArg List.length hend
        rw [List.length_append, List.length_singleton] at hcount
        omega
  cases pc with
  | idle => exact ⟨hsends.tail.trans h.1, h.2⟩
  | copying data => exact ⟨⟨hsends.tail.trans h.1.1, h.1.2⟩, h.2⟩
  | describing data => exact ⟨⟨hsends.tail.trans h.1.1, h.1.2⟩, h.2.1, fun i hi => hsends.buf ▸ h.2.2 i hi⟩
  | clearing data => exact ⟨⟨hsends.tail.trans h.1.1, h.1.2⟩, h.2.sends hsends hother⟩
  | advancing data =>
    exact ⟨⟨hsends.tail.trans h.1.1, h.1.2⟩, h.2.1.sends hsends hother, hsends.ring _ hother ▸ h.2.2⟩
  | ringing desc data =>
    exact ⟨⟨hsends.tail.trans h.1.1, h.1.2⟩, h.2.1, h.2.2.1.sends hsends hother, hsends.ring _ hother ▸ h.2.2.2⟩
  | waiting desc data timeout => exact ⟨⟨hsends.tail.trans h.1.1, h.1.2⟩, h.2.1, hdone desc h.2.1 h.2.2⟩
  | testing desc data => exact ⟨⟨hsends.tail.trans h.1.1, h.1.2⟩, h.2.1, hdone desc h.2.1 h.2.2⟩

theorem TxOk.transmit (h : TxOk s) : TxOk (txStep s .transmit).2 := by
  rcases h.waits.transmit with ⟨-, hnic⟩ | ⟨frame, dev', hnic, hfirst, hsends, hcmd, hnext⟩
  · simp only [txStep, hnic]
    exact h
  · simp only [txStep, hnic]
    exact ⟨hsends.base ▸ h.base, hnext, h.calls.transmit h.waits hfirst hcmd hsends hnext⟩

/-- What the driver may change before it rings: the buffer and the descriptor of its frame. -/
structure Prepares (dev dev' : E1000Tx) (i : Nat) : Prop where
  base : dev'.mmioBase = dev.mmioBase
  tdh : dev'.tdh = dev.tdh
  tdt : dev'.tdt = dev.tdt
  buf : ∀ j, j ≠ i → dev'.txBuf j = dev.txBuf j
  ring : ∀ j, j ≠ i → dev'.txRing j = dev.txRing j

theorem Waits.prepares (h : Waits dev sent wire) (hprep : Prepares dev dev' (slot sent.length)) : Waits dev' sent wire := by
  refine ⟨hprep.tdh.trans h.head, hprep.tdt.trans h.last, h.order, h.room, fun k x hk hx => ?_⟩
  have hlt := (List.getElem?_eq_some_iff.mp hx).1
  have hroom := h.room
  have hother : slot k ≠ slot sent.length := (slot_ne hlt (by omega)).symm
  obtain ⟨hstored, hzero⟩ := h.stored k x hk hx
  rw [hprep.ring _ hother]
  refine ⟨⟨fun i hi => ?_, ?_, ?_⟩, hzero⟩
  · rw [hprep.buf _ hother]
    exact hstored.bytes i hi
  · rw [hprep.ring _ hother]
    exact hstored.length
  · rw [hprep.ring _ hother]
    exact hstored.cmd

theorem copy_prepares (dev : E1000Tx) (data : List UInt8) : Prepares dev (dev.copy data) dev.txTail :=
  ⟨rfl, rfl, rfl, fun _ hj => Function.update_of_ne hj _ _, fun _ _ => rfl⟩

theorem set_desc_prepares (dev : E1000Tx) (desc : TxDesc) : Prepares dev (dev.setDesc desc) dev.txTail :=
  ⟨rfl, rfl, rfl, fun _ _ => rfl, fun _ hj => Function.update_of_ne hj _ _⟩

theorem TxOk.call (h : TxOk s) (data : List UInt8) : TxOk (txStep s (.call data)).2 := by
  obtain ⟨dev, pc, taken, wire⟩ := s
  cases pc with
  | idle =>
    simp only [txStep]
    split
    · exact h
    · rename_i hfits
      obtain ⟨hbase, hwaits, htail, -⟩ := h
      have htaken : handed (.copying data) (taken ++ [data]) = taken := List.dropLast_concat
      refine ⟨hbase, ?_, ?_⟩
      · dsimp only
        rw [htaken]
        exact hwaits
      · dsimp only
        rw [htaken]
        exact ⟨⟨htail, rfl⟩, Nat.le_of_not_lt (fun hlong => hfits (Or.inr hlong))⟩
  | _ => exact h

theorem TxOk.copying {taken wire : List (List UInt8)} (h : TxOk ⟨dev, .copying data, taken, wire⟩) :
    TxOk ⟨dev.copy data, .describing data, taken, wire⟩ := by
  obtain ⟨hbase, hwaits, ⟨htail, htaken⟩, hfits⟩ := h
  have hprep := copy_prepares dev data
  dsimp only [handed] at hwaits htail htaken ⊢
  rw [htail] at hprep
  refine ⟨hbase, hwaits.prepares hprep, ⟨htail, htaken⟩, hfits, fun i hi => ?_⟩
  dsimp only [E1000Tx.copy, handed]
  rw [htail, Function.update_self, List.getD_eq_getElem _ _ hi]

theorem TxOk.describing {taken wire : List (List UInt8)} (h : TxOk ⟨dev, .describing data, taken, wire⟩) :
    TxOk ⟨dev.setDesc ⟨UInt16.ofNat data.length, txCmd, (dev.txRing dev.txTail).status⟩, .clearing data, taken, wire⟩ := by
  obtain ⟨hbase, hwaits, ⟨htail, htaken⟩, hfits, hbytes⟩ := h
  have hprep := set_desc_prepares dev ⟨UInt16.ofNat data.length, txCmd, (dev.txRing dev.txTail).status⟩
  dsimp only [handed] at hwaits htail htaken hbytes ⊢
  have hshort : data.length < UInt16.size := Nat.lt_of_le_of_lt hfits (by decide)
  rw [htail] at hprep ⊢
  refine ⟨hbase, hwaits.prepares hprep, ⟨htail, htaken⟩, hbytes, ?_, ?_⟩
  · dsimp only [E1000Tx.setDesc, handed]
    rw [htail, Function.update_self]
    exact UInt16.toNat_ofNat_of_lt' hshort
  · dsimp only [E1000Tx.setDesc, handed]
    rw [htail, Function.update_self]

theorem TxOk.clearing {taken wire : List (List UInt8)} (h : TxOk ⟨dev, .clearing data, taken, wire⟩) :
    TxOk ⟨dev.setDesc { dev.txRing dev.txTail with status := 0 }, .advancing data, taken, wire⟩ := by
  obtain ⟨hbase, hwaits, ⟨htail, htaken⟩, hstored⟩ := h
  have hprep := set_desc_prepares dev { dev.txRing dev.txTail with status := 0 }
  dsimp only [handed] at hwaits htail htaken hstored ⊢
  have hself : (dev.setDesc { dev.txRing dev.txTail with status := 0 }).txRing (slot taken.dropLast.length) =
      { dev.txRing (slot taken.dropLast.length) with status := 0 } := by
    dsimp only [E1000Tx.setDesc]
    rw [htail, Function.update_self]
  rw [htail] at hprep
  refine ⟨hbase, hwaits.prepares (by rw [htail]; exact hprep), ⟨htail, htaken⟩, ⟨hstored.bytes, ?_, ?_⟩, ?_⟩
  · exact (congrArg (fun desc => desc.length.toNat) hself).trans hstored.length
  · exact (congrArg TxDesc.cmd hself).trans hstored.cmd
  · exact congrArg TxDesc.status hself

theorem TxOk.advancing {taken wire : List (List UInt8)} (h : TxOk ⟨dev, .advancing data, taken, wire⟩) :
    TxOk ⟨{ dev with txTail := (dev.txTail + 1) % e1000NumTx }, .ringing dev.txTail data, taken, wire⟩ := by
  obtain ⟨hbase, hwaits, ⟨htail, htaken⟩, hstored, hzero⟩ := h
  dsimp only [handed] at hwaits htail htaken hstored hzero ⊢
  have hkept : ∀ k x, wire.length ≤ k → taken.dropLast[k]? = some x →
      Stored { dev with txTail := (dev.txTail + 1) % e1000NumTx } k x ∧ (dev.txRing (slot k)).status = 0 :=
    fun k x hk hx => ⟨(hwaits.stored k x hk hx).1.same rfl rfl, (hwaits.stored k x hk hx).2⟩
  refine ⟨hbase, ⟨hwaits.head, hwaits.last, hwaits.order, hwaits.room, hkept⟩, ⟨?_, htaken⟩, htail,
    hstored.same rfl rfl, hzero⟩
  dsimp only [handed]
  rw [htail, slot_succ]

/-- The doorbell hands the frame over, if a buffer is left free. -/
theorem TxOk.ringing {desc : Nat} {taken wire : List (List UInt8)} (h : TxOk ⟨dev, .ringing desc data, taken, wire⟩)
    (hroom : taken.length < wire.length + e1000NumTx) :
    TxOk ⟨{ dev with tdt := dev.txTail }, .waiting desc data 100000, taken, wire⟩ := by
  obtain ⟨hbase, hwaits, ⟨htail, htaken⟩, hdesc, hstored, hzero⟩ := h
  dsimp only [handed] at hwaits htail htaken hdesc hstored hzero
  have hlen : taken.length = taken.dropLast.length + 1 := by
    conv_lhs => rw [htaken]
    exact List.length_append
  refine ⟨hbase, ⟨hwaits.head, ?_, ?_, hroom, fun k x hk hx => ?_⟩, ⟨?_, rfl⟩, ⟨_, hlen.symm, hdesc⟩, ?_⟩
  · dsimp only [handed]
    rw [htail, hlen]
  · exact hwaits.order.trans (List.dropLast_prefix taken)
  · dsimp only [handed] at hx
    rw [htaken] at hx
    rcases Nat.lt_or_ge k taken.dropLast.length with hlt | hge
    · rw [List.getElem?_append_left hlt] at hx
      exact ⟨(hwaits.stored k x hk hx).1.same rfl rfl, (hwaits.stored k x hk hx).2⟩
    · obtain ⟨hlt, hget⟩ := List.getElem?_eq_some_iff.mp hx
      rw [List.length_append, List.length_singleton] at hlt
      obtain rfl : k = taken.dropLast.length := by omega
      obtain rfl : data = x := by rwa [List.getElem_concat_length rfl] at hget
      exact ⟨hstored.same rfl rfl, hzero⟩
  · dsimp only [handed]
    rw [htail, hlen]
  · dsimp only [handed]
    rw [hdesc]
    refine iff_of_false (not_not.mpr hzero) (fun hall => ?_)
    have hle := hwaits.order.length_le
    have hcount := congrArg List.length hall
    omega

/-- A ring whose buffers all wait looks empty to the NIC. -/
theorem overrun {desc : Nat} {taken wire : List (List UInt8)} (h : TxOk ⟨dev, .ringing desc data, taken, wire⟩)
    (hfull : ¬ taken.length < wire.length + e1000NumTx) :
    ¬ AllGo ⟨{ dev with tdt := dev.txTail }, .waiting desc data 100000, taken, wire⟩ := by
  obtain ⟨hbase, hwaits, ⟨htail, htaken⟩, -⟩ := h
  dsimp only [handed] at hwaits htail htaken
  have hlen : taken.length = taken.dropLast.length + 1 := by
    conv_lhs => rw [htaken]
    exact List.length_append
  have hroom := hwaits.room
  have hwrap : slot (taken.dropLast.length + 1) = slot wire.length := by
    have hturn : taken.dropLast.length + 1 = wire.length + e1000NumTx := by omega
    rw [hturn]
    exact Nat.add_mod_right _ _
  have hempty : nicTransmit { dev with tdt := dev.txTail } = (none, { dev with tdt := dev.txTail }) := by
    refine if_pos ?_
    dsimp only
    rw [hwaits.head, htail, hwrap]
  intro hgo
  have hnone : TxRing.drain e1000NumTx { dev with tdt := dev.txTail } = [] := by
    unfold e1000NumTx TxRing.drain
    rw [hempty]
  unfold AllGo handed at hgo
  dsimp only at hgo
  rw [hnone, List.append_nil] at hgo
  rw [hgo] at hfull
  exact hfull (Nat.lt_add_of_pos_right (by decide))

theorem TxOk.all_go (h : TxOk s) : AllGo s := h.waits.all_go

theorem TxOk.tells_truth (h : TxOk s) : TellsTruth s := by
  obtain ⟨dev, pc, taken, wire⟩ := s
  cases pc with
  | testing desc data => exact h.calls.2.2
  | _ => trivial

/-- As long as the ring is not overrun, every event keeps it in order. -/
theorem TxOk.step (h : TxOk s) {e : TxEvent} (hroom : RoomLeft s e) : TxOk (txStep s e).2 := by
  cases e with
  | transmit => exact h.transmit
  | call data => exact h.call data
  | next =>
    obtain ⟨dev, pc, taken, wire⟩ := s
    cases pc with
    | idle => exact h
    | copying data => exact h.copying
    | describing data => exact h.describing
    | clearing data => exact h.clearing
    | advancing data => exact h.advancing
    | ringing desc data => exact h.ringing hroom
    | waiting desc data timeout =>
      simp only [txStep]
      split
      · exact ⟨h.base, h.waits, h.calls⟩
      · exact ⟨h.base, h.waits, h.calls⟩
    | testing desc data => exact ⟨h.base, h.waits, h.calls.1⟩

theorem TxOk.room_of_all_go (h : TxOk s) {e : TxEvent} (hgo : AllGo (txStep s e).2) : RoomLeft s e := by
  obtain ⟨dev, pc, taken, wire⟩ := s
  cases e with
  | next =>
    cases pc with
    | ringing desc data =>
      by_contra hfull
      exact overrun h hfull hgo
    | _ => trivial
  | _ => trivial

theorem init_ok {bar0 : UInt32} (hbase : bar0 &&& ~~~0xF ≠ 0) : TxOk (txStart bar0) := by
  refine ⟨hbase, ⟨rfl, rfl, List.prefix_rfl, Nat.zero_lt_succ 7, fun k x _ hx => ?_⟩, rfl, rfl⟩
  cases hx

/-- In every state reached all that was handed over goes on the wire, exactly when the doorbell is
never rung with all the buffers waiting; and then a call that returns the length of its frame
has it, and all before it, on the wire. -/
theorem frames_sent_iff {bar0 : UInt32} (hbase : bar0 &&& ~~~0xF ≠ 0) (events : List TxEvent) :
    (Along (After txStep AllGo) txStep (txStart bar0) events ↔ Along RoomLeft txStep (txStart bar0) events) ∧
      (Along RoomLeft txStep (txStart bar0) events → Along (After txStep TellsTruth) txStep (txStart bar0) events) := by
  have hok := init_ok hbase
  refine ⟨?_, ?_⟩
  · exact Along.after_iff (J := TxOk) (fun s e hj _ hroom => TxOk.step hj hroom)
      (fun s e hj _ => ⟨fun hgo => hj.room_of_all_go hgo, fun hroom => (hj.step hroom).all_go⟩) hok hok.all_go events
  · generalize txStart bar0 = s at hok ⊢
    induction events generalizing s with
    | nil => exact fun _ => trivial
    | cons e events ih =>
      rintro ⟨hroom, hrest⟩
      have hnext := hok.step hroom
      exact ⟨hnext.tells_truth, ih _ hnext hrest⟩

/-- Two calls, the second of which has to wait for the NIC. -/
def twoCalls : List TxEvent :=
  [.call [1, 2, 3], .next, .next, .next, .next, .next, .transmit, .next, .next,
    .call [4, 5], .next, .next, .next, .next, .next, .next, .transmit, .next, .next]

theorem frames_sent_two : (run txStep (txStart 0xFEBC0000) twoCalls).2.wire = [[1, 2, 3], [4, 5]] ∧
    Along (After txStep AllGo) txStep (txStart 0xFEBC0000) twoCalls ∧
    Along (After txStep TellsTruth) txStep (txStart 0xFEBC0000) twoCalls := by
  obtain ⟨hgo, htruth⟩ := @frames_sent_iff 0xFEBC0000 (by decide) twoCalls
  have hroom : Along RoomLeft txStep (txStart 0xFEBC0000) twoCalls := by
    repeat' constructor
  exact ⟨by decide, hgo.mpr hroom, htruth hroom⟩

end BaSic.Proofs.TxRing
