import BaSic.Kernel.E1000

namespace BaSic.Proofs.RxRing
open Kernel Lib

/-- What the call under way has copied out. -/
def held : RecvPc → Option (UInt16 × List UInt8)
  | .idle | .copying _ => none
  | .clearing maxLen bytes | .handingBack maxLen bytes | .advancing maxLen bytes => some (maxLen, bytes)

/-- How many frames the call under way is about to return, has copied out, has cleared the
done bit of, and has handed the buffer back of. -/
def taking : RecvPc → Nat
  | .idle => 0
  | _ => 1

def copied : RecvPc → Nat
  | .idle | .copying _ => 0
  | _ => 1

def cleared : RecvPc → Nat
  | .handingBack _ _ | .advancing _ _ => 1
  | _ => 0

def handedBack : RecvPc → Nat
  | .advancing _ _ => 1
  | _ => 0

/-- The buffer that the NIC fills with the `k`-th frame it accepts. -/
def slot (k : Nat) : Nat := k % e1000NumRx

/-- The frame is whole in its buffer, with its length in the descriptor. -/
structure Stored (dev : E1000) (k : Nat) (frame : List UInt8) : Prop where
  bytes : ∀ i (h : i < frame.length), dev.rxBuf (slot k) i = frame[i]
  length : (dev.rxRing (slot k)).length.toNat = frame.length

/-- The calls returned the frames accepted, in the order of their arrival, each once and cut
to the `max_len` of the call. -/
def InOrder (accepted : List (List UInt8)) (returned : List (UInt16 × List UInt8)) : Prop :=
  ∀ k (h : k < returned.length), ∃ frame,
    accepted[k]? = some frame ∧ returned[k].2 = frame.take returned[k].1.toNat

/-- The calls of `e1000_recv` with nothing arriving before they return. -/
def wholeCall (maxLen : UInt16) : List RxEvent := [.call maxLen, .next, .next, .next, .next]

/-- No frame is lost, repeated, reordered or overwritten. -/
structure Delivers (s : RxLink) : Prop where
  inOrder : InOrder s.accepted s.returned
  /-- A frame not copied out yet is whole in its buffer. -/
  kept : ∀ k frame, s.returned.length + copied s.pc ≤ k → s.accepted[k]? = some frame → Stored s.dev k frame
  /-- An arriving frame goes to another buffer. -/
  spared : ∀ arriving k, s.returned.length + copied s.pc ≤ k → k < s.accepted.length →
    (rxStep s (.arrive arriving)).2.dev.rxBuf (slot k) = s.dev.rxBuf (slot k)
  /-- As long as frames wait, the next call returns the first of them. -/
  next : ∀ maxLen frame, s.pc = .idle → s.accepted[s.returned.length]? = some frame →
    (e1000Recv s.dev maxLen).1 = (((frame.take maxLen.toNat).length : Int), frame.take maxLen.toNat) ∧
      (run rxStep s (wholeCall maxLen)).2.returned = s.returned ++ [(maxLen, frame.take maxLen.toNat)]

/-- The buffers from the first one not handed back to the head hold the frames accepted,
those from the head on are empty, and `RDT` is the last of them. -/
structure Owned (dev : E1000) (pc : RecvPc) (accepted : List (List UInt8)) (returned : List (UInt16 × List UInt8)) :
    Prop where
  base : dev.mmioBase ≠ 0
  head : dev.rdh = slot accepted.length
  tail : dev.rxTail = slot returned.length
  last : dev.rdt = slot (returned.length + handedBack pc + (e1000NumRx - 1))
  room : accepted.length < returned.length + handedBack pc + e1000NumRx
  waiting : returned.length + taking pc ≤ accepted.length
  filled : ∀ k frame, returned.length + cleared pc ≤ k → accepted[k]? = some frame →
    Stored dev k frame ∧ (dev.rxRing (slot k)).status &&& 0x01 ≠ 0
  free : ∀ k, accepted.length ≤ k → k < returned.length + cleared pc + e1000NumRx →
    (dev.rxRing (slot k)).status = 0
  copy : ∀ maxLen bytes, held pc = some (maxLen, bytes) →
    ∃ frame, accepted[returned.length]? = some frame ∧ bytes = frame.take maxLen.toNat
  inOrder : InOrder accepted returned

/-- What the NIC changes when it stores a frame: the buffer at its head, and its head. -/
structure Fills (dev dev' : E1000) (frame : List UInt8) : Prop where
  room : dev.rdh ≠ dev.rdt
  base : dev'.mmioBase = dev.mmioBase
  tail : dev'.rxTail = dev.rxTail
  rdt : dev'.rdt = dev.rdt
  head : dev'.rdh = (dev.rdh + 1) % e1000NumRx
  buf : ∀ i, i ≠ dev.rdh → dev'.rxBuf i = dev.rxBuf i
  ring : ∀ i, i ≠ dev.rdh → dev'.rxRing i = dev.rxRing i
  bytes : ∀ i (h : i < frame.length), dev'.rxBuf dev.rdh i = frame[i]
  length : (dev'.rxRing dev.rdh).length.toNat = frame.length
  status : (dev'.rxRing dev.rdh).status = (dev.rxRing dev.rdh).status ||| 0x01

/-- A NIC without a base address was never given a buffer. -/
structure Silent (s : RxLink) : Prop where
  base : s.dev.mmioBase = 0
  full : s.dev.rdh = s.dev.rdt
  idle : s.pc = .idle
  accepted : s.accepted = []
  returned : s.returned = []

/-- What holds after `e1000_init`, whatever arrives and is called. -/
def RingOk (s : RxLink) : Prop := Owned s.dev s.pc s.accepted s.returned ∨ Silent s

variable {s : RxLink} {dev : E1000} {pc : RecvPc} {accepted : List (List UInt8)}
  {returned : List (UInt16 × List UInt8)} {maxLen : UInt16} {bytes : List UInt8}

/-- Frames less than a turn of the ring apart are in different buffers. -/
theorem slot_ne {j k : Nat} (hjk : j < k) (hturn : k < j + e1000NumRx) : slot j ≠ slot k := by
  unfold slot
  unfold e1000NumRx at hturn ⊢
  omega

theorem slot_succ (k : Nat) : (slot k + 1) % e1000NumRx = slot (k + 1) := Nat.mod_add_mod k e1000NumRx 1

theorem slot_turn (k : Nat) : slot (k + e1000NumRx) = slot k := Nat.add_mod_right k e1000NumRx

theorem cleared_le_copied (pc : RecvPc) : cleared pc ≤ copied pc := by
  cases pc <;> simp [cleared, copied]

theorem handed_back_le_cleared (pc : RecvPc) : handedBack pc ≤ cleared pc := by
  cases pc <;> simp [handedBack, cleared]

theorem cleared_le_taking (pc : RecvPc) : cleared pc ≤ taking pc := by
  cases pc <;> simp [cleared, taking]

theorem init_owned {bar0 : UInt32} (hbase : bar0 &&& ~~~0xF ≠ 0) :
    Owned (e1000Init .boot (some bar0)).2 .idle [] [] := by
  have hdev : (e1000Init .boot (some bar0)).2 =
      ⟨bar0 &&& ~~~0xF, fun _ => ⟨0, 0⟩, fun _ _ => 0, 0, 0, e1000NumRx - 1⟩ := by
    simp only [e1000Init, E1000.writeRdh, E1000.writeRdt, if_neg hbase, E1000.boot]
  rw [hdev]
  exact {
    base := hbase
    head := rfl
    tail := rfl
    last := rfl
    room := Nat.zero_lt_succ 7
    waiting := Nat.le_refl 0
    filled := fun k frame _ h => by simp at h
    free := fun _ _ _ => rfl
    copy := fun _ _ h => by cases h
    inOrder := fun k h => absurd h (Nat.not_lt_zero k) }

theorem init_silent {bar0 : UInt32} (hbase : bar0 &&& ~~~0xF = 0) : Silent (afterInit (some bar0)) := by
  have hdev : (e1000Init .boot (some bar0)).2 =
      ⟨bar0 &&& ~~~0xF, fun _ => ⟨0, 0⟩, fun _ _ => 0, 0, 0, 0⟩ := by
    simp only [e1000Init, E1000.writeRdh, E1000.writeRdt, if_pos hbase, E1000.boot]
  unfold afterInit
  rw [hdev]
  exact ⟨hbase, rfl, rfl, rfl, rfl⟩

/-- The NIC stops before it has come round to a buffer that was not handed back. -/
theorem Owned.room_for (h : Owned dev pc accepted returned) (hne : dev.rdh ≠ dev.rdt) :
    accepted.length + 1 < returned.length + handedBack pc + e1000NumRx := by
  have hroom := h.room
  rw [h.head, h.last] at hne
  have hlen : accepted.length ≠ returned.length + handedBack pc + (e1000NumRx - 1) :=
    fun heq => hne (congrArg slot heq)
  unfold e1000NumRx at hroom hlen ⊢
  omega

/-- The buffer at the head is none of those that hold a frame. -/
theorem Owned.head_ne (h : Owned dev pc accepted returned) (hne : dev.rdh ≠ dev.rdt) {k : Nat}
    (hk : returned.length + cleared pc ≤ k) (hlt : k < accepted.length) : slot k ≠ dev.rdh := by
  have hroom := h.room_for hne
  have hle := handed_back_le_cleared pc
  rw [h.head]
  exact slot_ne hlt (by omega)

theorem nic_store_cases (dev : E1000) (frame : List UInt8) :
    nicStore dev frame = (false, dev) ∨ ∃ dev', nicStore dev frame = (true, dev') ∧ Fills dev dev' frame := by
  unfold nicStore
  split
  · exact .inl rfl
  · rename_i hcond
    rw [not_or, Nat.not_lt] at hcond
    have hfits : frame.length < UInt16.size := Nat.lt_of_le_of_lt hcond.2 (by decide)
    refine .inr ⟨_, rfl, hcond.1, rfl, rfl, rfl, rfl, ?_, ?_, fun i hi => ?_, ?_, ?_⟩
    · exact fun i hi => Function.update_of_ne hi _ _
    · exact fun i hi => Function.update_of_ne hi _ _
    · dsimp only
      rw [Function.update_self, List.getD_eq_getElem _ _ hi]
    · dsimp only
      rw [Function.update_self]
      exact UInt16.toNat_ofNat_of_lt' hfits
    · dsimp only
      rw [Function.update_self]

theorem Stored.fills {dev' : E1000} {k : Nat} {frame arriving : List UInt8} (h : Stored dev k frame)
    (hfills : Fills dev dev' arriving) (hother : slot k ≠ dev.rdh) : Stored dev' k frame := by
  refine ⟨fun i hi => ?_, ?_⟩
  · rw [hfills.buf _ hother]
    exact h.bytes i hi
  · rw [hfills.ring _ hother]
    exact h.length

theorem Owned.store {dev' : E1000} {frame : List UInt8} (h : Owned dev pc accepted returned)
    (hfills : Fills dev dev' frame) : Owned dev' pc (accepted ++ [frame]) returned := by
  have hlen : (accepted ++ [frame]).length = accepted.length + 1 := List.length_append
  have hroom := h.room_for hfills.room
  have hfirst : ∀ (k : Nat) x, accepted[k]? = some x → (accepted ++ [frame])[k]? = some x := by
    intro k x hx
    obtain ⟨hlt, -⟩ := List.getElem?_eq_some_iff.mp hx
    rw [List.getElem?_append_left hlt]
    exact hx
  refine ⟨?base, ?head, ?tail, ?last, ?room, ?waiting, ?filled, ?free, ?copy, ?inOrder⟩
  case base =>
    rw [hfills.base]
    exact h.base
  case head =>
    rw [hfills.head, hlen, ← slot_succ, ← h.head]
  case tail =>
    rw [hfills.tail]
    exact h.tail
  case last =>
    rw [hfills.rdt]
    exact h.last
  case room =>
    rw [hlen]
    exact hroom
  case waiting =>
    rw [hlen]
    exact Nat.le_succ_of_le h.waiting
  case filled =>
    intro k x hk hx
    rcases Nat.lt_or_ge k accepted.length with hlt | hge
    · rw [List.getElem?_append_left hlt] at hx
      have hother := h.head_ne hfills.room hk hlt
      obtain ⟨hstored, hdone⟩ := h.filled k x hk hx
      rw [hfills.ring _ hother]
      exact ⟨hstored.fills hfills hother, hdone⟩
    · -- the frame just stored
      obtain ⟨hlt, hget⟩ := List.getElem?_eq_some_iff.mp hx
      obtain rfl : k = accepted.length := by omega
      obtain rfl : frame = x := by rwa [List.getElem_concat_length rfl] at hget
      have hself : slot accepted.length = dev.rdh := h.head.symm
      have hblank : (dev.rxRing dev.rdh).status = 0 := by
        have hle := cleared_le_taking pc
        have hback := handed_back_le_cleared pc
        rw [h.head]
        exact h.free _ (Nat.le_refl _) (by omega)
      refine ⟨⟨?_, ?_⟩, ?_⟩
      · rw [hself]
        exact hfills.bytes
      · rw [hself]
        exact hfills.length
      · rw [hself, hfills.status, hblank]
        decide
  case free =>
    intro k hk hlt
    rw [hlen] at hk
    have hle := cleared_le_taking pc
    have hwait := h.waiting
    have hother : slot k ≠ dev.rdh := by
      rw [h.head]
      exact (slot_ne hk (by omega)).symm
    rw [hfills.ring _ hother]
    exact h.free k (Nat.le_of_succ_le hk) hlt
  case copy =>
    intro maxLen bytes hheld
    obtain ⟨x, hx, hbytes⟩ := h.copy maxLen bytes hheld
    exact ⟨x, hfirst _ _ hx, hbytes⟩
  case inOrder =>
    intro k hk
    obtain ⟨x, hx, hbytes⟩ := h.inOrder k hk
    exact ⟨x, hfirst _ _ hx, hbytes⟩

/-- The done bit at the tail tells whether a frame waits there. -/
theorem Owned.done_iff (h : Owned dev .idle accepted returned) :
    dev.rxDone = true ↔ returned.length < accepted.length := by
  unfold E1000.rxDone
  rw [h.tail, bne_iff_ne]
  constructor
  · intro hdone
    by_contra hnone
    have hzero := h.free _ (Nat.le_of_not_lt hnone) (Nat.lt_add_of_pos_right (Nat.zero_lt_succ 7))
    rw [hzero] at hdone
    exact hdone (by decide)
  · intro hlt
    exact (h.filled _ _ (Nat.le_refl _) (List.getElem?_eq_getElem hlt)).2

/-- What is copied out of a buffer that holds a frame. -/
theorem Stored.copy {k : Nat} {frame : List UInt8} (h : Stored dev k frame) (htail : dev.rxTail = slot k)
    (maxLen : UInt16) : dev.rxCopy maxLen = frame.take maxLen.toNat := by
  have hlen : (dev.rxLen maxLen).toNat = min maxLen.toNat frame.length := by
    unfold E1000.rxLen
    rw [htail, ← h.length]
    dsimp only
    split
    · rename_i hgt
      exact (Nat.min_eq_left (Nat.le_of_lt (UInt16.lt_iff_toNat_lt.mp hgt))).symm
    · rename_i hle
      exact (Nat.min_eq_right (UInt16.le_iff_toNat_le.mp (UInt16.not_lt.mp hle))).symm
  unfold E1000.rxCopy
  rw [hlen, htail]
  refine List.ext_getElem ?_ (fun i hi hj => ?_)
  · rw [List.length_map, List.length_range, List.length_take]
  · rw [List.length_take] at hj
    rw [List.getElem_map, List.getElem_range, List.getElem_take]
    exact h.bytes i (Nat.lt_of_lt_of_le hj (Nat.min_le_right _ _))

theorem Owned.call (h : Owned dev .idle accepted returned) (maxLen : UInt16) (hdone : dev.rxDone = true) :
    Owned dev (.copying maxLen) accepted returned := by
  refine ⟨h.base, h.head, h.tail, h.last, h.room, h.done_iff.mp hdone, h.filled, h.free, ?_, h.inOrder⟩
  intro m bytes hheld
  cases hheld

theorem Owned.copying (h : Owned dev (.copying maxLen) accepted returned) :
    Owned dev (.clearing maxLen (dev.rxCopy maxLen)) accepted returned := by
  refine ⟨h.base, h.head, h.tail, h.last, h.room, h.waiting, h.filled, h.free, ?_, h.inOrder⟩
  intro m bytes hheld
  obtain ⟨rfl, rfl⟩ := Prod.mk.inj (Option.some.inj hheld)
  have hfirst := List.getElem?_eq_getElem (l := accepted) h.waiting
  exact ⟨_, hfirst, (h.filled returned.length _ (Nat.le_refl _) hfirst).1.copy h.tail maxLen⟩

theorem Owned.clearing (h : Owned dev (.clearing maxLen bytes) accepted returned) :
    Owned dev.rxClear (.handingBack maxLen bytes) accepted returned := by
  refine ⟨h.base, h.head, h.tail, h.last, h.room, h.waiting, ?filled, ?free, h.copy, h.inOrder⟩
  case filled =>
    intro k frame hk hframe
    have hk : returned.length < k := hk
    have hlt := (List.getElem?_eq_some_iff.mp hframe).1
    have hroom : accepted.length < returned.length + e1000NumRx := h.room
    have hother : slot k ≠ dev.rxTail := by
      rw [h.tail]
      exact (slot_ne hk (Nat.lt_trans hlt hroom)).symm
    obtain ⟨hstored, hdone⟩ := h.filled k frame (Nat.le_of_lt hk) hframe
    unfold E1000.rxClear
    refine ⟨⟨hstored.bytes, ?_⟩, ?_⟩
    · dsimp only
      rw [Function.update_of_ne hother]
      exact hstored.length
    · dsimp only
      rw [Function.update_of_ne hother]
      exact hdone
  case free =>
    intro k hk hlt
    have hlt : k < returned.length + 1 + e1000NumRx := hlt
    unfold E1000.rxClear
    by_cases hself : slot k = dev.rxTail
    · dsimp only
      rw [hself, Function.update_self]
    · dsimp only
      rw [Function.update_of_ne hself]
      refine h.free k hk (Nat.lt_of_le_of_ne (Nat.lt_succ_iff.mp ?_) ?_)
      · rw [Nat.add_right_comm] at hlt
        exact hlt
      · rintro rfl
        exact hself ((slot_turn _).trans h.tail.symm)

theorem Owned.handing_back (h : Owned dev (.handingBack maxLen bytes) accepted returned) :
    Owned dev.rxHandBack (.advancing maxLen bytes) accepted returned := by
  have hdev : dev.rxHandBack = { dev with rdt := dev.rxTail } := by
    unfold E1000.rxHandBack E1000.writeRdt
    rw [if_neg h.base]
  rw [hdev]
  refine ⟨h.base, h.head, h.tail, ?last, Nat.lt_add_right 1 h.room, h.waiting, ?filled, h.free, h.copy, h.inOrder⟩
  case last =>
    have hturn : returned.length + 1 + (e1000NumRx - 1) = returned.length + e1000NumRx := by
      unfold e1000NumRx
      omega
    have hlast : dev.rxTail = slot (returned.length + 1 + (e1000NumRx - 1)) := by
      rw [hturn, slot_turn, h.tail]
    exact hlast
  case filled =>
    intro k frame hk hframe
    obtain ⟨hstored, hdone⟩ := h.filled k frame hk hframe
    exact ⟨⟨hstored.bytes, hstored.length⟩, hdone⟩

theorem Owned.advancing (h : Owned dev (.advancing maxLen bytes) accepted returned) :
    Owned dev.rxAdvance .idle accepted (returned ++ [(maxLen, bytes)]) := by
  have hlen : (returned ++ [(maxLen, bytes)]).length = returned.length + 1 := List.length_append
  refine ⟨h.base, h.head, ?tail, ?last, ?room, ?waiting, ?filled, ?free, ?copy, ?inOrder⟩
  case tail =>
    rw [hlen, ← slot_succ, ← h.tail]
    rfl
  case last =>
    rw [hlen]
    exact h.last
  case room =>
    rw [hlen]
    exact h.room
  case waiting =>
    rw [hlen]
    exact h.waiting
  case filled =>
    intro k frame hk hframe
    rw [hlen] at hk
    obtain ⟨hstored, hdone⟩ := h.filled k frame hk hframe
    exact ⟨⟨hstored.bytes, hstored.length⟩, hdone⟩
  case free =>
    intro k hk hlt
    rw [hlen] at hlt
    exact h.free k hk hlt
  case copy =>
    intro m x hheld
    cases hheld
  case inOrder =>
    intro k hk
    rcases Nat.lt_or_ge k returned.length with hlt | hge
    · rw [List.getElem_append_left hlt]
      exact h.inOrder k hlt
    · have hkeq : k = returned.length := by
        rw [hlen] at hk
        omega
      subst hkeq
      rw [List.getElem_concat_length rfl]
      exact h.copy maxLen bytes rfl

theorem Owned.step (h : Owned s.dev s.pc s.accepted s.returned) (event : RxEvent) :
    Owned (rxStep s event).2.dev (rxStep s event).2.pc (rxStep s event).2.accepted (rxStep s event).2.returned := by
  cases event with
  | arrive frame =>
    rcases nic_store_cases s.dev frame with hdrop | ⟨dev, hstore, hfills⟩
    · simp only [rxStep, hdrop]
      exact h
    · simp only [rxStep, hstore]
      exact h.store hfills
  | call maxLen =>
    unfold rxStep
    cases hpc : s.pc with
    | idle =>
      rw [hpc] at h
      by_cases hdone : s.dev.rxDone = true
      · have hnext := h.call maxLen hdone
        simpa only [if_neg h.base, hdone, Bool.not_true, Bool.false_eq_true, if_false] using hnext
      · have hnot : s.dev.rxDone = false := Bool.not_eq_true _ ▸ hdone
        simpa only [if_neg h.base, hnot, Bool.not_false, if_true, hpc] using h
    | copying m => exact h
    | clearing m bytes => exact h
    | handingBack m bytes => exact h
    | advancing m bytes => exact h
  | next =>
    unfold rxStep
    cases hpc : s.pc with
    | idle => exact h
    | copying m => exact (hpc ▸ h).copying
    | clearing m bytes => exact (hpc ▸ h).clearing
    | handingBack m bytes => exact (hpc ▸ h).handing_back
    | advancing m bytes => exact (hpc ▸ h).advancing

theorem Silent.step (h : Silent s) (event : RxEvent) : Silent (rxStep s event).2 := by
  cases event with
  | arrive frame =>
    have hstore : nicStore s.dev frame = (false, s.dev) := if_pos (.inl h.full)
    simp only [rxStep, hstore]
    exact h
  | call maxLen =>
    unfold rxStep
    rw [h.idle]
    dsimp only
    rw [if_pos h.base]
    exact h
  | next =>
    unfold rxStep
    rw [h.idle]
    exact h

/-- A call that nothing interrupts is `e1000_recv`. -/
theorem recv_uninterrupted (maxLen : UInt16) (hidle : s.pc = .idle) :
    (run rxStep s (wholeCall maxLen)).1.filterMap id = [(e1000Recv s.dev maxLen).1.1] ∧
      (run rxStep s (wholeCall maxLen)).2.dev = (e1000Recv s.dev maxLen).2 := by
  obtain ⟨dev, pc, accepted, returned⟩ := s
  obtain rfl : pc = .idle := hidle
  by_cases hbase : dev.mmioBase = 0
  · simp [wholeCall, run, rxStep, e1000Recv, hbase]
  · by_cases hdone : dev.rxDone = true
    · simp [wholeCall, run, rxStep, e1000Recv, hbase, hdone, E1000.rxCopy]
    · simp [wholeCall, run, rxStep, e1000Recv, hbase, hdone]

/-- A call that finds the done bit set adds what it copied. -/
theorem whole_call_returned (maxLen : UInt16) (hidle : s.pc = .idle) (hbase : s.dev.mmioBase ≠ 0)
    (hdone : s.dev.rxDone = true) :
    (run rxStep s (wholeCall maxLen)).2.returned = s.returned ++ [(maxLen, s.dev.rxCopy maxLen)] := by
  obtain ⟨dev, pc, accepted, returned⟩ := s
  obtain rfl : pc = .idle := hidle
  simp [wholeCall, run, rxStep, hbase, hdone]

theorem Owned.delivers (h : Owned s.dev s.pc s.accepted s.returned) : Delivers s := by
  have hle := cleared_le_copied s.pc
  refine ⟨h.inOrder, ?kept, ?spared, ?next⟩
  case kept =>
    intro k frame hk hframe
    exact (h.filled k frame (by omega) hframe).1
  case spared =>
    intro arriving k hk hlt
    rcases nic_store_cases s.dev arriving with hdrop | ⟨dev, hstore, hfills⟩
    · simp only [rxStep, hdrop]
    · simp only [rxStep, hstore]
      exact hfills.buf _ (h.head_ne hfills.room (by omega) hlt)
  case next =>
    intro maxLen frame hidle hframe
    have hlt := (List.getElem?_eq_some_iff.mp hframe).1
    rw [hidle] at h
    have hdone := h.done_iff.mpr hlt
    have hcopy := (h.filled _ frame (Nat.le_refl _) hframe).1.copy h.tail maxLen
    refine ⟨?_, ?_⟩
    · have hlen : (s.dev.rxCopy maxLen).length = (s.dev.rxLen maxLen).toNat := by
        rw [E1000.rxCopy, List.length_map, List.length_range]
      unfold e1000Recv
      rw [if_neg h.base, hdone, Bool.not_true, if_neg Bool.false_ne_true, ← hcopy, hlen]
    · rw [← hcopy]
      exact whole_call_returned maxLen hidle h.base hdone

theorem Silent.delivers (h : Silent s) : Delivers s := by
  refine ⟨?_, ?_, ?_, ?_⟩
  · intro k hk
    rw [h.returned] at hk
    cases hk
  · intro k frame _ hframe
    rw [h.accepted] at hframe
    cases hframe
  · intro _ k _ hk
    rw [h.accepted] at hk
    cases hk
  · intro _ frame _ hframe
    rw [h.accepted] at hframe
    cases hframe

theorem init_ring_ok (bar0 : Option UInt32) : RingOk (afterInit bar0) := by
  cases bar0 with
  | none => exact .inr ⟨rfl, rfl, rfl, rfl, rfl⟩
  | some bar0 =>
    by_cases hbase : bar0 &&& ~~~0xF = 0
    · exact .inr (init_silent hbase)
    · exact .inl (init_owned hbase)

theorem RingOk.step (h : RingOk s) (event : RxEvent) : RingOk (rxStep s event).2 :=
  h.imp (·.step event) (·.step event)

theorem RingOk.delivers (h : RingOk s) : Delivers s := h.elim Owned.delivers Silent.delivers

/-- Frames may arrive between any two accesses of `e1000_recv` to the ring. -/
theorem frames_delivered (bar0 : Option UInt32) (events : List RxEvent) :
    Delivers (run rxStep (afterInit bar0) events).2 := by
  have hok : RingOk (run rxStep (afterInit bar0) events).2 :=
    run_invariant (fun _ event _ h => h.step event) (fun _ _ => trivial) (init_ring_ok bar0)
  exact hok.delivers

end BaSic.Proofs.RxRing
