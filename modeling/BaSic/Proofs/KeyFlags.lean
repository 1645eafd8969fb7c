import BaSic.Kernel.Keyboard
import BaSic.Lib.Steps
import BaSic.Lib.Words

namespace BaSic.Proofs.KeyFlags
open Kernel Lib Fs

/-- A key of scancode set 1: neither of its codes is an error code or a prefix. -/
structure Key where
  extended : Bool
  code : UInt8
  low : code < 0x80
  plain : code ≠ 0x00 ∧ code ≠ 0x60 ∧ code ≠ 0x61 ∧ code ≠ 0x7F
  deriving DecidableEq

def leftShift : Key := ⟨false, 0x2A, by decide, by decide⟩
def rightShift : Key := ⟨false, 0x36, by decide, by decide⟩
def leftCtrl : Key := ⟨false, 0x1D, by decide, by decide⟩
def rightCtrl : Key := ⟨true, 0x1D, by decide, by decide⟩

/-- A key goes down, or comes up again. -/
structure KeyEvent where
  key : Key
  pressed : Bool

/-- The bytes of an event at the data port. -/
def KeyEvent.scancodes (e : KeyEvent) : List UInt8 :=
  (if e.key.extended then [0xE0] else []) ++ [if e.pressed then e.key.code else e.key.code ||| 0x80]

/-- The driver, and the keys that are down. -/
structure Typing where
  keyboard : Keyboard
  down : Key → Bool

def handleEvent (s : Typing) (e : KeyEvent) : Unit × Typing :=
  ((), ⟨e.scancodes.foldl keyboardIrqHandler s.keyboard, Function.update s.down e.key e.pressed⟩)

/-- After `keyboard_init`, with no key down. -/
def noKeys : Typing := ⟨keyboardInit, fun _ => false⟩

/-- The flags are set exactly while one of the two keys of each is down. -/
structure FlagsRight (s : Typing) : Prop where
  shift : s.keyboard.shiftHeld = (s.down leftShift || s.down rightShift)
  ctrl : s.keyboard.ctrlHeld = (s.down leftCtrl || s.down rightCtrl)

/-- No shift key comes up while the other is down, the right Ctrl goes down only while the
left is, and the left does not come up while the right is down. -/
structure OneKeyCounts (s : Typing) (e : KeyEvent) : Prop where
  leftShiftUp : e.key = leftShift → e.pressed = false → s.down rightShift = false
  rightShiftUp : e.key = rightShift → e.pressed = false → s.down leftShift = false
  rightCtrlDown : e.key = rightCtrl → e.pressed = true → s.down leftCtrl = true
  leftCtrlUp : e.key = leftCtrl → e.pressed = false → s.down rightCtrl = false

/-- No prefix is pending, and the control flag is that of the left key. -/
structure LeftOnly (s : Typing) : Prop where
  pending : s.keyboard.extPending = false
  ctrl : s.keyboard.ctrlHeld = s.down leftCtrl

variable {kb : Keyboard} {s : Typing}

/-- The index of a key of one table is inside the other. -/
theorem tables_alike : scAsciiShift.length = scTableSize := by
  have hplain : scTableSize = 58 := congrArg List.length (utf8_of_chars _)
  have hshift : scAsciiShift.length = 58 := congrArg List.length (utf8_of_chars _)
  rw [hplain, hshift]

theorem Key.press_bit (k : Key) : k.code &&& 0x80 = 0 := by
  apply UInt8.toNat_inj.mp
  have hlow : k.code.toNat < 2 ^ 7 := k.low
  rw [UInt8.toNat_and]
  change k.code.toNat &&& 2 ^ 7 = 0
  rw [Nat.and_two_pow, Nat.testBit_lt_two_pow hlow]
  rfl

theorem Key.release_bit (k : Key) : (k.code ||| 0x80) &&& 0x80 ≠ 0 := by
  rw [byte_or_and, k.press_bit]
  decide

theorem Key.released (k : Key) : (k.code ||| 0x80) &&& 0x7F = k.code := by
  have hlow : k.code.toNat < 2 ^ 7 := k.low
  rw [byte_or_and]
  apply UInt8.toNat_inj.mp
  rw [UInt8.toNat_or, UInt8.toNat_and]
  change (k.code.toNat &&& 2 ^ 7 - 1) ||| 0 = k.code.toNat
  rw [Nat.or_zero, Nat.and_two_pow_sub_one_of_lt_two_pow hlow]

theorem key_eq {k l : Key} : k = l ↔ k.extended = l.extended ∧ k.code = l.code := by
  cases k
  cases l
  simp

theorem Key.press_read (k : Key) : ¬(k.code = 0x00 ∨ k.code = 0xFF) ∧ k.code ≠ 0xE0 := by
  have hbit := k.press_bit
  refine ⟨not_or.mpr ⟨k.plain.1, fun hc => ?_⟩, fun hc => ?_⟩
  all_goals
    rw [hc] at hbit
    cases hbit

theorem Key.release_read (k : Key) :
    ¬(k.code ||| 0x80 = 0x00 ∨ k.code ||| 0x80 = 0xFF) ∧ k.code ||| 0x80 ≠ 0xE0 := by
  have hcode := k.released
  obtain ⟨h0, h60, -, h7f⟩ := k.plain
  refine ⟨not_or.mpr ⟨fun hc => h0 ?_, fun hc => h7f ?_⟩, fun hc => h60 ?_⟩
  all_goals
    rw [← hcode, hc]
    rfl

/-- The driver expects the first byte of an event, and its flags. -/
structure Waits (kb : Keyboard) (shift ctrl : Bool) : Prop where
  pending : kb.extPending = false
  shift : kb.shiftHeld = shift
  ctrl : kb.ctrlHeld = ctrl

variable {shift ctrl : Bool} {k : Key}

theorem key_typed_flags (h : Waits kb shift ctrl) (sc : UInt8) : Waits (keyTyped kb sc) shift ctrl := by
  unfold keyTyped
  by_cases hsize : scTableSize ≤ sc.toNat
  · rw [if_pos hsize]
    exact h
  · rw [if_neg hsize]
    dsimp only
    generalize List.getD _ _ _ = c
    by_cases hc : c = 0
    · rw [if_pos hc]
      exact h
    · rw [if_neg hc]
      exact ⟨h.pending, h.shift, h.ctrl⟩

theorem press_flags (h : Waits kb shift ctrl) (k : Key) : Waits (keyboardIrqHandler kb k.code)
    (if k.code = 0x2A ∨ k.code = 0x36 then true else shift) (if k.code = 0x1D then true else ctrl) := by
  unfold keyboardIrqHandler
  rw [if_neg k.press_read.1, if_neg k.press_read.2, if_neg (Bool.eq_false_iff.mp h.pending), if_neg (not_not.mpr k.press_bit)]
  by_cases hshift : k.code = 0x2A ∨ k.code = 0x36
  · have hctrl : k.code ≠ 0x1D := by
      rcases hshift with hc | hc
      all_goals
        rw [hc]
        decide
    rw [if_pos hshift, if_pos hshift, if_neg hctrl]
    exact ⟨h.pending, rfl, h.ctrl⟩
  · rw [if_neg hshift, if_neg hshift]
    by_cases hctrl : k.code = 0x1D
    · rw [if_pos hctrl, if_pos hctrl]
      exact ⟨h.pending, h.shift, rfl⟩
    · rw [if_neg hctrl, if_neg hctrl]
      exact key_typed_flags h k.code

theorem release_flags (h : Waits kb shift ctrl) (k : Key) : Waits (keyboardIrqHandler kb (k.code ||| 0x80))
    (if k.code = 0x2A ∨ k.code = 0x36 then false else shift) (if k.code = 0x1D then false else ctrl) := by
  unfold keyboardIrqHandler
  rw [if_neg k.release_read.1, if_neg k.release_read.2, if_neg (Bool.eq_false_iff.mp h.pending), if_pos k.release_bit, k.released]
  dsimp only
  by_cases hshift : k.code = 0x2A ∨ k.code = 0x36
  · rw [if_pos hshift, if_pos hshift]
    split
    · exact ⟨h.pending, rfl, rfl⟩
    · exact ⟨h.pending, rfl, h.ctrl⟩
  · rw [if_neg hshift, if_neg hshift]
    split
    · exact ⟨h.pending, h.shift, rfl⟩
    · exact h

/-- A byte behind the prefix leaves the flags alone. -/
theorem extended_flags (h : Waits kb shift ctrl) {sc : UInt8} (hsc : ¬(sc = 0x00 ∨ sc = 0xFF) ∧ sc ≠ 0xE0) :
    Waits (keyboardIrqHandler (keyboardIrqHandler kb 0xE0) sc) shift ctrl := by
  have hpending : keyboardIrqHandler kb 0xE0 = { kb with extPending := true } := rfl
  unfold keyboardIrqHandler at hpending ⊢
  rw [hpending, if_neg hsc.1, if_neg hsc.2, if_pos rfl]
  split_ifs
  · exact ⟨rfl, h.shift, h.ctrl⟩
  · exact ⟨rfl, h.shift, h.ctrl⟩

/-- The driver's flags are set and cleared by the two shift keys and by the left Ctrl. -/
theorem event_flags (h : Waits kb shift ctrl) (e : KeyEvent) : Waits (e.scancodes.foldl keyboardIrqHandler kb)
    (if e.key = leftShift ∨ e.key = rightShift then e.pressed else shift)
    (if e.key = leftCtrl then e.pressed else ctrl) := by
  obtain ⟨k, pressed⟩ := e
  simp only [key_eq, leftShift, rightShift, leftCtrl, KeyEvent.scancodes]
  cases hext : k.extended with
  | true =>
    simp only [Bool.true_eq_false, false_and, or_self, if_false]
    cases pressed with
    | true => exact extended_flags h k.press_read
    | false => exact extended_flags h k.release_read
  | false =>
    simp only [true_and]
    cases pressed with
    | true => exact press_flags h k
    | false => exact release_flags h k

theorem left_only_step (s : Typing) (e : KeyEvent) (h : LeftOnly s) : LeftOnly (handleEvent s e).2 := by
  have hflags := event_flags ⟨h.pending, rfl, rfl⟩ e
  refine ⟨hflags.pending, hflags.ctrl.trans ?_⟩
  dsimp only [handleEvent]
  rw [Function.update_apply, h.ctrl]
  exact if_congr eq_comm rfl rfl

theorem shift_right_step (s : Typing) (e : KeyEvent) :
    (if e.key = leftShift ∨ e.key = rightShift then e.pressed else (s.down leftShift || s.down rightShift)) =
        ((handleEvent s e).2.down leftShift || (handleEvent s e).2.down rightShift) ↔
      (e.key = leftShift → e.pressed = false → s.down rightShift = false) ∧
        (e.key = rightShift → e.pressed = false → s.down leftShift = false) := by
  have hne : leftShift ≠ rightShift := by decide
  obtain ⟨k, pressed⟩ := e
  simp only [handleEvent, Function.update_apply]
  by_cases hl : k = leftShift
  · subst hl
    cases pressed <;> simp [hne, hne.symm]
  · by_cases hr : k = rightShift
    · subst hr
      cases pressed <;> simp [hne, hne.symm]
    · simp [hl, hr, Ne.symm hl, Ne.symm hr]

/-- The right Ctrl is down with the left one only, or the flag would be wrong before. -/
theorem ctrl_right_step (s : Typing) (e : KeyEvent) (hboth : s.down rightCtrl = true → s.down leftCtrl = true) :
    (if e.key = leftCtrl then e.pressed else s.down leftCtrl) =
        ((handleEvent s e).2.down leftCtrl || (handleEvent s e).2.down rightCtrl) ↔
      (e.key = rightCtrl → e.pressed = true → s.down leftCtrl = true) ∧
        (e.key = leftCtrl → e.pressed = false → s.down rightCtrl = false) := by
  have hne : leftCtrl ≠ rightCtrl := by decide
  obtain ⟨k, pressed⟩ := e
  simp only [handleEvent, Function.update_apply]
  by_cases hl : k = leftCtrl
  · subst hl
    cases pressed <;> simp [hne, hne.symm]
  · by_cases hr : k = rightCtrl
    · subst hr
      cases pressed <;> simp [hne, hne.symm]
    · simpa [hl, hr, Ne.symm hl, Ne.symm hr] using hboth

theorem flags_right_step (s : Typing) (e : KeyEvent) (hj : LeftOnly s) (hi : FlagsRight s) :
    FlagsRight (handleEvent s e).2 ↔ OneKeyCounts s e := by
  have hflags := event_flags ⟨hj.pending, hi.shift, hj.ctrl⟩ e
  have hboth : s.down rightCtrl = true → s.down leftCtrl = true := by
    intro hdown
    rw [← hj.ctrl, hi.ctrl, hdown, Bool.or_true]
  have hshift := shift_right_step s e
  have hctrl := ctrl_right_step s e hboth
  rw [← hflags.shift] at hshift
  rw [← hflags.ctrl] at hctrl
  constructor
  · intro h
    obtain ⟨hls, hrs⟩ := hshift.mp h.shift
    obtain ⟨hrc, hlc⟩ := hctrl.mp h.ctrl
    exact ⟨hls, hrs, hrc, hlc⟩
  · intro h
    exact ⟨hshift.mpr ⟨h.leftShiftUp, h.rightShiftUp⟩, hctrl.mpr ⟨h.rightCtrlDown, h.leftCtrlUp⟩⟩

/-- In every state reached the flags are right exactly when every event on the way is one
where a single key of each pair counts. -/
theorem flags_right_along (events : List KeyEvent) :
    Along (After handleEvent FlagsRight) handleEvent noKeys events ↔ Along OneKeyCounts handleEvent noKeys events :=
  Along.after_iff (fun s e hj _ _ => left_only_step s e hj) flags_right_step ⟨rfl, rfl⟩ ⟨rfl, rfl⟩ events

/-- Both shift keys down and the left one up again: the right one no longer counts. -/
theorem second_shift_lost : ¬ ∀ events, Along (After handleEvent FlagsRight) handleEvent noKeys events := by
  intro h
  have hlast := (h [⟨leftShift, true⟩, ⟨rightShift, true⟩, ⟨leftShift, false⟩]).2.2.1.shift
  revert hlast
  decide

end BaSic.Proofs.KeyFlags
