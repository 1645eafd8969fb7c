import BaSic.Kernel.Terminal
import BaSic.Lib.Mailbox
import BaSic.Proofs.KeyFlags

namespace BaSic.Proofs.TermInput
open Kernel Lib Lib.Mailbox KeyFlags

/-- The character of a code in the tables; NUL where there is none. -/
def tableChar (shift : Bool) (sc : UInt8) : UInt8 := (if shift then scAsciiShift else scAscii).getD sc.toNat 0

def keyChar (shift ctrl : Bool) (sc : UInt8) : UInt8 :=
  if tableChar shift sc ≠ 0 ∧ ctrl then ctrlChar (tableChar shift sc) else tableChar shift sc

/-- Where the interrupt leaves a character. -/
def filled (c : UInt8) : Option UInt8 := if c = 0 then none else some c

/-- The character that a byte types. -/
def typedChar (kb : Keyboard) (sc : UInt8) : Option UInt8 :=
  if sc = 0xFF ∨ kb.extPending ∨ sc &&& 0x80 ≠ 0 then none else filled (keyChar kb.shiftHeld kb.ctrlHeld sc)

/-- The extended key that a byte says is pressed. -/
def typedExt (kb : Keyboard) (sc : UInt8) : Option UInt8 :=
  if kb.extPending ∧ sc &&& 0x80 = 0 then filled sc else none

variable {kb kb' : Keyboard} {sc c : UInt8} {s : Input}

/-- The keys that hold a modifier have no character. -/
theorem modifier_char (shift ctrl : Bool) (hsc : sc = 0x2A ∨ sc = 0x36 ∨ sc = 0x1D) : keyChar shift ctrl sc = 0 := by
  rcases hsc with rfl | rfl | rfl <;> cases shift <;> cases ctrl <;> decide +kernel

theorem ctrl_char_ne (hc : c ≠ 0) : ctrlChar c ≠ 0 := by
  unfold ctrlChar
  split_ifs with hlower hupper
  · intro h
    rw [sub_eq_zero.mp h] at hlower
    exact absurd hlower (by decide)
  · intro h
    rw [sub_eq_zero.mp h] at hupper
    exact absurd hupper (by decide)
  · exact hc

theorem key_char_zero (shift ctrl : Bool) (sc : UInt8) : keyChar shift ctrl sc = 0 ↔ tableChar shift sc = 0 := by
  unfold keyChar
  by_cases hboth : tableChar shift sc ≠ 0 ∧ ctrl = true
  · rw [if_pos hboth]
    exact iff_of_false (ctrl_char_ne hboth.1) hboth.1
  · rw [if_neg hboth]

/-- Both tables end with the space bar. -/
theorem key_char_past (shift ctrl : Bool) (hsc : scTableSize ≤ sc.toNat) : keyChar shift ctrl sc = 0 := by
  rw [key_char_zero]
  unfold tableChar
  cases shift with
  | false => exact List.getD_eq_default _ _ hsc
  | true => exact List.getD_eq_default _ _ (tables_alike.trans_le hsc)

theorem key_typed_char (kb : Keyboard) (sc : UInt8) :
    (keyTyped kb sc).lastChar = (filled (keyChar kb.shiftHeld kb.ctrlHeld sc)).getD kb.lastChar := by
  unfold keyTyped filled
  by_cases hsize : scTableSize ≤ sc.toNat
  · rw [if_pos hsize, if_pos (key_char_past _ _ hsize)]
    rfl
  · rw [if_neg hsize]
    change (if tableChar kb.shiftHeld sc = 0 then kb else
      { kb with lastChar :=
          if kb.ctrlHeld then ctrlChar (tableChar kb.shiftHeld sc) else tableChar kb.shiftHeld sc }).lastChar = _
    by_cases hnul : tableChar kb.shiftHeld sc = 0
    · rw [if_pos hnul, if_pos ((key_char_zero _ _ _).mpr hnul)]
      rfl
    · rw [if_neg hnul, if_neg (fun h => hnul ((key_char_zero _ _ _).mp h))]
      simp [keyChar, hnul]

theorem key_typed_rest (kb : Keyboard) (sc : UInt8) :
    (keyTyped kb sc).lastExtSc = kb.lastExtSc ∧ (keyTyped kb sc).extPending = kb.extPending ∧
      (keyTyped kb sc).shiftHeld = kb.shiftHeld ∧ (keyTyped kb sc).ctrlHeld = kb.ctrlHeld := by
  unfold keyTyped
  dsimp only
  split_ifs <;> exact ⟨rfl, rfl, rfl, rfl⟩

/-- The interrupt puts a character, or leaves the place alone. -/
theorem irq_char (kb : Keyboard) (sc : UInt8) :
    (keyboardIrqHandler kb sc).lastChar = (typedChar kb sc).getD kb.lastChar := by
  unfold keyboardIrqHandler typedChar
  by_cases hnone : sc = 0x00 ∨ sc = 0xFF
  · rw [if_pos hnone]
    rcases hnone with rfl | rfl
    · have hzero : keyChar kb.shiftHeld kb.ctrlHeld 0x00 = 0 := by
        cases kb.shiftHeld <;> cases kb.ctrlHeld <;> decide +kernel
      simp [hzero, filled]
    · simp
  rw [if_neg hnone]
  by_cases hprefix : sc = 0xE0
  · subst hprefix
    have hup : (0xE0 : UInt8) &&& 0x80 ≠ 0 := by decide
    simp [hup]
  rw [if_neg hprefix]
  by_cases hpending : kb.extPending
  · rw [if_pos hpending, if_pos (Or.inr (Or.inl hpending))]
    split <;> rfl
  rw [if_neg hpending]
  by_cases hup : sc &&& 0x80 ≠ 0
  · rw [if_pos hup, if_pos (Or.inr (Or.inr hup))]
    dsimp only
    split_ifs <;> rfl
  have hplain : ¬ (sc = 0xFF ∨ kb.extPending = true ∨ sc &&& 0x80 ≠ 0) :=
    not_or.mpr ⟨fun h => hnone (Or.inr h), not_or.mpr ⟨hpending, hup⟩⟩
  rw [if_neg hup, if_neg hplain]
  by_cases hshift : sc = 0x2A ∨ sc = 0x36
  · rw [if_pos hshift, modifier_char _ _ (hshift.imp_right Or.inl)]
    rfl
  rw [if_neg hshift]
  by_cases hctrl : sc = 0x1D
  · rw [if_pos hctrl, modifier_char _ _ (Or.inr (Or.inr hctrl))]
    rfl
  rw [if_neg hctrl]
  exact key_typed_char kb sc

theorem irq_ext (kb : Keyboard) (sc : UInt8) :
    (keyboardIrqHandler kb sc).lastExtSc = (typedExt kb sc).getD kb.lastExtSc := by
  unfold keyboardIrqHandler typedExt
  by_cases hnone : sc = 0x00 ∨ sc = 0xFF
  · rw [if_pos hnone]
    rcases hnone with rfl | rfl
    · simp [filled]
    · have hup : (0xFF : UInt8) &&& 0x80 ≠ 0 := by decide
      simp [hup]
  rw [if_neg hnone]
  by_cases hprefix : sc = 0xE0
  · subst hprefix
    have hup : (0xE0 : UInt8) &&& 0x80 ≠ 0 := by decide
    simp [hup]
  rw [if_neg hprefix]
  by_cases hpending : kb.extPending
  · have hfilled : filled sc = some sc := if_neg (fun h => hnone (Or.inl h))
    rw [if_pos hpending, hfilled]
    by_cases hup : sc &&& 0x80 = 0
    · rw [if_pos hup, if_pos ⟨hpending, hup⟩]
      rfl
    · rw [if_neg hup, if_neg (not_and_of_not_right _ hup)]
      rfl
  rw [if_neg hpending, if_neg (not_and_of_not_left _ hpending)]
  split
  · dsimp only
    split_ifs <;> rfl
  · split_ifs
    · rfl
    · rfl
    · exact (key_typed_rest kb sc).1

theorem typed_filled (h : typedChar kb sc = some c) : filled c = some c := by
  unfold typedChar filled at h
  split_ifs at h with _ hnul
  cases h
  exact if_neg hnul

theorem pressed_filled (h : typedExt kb sc = some c) : filled c = some c := by
  unfold typedExt filled at h
  split_ifs at h with _ hnul
  cases h
  exact if_neg hnul

theorem filled_get (c : UInt8) : (filled c).getD 0 = c := by
  unfold filled
  split
  · rename_i hc
    exact hc.symm
  · rfl

/-- The character of an event, if it is one. -/
def charOf : TermEvent → List UInt8
  | .char c => [c]
  | _ => []

/-- The event, if it is that of an extended key. -/
def navOf : TermEvent → List TermEvent
  | .none | .char _ => []
  | e => [e]

theorem char_of_event (c : UInt8) : charOf (charEvent c) = (filled c).toList := by
  unfold charEvent filled
  by_cases hc : c = 0
  · rw [if_neg (not_not.mpr hc), if_pos hc]
    rfl
  · rw [if_pos hc, if_neg hc]
    rfl

theorem char_of_ext (sc : UInt8) : charOf (decodeExt sc) = [] := by
  unfold decodeExt
  split <;> rfl

theorem nav_of_char (c : UInt8) : navOf (charEvent c) = [] := by
  unfold charEvent
  split <;> rfl

/-- The characters returned so far, and that of the call under way. -/
def Input.chars (s : Input) : List UInt8 :=
  s.returned.flatMap charOf ++ match s.pc with
    | .charRead c => (filled c).toList
    | _ => []

/-- The extended keys returned so far, and that of the call under way. -/
def Input.navs (s : Input) : List TermEvent :=
  s.returned.flatMap navOf ++ match s.pc with
    | .extRead ext => (filled ext).toList.flatMap (fun ext => navOf (decodeExt ext))
    | _ => []

/-- `last_char`, as the interrupt fills it and the calls read and then clear it. -/
def charPlace : Served inputStep UInt8 UInt8 where
  act s e := match e with
    | .irq sc => (typedChar s.keyboard sc).map .put
    | .poll => none
    | .getchar => match s.pc with
      | .idle => some .look
      | _ => none
    | .next => match s.pc with
      | .extCleared => some .look
      | .charRead _ => some .clear
      | _ => none
  held s := filled s.keyboard.lastChar
  view c := [c]
  read s := Input.chars s
  looked s := match s.pc with
    | .charRead _ => true
    | _ => false
  held_step s e := by
    cases e with
    | irq sc =>
      simp only [inputStep, irq_char]
      cases htyped : typedChar s.keyboard sc with
      | none => rfl
      | some c => exact typed_filled htyped
    | poll =>
      cases hpc : s.pc <;> simp [inputStep, hpc]
    | getchar =>
      cases hpc : s.pc <;> simp [inputStep, hpc, PlaceAct.on]
    | next =>
      cases hpc : s.pc with
      | extRead ext =>
        simp only [inputStep, hpc]
        split <;> rfl
      | charRead c => simp [inputStep, hpc, PlaceAct.on, filled]
      | _ => simp [inputStep, hpc, PlaceAct.on]
  read_step s e := by
    cases e with
    | irq sc =>
      cases typedChar s.keyboard sc <;> simp [inputStep, Input.chars]
    | poll =>
      cases hpc : s.pc <;> simp [inputStep, Input.chars, hpc]
    | getchar =>
      cases hpc : s.pc <;> simp [inputStep, Input.chars, hpc]
    | next =>
      cases hpc : s.pc with
      | extRead ext =>
        simp only [inputStep, Input.chars, hpc]
        split <;> simp [char_of_ext]
      | charRead c => simp [inputStep, Input.chars, hpc, char_of_event]
      | _ => simp [inputStep, Input.chars, hpc]
  looked_step s e := by
    cases e with
    | irq sc =>
      cases typedChar s.keyboard sc <;> simp [inputStep]
    | poll =>
      cases hpc : s.pc <;> simp [inputStep, hpc]
    | getchar =>
      cases hpc : s.pc <;> simp [inputStep, hpc]
    | next =>
      cases hpc : s.pc with
      | extRead ext =>
        by_cases hext : ext = 0 <;> simp [inputStep, hpc, hext]
      | _ => simp [inputStep, hpc]

/-- `last_ext_sc`, which `term_poll` reads first. -/
def extPlace : Served inputStep UInt8 TermEvent where
  act s e := match e with
    | .irq sc => (typedExt s.keyboard sc).map .put
    | .poll => match s.pc with
      | .idle => some .look
      | _ => none
    | .getchar => none
    | .next => match s.pc with
      | .extRead _ => some .clear
      | _ => none
  held s := filled s.keyboard.lastExtSc
  view ext := navOf (decodeExt ext)
  read s := Input.navs s
  looked s := match s.pc with
    | .extRead _ => true
    | _ => false
  held_step s e := by
    cases e with
    | irq sc =>
      simp only [inputStep, irq_ext]
      cases hpressed : typedExt s.keyboard sc with
      | none => rfl
      | some c => exact pressed_filled hpressed
    | poll =>
      cases hpc : s.pc <;> simp [inputStep, hpc, PlaceAct.on]
    | getchar =>
      cases hpc : s.pc <;> simp [inputStep, hpc]
    | next =>
      cases hpc : s.pc with
      | extRead ext =>
        simp only [inputStep, hpc]
        split <;> simp [PlaceAct.on, filled]
      | _ => simp [inputStep, hpc]
  read_step s e := by
    cases e with
    | irq sc =>
      cases typedExt s.keyboard sc <;> simp [inputStep, Input.navs]
    | poll =>
      cases hpc : s.pc <;> simp [inputStep, Input.navs, hpc]
    | getchar =>
      cases hpc : s.pc <;> simp [inputStep, Input.navs, hpc]
    | next =>
      cases hpc : s.pc with
      | extRead ext =>
        simp only [inputStep, Input.navs, hpc]
        by_cases hext : ext = 0
        · simp [hext, filled]
        · simp [hext, filled]
      | charRead c => simp [inputStep, Input.navs, hpc, nav_of_char]
      | _ => simp [inputStep, Input.navs, hpc]
  looked_step s e := by
    cases e with
    | irq sc =>
      cases typedExt s.keyboard sc <;> simp [inputStep]
    | poll =>
      cases hpc : s.pc <;> simp [inputStep, hpc]
    | getchar =>
      cases hpc : s.pc <;> simp [inputStep, hpc]
    | next =>
      cases hpc : s.pc with
      | extRead ext =>
        by_cases hext : ext = 0 <;> simp [inputStep, hpc, hext]
      | _ => simp [inputStep, hpc]

/-- The modifiers and the prefix, which say what the next byte types. -/
structure SameFlags (kb kb' : Keyboard) : Prop where
  shift : kb.shiftHeld = kb'.shiftHeld
  ctrl : kb.ctrlHeld = kb'.ctrlHeld
  pending : kb.extPending = kb'.extPending

theorem SameFlags.typed (h : SameFlags kb kb') (sc : UInt8) : SameFlags (keyTyped kb sc) (keyTyped kb' sc) := by
  obtain ⟨-, hpending, hshift, hctrl⟩ := key_typed_rest kb sc
  obtain ⟨-, hpending', hshift', hctrl'⟩ := key_typed_rest kb' sc
  exact ⟨hshift.trans (h.shift.trans hshift'.symm), hctrl.trans (h.ctrl.trans hctrl'.symm),
    hpending.trans (h.pending.trans hpending'.symm)⟩

theorem SameFlags.irq (h : SameFlags kb kb') (sc : UInt8) :
    SameFlags (keyboardIrqHandler kb sc) (keyboardIrqHandler kb' sc) := by
  have htyped := h.typed sc
  obtain ⟨lastChar, shift, ctrl, pending, lastExt⟩ := kb
  obtain ⟨lastChar', shift', ctrl', pending', lastExt'⟩ := kb'
  obtain ⟨hshift, hctrl, hpending⟩ := h
  dsimp only at hshift hctrl hpending
  subst hshift hctrl hpending
  unfold keyboardIrqHandler
  dsimp only
  split_ifs <;> first | exact ⟨rfl, rfl, rfl⟩ | exact htyped

theorem SameFlags.char (h : SameFlags kb kb') (sc : UInt8) : typedChar kb sc = typedChar kb' sc := by
  unfold typedChar
  rw [h.shift, h.ctrl, h.pending]

theorem SameFlags.ext (h : SameFlags kb kb') (sc : UInt8) : typedExt kb sc = typedExt kb' sc := by
  unfold typedExt
  rw [h.pending]

/-- Nothing but the interrupt touches the flags. -/
theorem call_flags {e : InputEvent} (h : SameFlags s.keyboard kb) (he : ∀ sc, e ≠ .irq sc) :
    SameFlags (inputStep s e).keyboard kb := by
  cases e with
  | irq sc => exact absurd rfl (he sc)
  | poll =>
    cases hpc : s.pc <;> simpa [inputStep, hpc] using h
  | getchar =>
    cases hpc : s.pc <;> simpa [inputStep, hpc] using h
  | next =>
    cases hpc : s.pc with
    | extRead ext => by_cases hext : ext = 0 <;> simpa [inputStep, hpc, hext] using ⟨h.shift, h.ctrl, h.pending⟩
    | charRead c => simpa [inputStep, hpc] using ⟨h.shift, h.ctrl, h.pending⟩
    | _ => simpa [inputStep, hpc] using h

/-- The bytes of the keyboard in a run. -/
def bytesOf : List InputEvent → List UInt8
  | [] => []
  | .irq sc :: events => sc :: bytesOf events
  | _ :: events => bytesOf events

/-- What bytes type one after the other, with no one reading. -/
def typed (what : Keyboard → UInt8 → Option UInt8) : Keyboard → List UInt8 → List UInt8
  | _, [] => []
  | kb, sc :: bytes => (what kb sc).toList ++ typed what (keyboardIrqHandler kb sc) bytes

/-- When the keys come has no influence on what they type. -/
theorem puts_typed {β : Type} {what : Keyboard → UInt8 → Option UInt8} (p : Served inputStep UInt8 β)
    (hirq : ∀ s sc, p.act s (.irq sc) = (what s.keyboard sc).map .put)
    (hcall : ∀ s e v, (∀ sc, e ≠ .irq sc) → p.act s e ≠ some (.put v))
    (hflags : ∀ kb kb' sc, SameFlags kb kb' → what kb sc = what kb' sc) (h : SameFlags s.keyboard kb)
    (events : List InputEvent) : puts (p.acts s events) = typed what kb (bytesOf events) := by
  induction events generalizing s kb with
  | nil => rfl
  | cons e events ih =>
    rw [p.acts_cons]
    by_cases he : ∃ sc, e = .irq sc
    · obtain ⟨sc, rfl⟩ := he
      have hrest := ih (s := inputStep s (.irq sc)) (h.irq sc)
      rw [hirq, hflags _ _ sc h]
      cases hwhat : what kb sc with
      | none => simp [bytesOf, typed, hwhat, hrest]
      | some c => simp [bytesOf, typed, hwhat, hrest, puts]
    · have hnot : ∀ sc, e ≠ .irq sc := fun sc hsc => he ⟨sc, hsc⟩
      have hrest := ih (call_flags h hnot)
      have hbytes : bytesOf (e :: events) = bytesOf events := by
        cases e with
        | irq sc => exact absurd rfl (hnot sc)
        | _ => rfl
      rw [hbytes, ← hrest]
      cases hact : p.act s e with
      | none => rfl
      | some a =>
        cases a with
        | put v => exact absurd hact (hcall s e v hnot)
        | _ => rfl

theorem char_puts (s : Input) (events : List InputEvent) :
    puts (charPlace.acts s events) = typed typedChar s.keyboard (bytesOf events) := by
  refine puts_typed charPlace (fun s sc => rfl) (fun s e v he hact => ?_) (fun kb kb' sc h => h.char sc) ⟨rfl, rfl, rfl⟩ events
  cases e with
  | irq sc => exact he sc rfl
  | poll => cases hact
  | getchar => cases hpc : s.pc <;> simp [charPlace, hpc] at hact
  | next => cases hpc : s.pc <;> simp [charPlace, hpc] at hact

theorem ext_puts (s : Input) (events : List InputEvent) :
    puts (extPlace.acts s events) = typed typedExt s.keyboard (bytesOf events) := by
  refine puts_typed extPlace (fun s sc => rfl) (fun s e v he hact => ?_) (fun kb kb' sc h => h.ext sc) ⟨rfl, rfl, rfl⟩ events
  cases e with
  | irq sc => exact he sc rfl
  | getchar => cases hact
  | poll => cases hpc : s.pc <;> simp [extPlace, hpc] at hact
  | next => cases hpc : s.pc <;> simp [extPlace, hpc] at hact

/-- What the calls of a run return of the keys of one kind: each key that is read before another
of the kind is typed and before a call that looked earlier clears it, once, in the order typed;
all of them, if none is overtaken. -/
structure Delivered {β : Type} (p : Served inputStep UInt8 β) (what : Keyboard → UInt8 → Option UInt8)
    (events : List InputEvent) (s : Input) : Prop where
  typed : puts (p.acts inputStart events) = typed what keyboardInit (bytesOf events)
  read : p.read s = (met (p.acts inputStart events)).flatMap p.view
  order : (met (p.acts inputStart events)).Sublist (TermInput.typed what keyboardInit (bytesOf events))
  all : Kept (p.acts inputStart events) → p.read s = (TermInput.typed what keyboardInit (bytesOf events)).flatMap p.view

theorem delivered {β : Type} {p : Served inputStep UInt8 β} {what : Keyboard → UInt8 → Option UInt8}
    {events : List InputEvent} (hputs : puts (p.acts inputStart events) = typed what keyboardInit (bytesOf events))
    (hheld : p.held inputStart = none) (hread : p.read inputStart = []) :
    Delivered p what events (events.foldl inputStep inputStart) := by
  have hmet := p.reads_met hheld events
  rw [hread, List.nil_append] at hmet
  refine ⟨hputs, hmet, hputs ▸ met_sublist _, fun hkept => ?_⟩
  rw [hmet, met_kept hkept, hputs]

/-- However the interrupts of the keyboard fall between the accesses of the calls. -/
theorem keys_are_read (events : List InputEvent) :
    Delivered charPlace typedChar events (events.foldl inputStep inputStart) ∧
      Delivered extPlace typedExt events (events.foldl inputStep inputStart) :=
  ⟨delivered (char_puts inputStart events) rfl rfl, delivered (ext_puts inputStart events) rfl rfl⟩

/-- What a key event means to a program, with the modifiers as they are held. -/
def meaning (shift ctrl : Bool) (e : KeyEvent) : TermEvent :=
  if e.pressed = false then .none
  else if e.key.extended then decodeExt e.key.code
  else charEvent (keyChar shift ctrl e.key.code)

/-- The meanings of the events of a typist, who holds the keys given at first. -/
def meanings (down : Key → Bool) : List KeyEvent → List TermEvent
  | [] => []
  | e :: typing =>
    meaning (down leftShift || down rightShift) (down leftCtrl || down rightCtrl) e ::
      meanings (Function.update down e.key e.pressed) typing

/-- An event with a whole poll behind it. -/
def attended (e : KeyEvent) : List InputEvent := e.scancodes.map .irq ++ [.poll, .next, .next, .next]

/-- A poll that is not interrupted is `term_poll`. -/
theorem poll_alone (hpc : s.pc = .idle) : [.poll, .next, .next, .next].foldl inputStep s =
    ⟨(termPoll s.keyboard).2, .idle, s.returned ++ [(termPoll s.keyboard).1]⟩ := by
  by_cases hext : s.keyboard.lastExtSc = 0 <;>
    simp [inputStep, hpc, hext, termPoll, keyboardGetExt, keyboardGetchar]

theorem irqs_alone (s : Input) (bytes : List UInt8) :
    (bytes.map InputEvent.irq).foldl inputStep s = { s with keyboard := bytes.foldl keyboardIrqHandler s.keyboard } := by
  induction bytes generalizing s with
  | nil => rfl
  | cons sc bytes ih => exact ih _

variable {shift ctrl : Bool}

/-- The driver takes an event, with no key waiting: at most one of its places is filled. -/
theorem event_places (h : Waits kb shift ctrl) (hchar : kb.lastChar = 0) (hext : kb.lastExtSc = 0) (e : KeyEvent) :
    (e.scancodes.foldl keyboardIrqHandler kb).lastExtSc = (if e.pressed ∧ e.key.extended then e.key.code else 0) ∧
      (e.scancodes.foldl keyboardIrqHandler kb).lastChar =
        (if e.pressed ∧ e.key.extended = false then keyChar shift ctrl e.key.code else 0) := by
  obtain ⟨k, pressed⟩ := e
  cases hkind : k.extended with
  | true =>
    have hprefix : keyboardIrqHandler kb 0xE0 = { kb with extPending := true } := rfl
    cases pressed with
    | true =>
      have hpressed : ∀ c x a b, typedExt ⟨c, a, b, true, x⟩ k.code = filled k.code :=
        fun _ _ _ _ => if_pos ⟨rfl, k.press_bit⟩
      simp [KeyEvent.scancodes, hkind, hprefix, irq_char, irq_ext, hpressed, typedChar, hchar, hext, filled_get]
    | false =>
      have hreleased : ∀ c x a b, typedExt ⟨c, a, b, true, x⟩ (k.code ||| 0x80) = none :=
        fun _ _ _ _ => if_neg (not_and_of_not_right _ k.release_bit)
      simp [KeyEvent.scancodes, hkind, hprefix, irq_char, irq_ext, hreleased, typedChar, hchar, hext]
  | false =>
    have hno : ∀ sc, typedExt kb sc = none := fun sc =>
      if_neg (not_and_of_not_left _ (Bool.eq_false_iff.mp h.pending))
    cases pressed with
    | true =>
      have hplain : ¬ (k.code = 0xFF ∨ kb.extPending = true ∨ k.code &&& 0x80 ≠ 0) :=
        not_or.mpr ⟨fun hc => k.press_read.1 (Or.inr hc),
          not_or.mpr ⟨Bool.eq_false_iff.mp h.pending, not_not.mpr k.press_bit⟩⟩
      have htyped : typedChar kb k.code = filled (keyChar shift ctrl k.code) := by
        rw [← h.shift, ← h.ctrl]
        exact if_neg hplain
      simp [KeyEvent.scancodes, hkind, irq_char, irq_ext, htyped, hno, hchar, hext, filled_get]
    | false =>
      have htyped : typedChar kb (k.code ||| 0x80) = none := if_pos (Or.inr (Or.inr k.release_bit))
      simp [KeyEvent.scancodes, hkind, irq_char, irq_ext, htyped, hno, hchar, hext]

/-- A poll right behind an event returns its meaning, and leaves no key waiting. -/
theorem event_polled (h : Waits kb shift ctrl) (hchar : kb.lastChar = 0) (hext : kb.lastExtSc = 0) (e : KeyEvent) :
    (termPoll (e.scancodes.foldl keyboardIrqHandler kb)).1 = meaning shift ctrl e ∧
      (termPoll (e.scancodes.foldl keyboardIrqHandler kb)).2.lastChar = 0 ∧
      (termPoll (e.scancodes.foldl keyboardIrqHandler kb)).2.lastExtSc = 0 ∧
      SameFlags (termPoll (e.scancodes.foldl keyboardIrqHandler kb)).2 (e.scancodes.foldl keyboardIrqHandler kb) := by
  obtain ⟨hlastExt, hlastChar⟩ := event_places h hchar hext e
  generalize e.scancodes.foldl keyboardIrqHandler kb = kb₁ at hlastExt hlastChar ⊢
  obtain ⟨k, pressed⟩ := e
  have hcode := k.plain.1
  cases hkind : k.extended <;> cases pressed <;>
    simp [hkind] at hlastExt hlastChar <;>
    simp [termPoll, keyboardGetExt, keyboardGetchar, meaning, hkind, hlastExt, hlastChar, hcode, charEvent] <;>
    exact ⟨rfl, rfl, rfl⟩

theorem SameFlags.events (h : SameFlags kb kb') (bytes : List UInt8) :
    SameFlags (bytes.foldl keyboardIrqHandler kb) (bytes.foldl keyboardIrqHandler kb') := by
  induction bytes generalizing kb kb' with
  | nil => exact h
  | cons sc bytes ih => exact ih (h.irq sc)

/-- A program that polls between the keys gets every key, the characters with the modifiers as
they are held, as long as one key of each pair counts. -/
theorem typing_is_read {typing : List KeyEvent} (h : Along OneKeyCounts handleEvent noKeys typing) :
    ((typing.flatMap attended).foldl inputStep inputStart).returned = meanings (fun _ => false) typing := by
  have hall : ∀ (t : Typing) (s : Input), LeftOnly t → FlagsRight t → SameFlags s.keyboard t.keyboard →
      s.keyboard.lastChar = 0 → s.keyboard.lastExtSc = 0 → s.pc = .idle → Along OneKeyCounts handleEvent t typing →
      ((typing.flatMap attended).foldl inputStep s).returned = s.returned ++ meanings t.down typing := by
    clear h
    induction typing with
    | nil => intro t s _ _ _ _ _ _ _; exact (List.append_nil _).symm
    | cons e typing ih =>
      intro t s hleft hright hflags hchar hext hpc h
      have hwaits : Waits s.keyboard (t.down leftShift || t.down rightShift) (t.down leftCtrl || t.down rightCtrl) :=
        ⟨hflags.pending.trans hleft.pending, hflags.shift.trans hright.shift, hflags.ctrl.trans hright.ctrl⟩
      obtain ⟨hpolled, hchar', hext', hflags'⟩ := event_polled hwaits hchar hext e
      have hright' := (flags_right_step t e hleft hright).mpr h.1
      have hpoll := poll_alone (s := ⟨e.scancodes.foldl keyboardIrqHandler s.keyboard, s.pc, s.returned⟩) hpc
      rw [List.flatMap_cons, List.foldl_append, attended, List.foldl_append, irqs_alone, hpoll,
        ih (handleEvent t e).2 _ (left_only_step t e hleft) hright' ?_ hchar' hext' rfl h.2, hpolled]
      · simp [meanings, handleEvent]
      · have hdriver := hflags.events e.scancodes
        exact ⟨hflags'.shift.trans hdriver.shift, hflags'.ctrl.trans hdriver.ctrl, hflags'.pending.trans hdriver.pending⟩
  exact hall noKeys inputStart ⟨rfl, rfl⟩ ⟨rfl, rfl⟩ ⟨rfl, rfl, rfl⟩ rfl rfl rfl h

instance (t : Typing) (e : KeyEvent) : Decidable (OneKeyCounts t e) :=
  decidable_of_iff ((e.key = leftShift → e.pressed = false → t.down rightShift = false) ∧
      (e.key = rightShift → e.pressed = false → t.down leftShift = false) ∧
      (e.key = rightCtrl → e.pressed = true → t.down leftCtrl = true) ∧
      (e.key = leftCtrl → e.pressed = false → t.down rightCtrl = false))
    ⟨fun ⟨hls, hrs, hrc, hlc⟩ => ⟨hls, hrs, hrc, hlc⟩,
      fun h => ⟨h.leftShiftUp, h.rightShiftUp, h.rightCtrlDown, h.leftCtrlUp⟩⟩

def aKey : Key := ⟨false, 0x1E, by decide, by decide⟩
def upKey : Key := ⟨true, 0x48, by decide, by decide⟩

theorem typing_is_read_upper :
    (([⟨leftShift, true⟩, ⟨aKey, true⟩, ⟨aKey, false⟩, ⟨leftShift, false⟩, ⟨upKey, true⟩].flatMap attended).foldl
        inputStep inputStart).returned =
      meanings (fun _ => false) [⟨leftShift, true⟩, ⟨aKey, true⟩, ⟨aKey, false⟩, ⟨leftShift, false⟩, ⟨upKey, true⟩] :=
  typing_is_read (by decide)

end BaSic.Proofs.TermInput
