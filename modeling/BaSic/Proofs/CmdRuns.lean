import BaSic.Proofs.CmdBounds

namespace BaSic.Proofs.CmdRuns
open Kernel Lib CmdBounds

variable {s s' : CmdLine} {i col : Int} {k : Nat} {text : List UInt8}

/-- It ends with the property, or does not end. -/
def Ends {α : Type} (P : α → Prop) : Except Fault α → Prop
  | .ok a => P a
  | .error e => e = .timeout

theorem Ends.bind {α β : Type} {P : α → Prop} {Q : β → Prop} {x : Except Fault α} {f : α → Except Fault β}
    (h : Ends P x) (hf : ∀ a, P a → Ends Q (f a)) : Ends Q (x >>= f) := by
  cases x with
  | error e => exact h
  | ok a => exact hf a h

theorem entries_ok (h : Room s) (hi : 0 ≤ i) : ∃ entries, entriesFrom s i k = .ok entries := by
  induction k generalizing i with
  | zero => exact ⟨[], rfl⟩
  | succ k ih =>
    obtain ⟨row, text, hrow, htext, -⟩ := row_text_ok h (i := i) (Or.inl hi)
    obtain ⟨entries, hentries⟩ := ih (i := i + 1) (by omega)
    unfold entriesFrom
    rw [hrow, ok_bind, htext, ok_bind, hentries, ok_bind]
    exact ⟨_, rfl⟩

theorem save_loop_ok (h : Room s) (hi : 0 ≤ i) (hbuf : List UInt8) : ∃ bytes, saveLoop s hbuf i k = .ok bytes := by
  induction k generalizing i hbuf with
  | zero => exact ⟨hbuf, rfl⟩
  | succ k ih =>
    obtain ⟨row, text, hrow, htext, -⟩ := row_text_ok h (i := i) (Or.inl hi)
    unfold saveLoop
    rw [hrow, ok_bind, htext, ok_bind]
    split
    · exact ⟨hbuf, rfl⟩
    · exact ih (by omega) _

theorem oldest_nonneg (s : CmdLine) : 0 ≤ oldestEntry s := by
  unfold oldestEntry historySize
  split
  · omega
  · exact Int.le_refl 0

/-- A state that a command may leave: the buffer as it should be, and the history as it was. -/
structure Served {W : Type} (s : CmdLine) (st : ShellState W) : Prop where
  room : Room st.1
  history : st.1.history = s.history
  count : st.1.historyCount = s.historyCount
  idx : st.1.historyIdx = s.historyIdx

variable {W : Type} {commands : Commands W} {w : W} {st : ShellState W} {e : CmdEntry}
  {cmdRun : List UInt8 → ShellState W → Except Fault (ShellState W)}

/-- What is done to the buffer and the length alone. -/
theorem Served.edited (h : Served s st) {t : CmdLine} (hroom : Room t) (hhistory : t.history = st.1.history)
    (hcount : t.historyCount = st.1.historyCount) (hidx : t.historyIdx = st.1.historyIdx) (w : W) :
    Served s (t, w) :=
  ⟨hroom, hhistory.trans h.history, hcount.trans h.count, hidx.trans h.idx⟩

theorem Served.world (h : Served s (s', w)) (w' : W) : Served s (s', w') := ⟨h.room, h.history, h.count, h.idx⟩

theorem split_args_served (h : Served s (s', w)) (h₀ : 0 ≤ e.off) (h₁ : e.off ≤ 77) :
    Ends (Served s) (splitArgs commands s' w e) := by
  have hlast : s'.cmdBuf 77 = 0 := h.room.last
  have hend : decide (s'.cmdBuf 77 ≠ 0 ∧ s'.cmdBuf 77 ≠ 32) = false := by simp [hlast]
  obtain ⟨first, hfirst, -, hle⟩ :=
    span_ok (fun c => decide (c ≠ 0 ∧ c ≠ 32)) h₀ h₁ (by decide) hend unlimited
  have hsp : 0 ≤ e.off + (first.length : Int) := by omega
  unfold splitArgs
  rw [hfirst, ok_bind]
  dsimp only
  rw [char_at_ok hsp hle, ok_bind]
  split
  · rename_i hblank
    have hlt : e.off + (first.length : Int) ≠ 77 := by
      intro h77
      rw [h77, hlast] at hblank
      exact absurd hblank (by decide)
    have hroom := h.room.set (i := e.off + first.length) (c := 0) (fun _ => rfl)
    obtain ⟨arg, harg, -⟩ := str_ok hroom.last h₀ h₁
    obtain ⟨arg', harg', -⟩ := str_ok hroom.last (i := e.off + first.length + 1) (by omega) (by omega)
    rw [set_char_ok hsp hle, ok_bind, harg, ok_bind, harg']
    exact h.edited hroom rfl rfl rfl _
  · exact h

theorem signal_args_served (h : Served s (s', w)) (h₀ : 0 ≤ e.off) (h₁ : e.off ≤ 77) :
    Ends (Served s) (signalArgs commands s' w e) := by
  have hlast : s'.cmdBuf 77 = 0 := h.room.last
  have hend : isDigit (s'.cmdBuf 77) = false := by
    rw [hlast]
    decide
  obtain ⟨pid, hpid, -, hle⟩ := span_ok isDigit h₀ h₁ (by decide) hend unlimited
  unfold signalArgs
  rw [hpid, ok_bind]
  dsimp only
  rw [char_at_ok (by omega) hle, ok_bind]
  split
  · rename_i hblank
    have hlt : e.off + (pid.length : Int) ≠ 77 := by
      intro h77
      rw [h77, hlast] at hblank
      exact absurd hblank (by decide)
    obtain ⟨sig, hsig, -⟩ := span_ok isDigit (i := e.off + pid.length + 1) (by omega) (by omega) (by decide)
      hend unlimited
    rw [hsig]
    exact h.world _
  · exact h.world _

theorem command_offs : ∀ e ∈ commandTable, 0 ≤ e.off ∧ e.off ≤ 77 := by decide

theorem run_entry_served (hrun : ∀ path st, Served s st → Ends (Served s) (cmdRun path st)) (h : Served s (s', w))
    (he : e ∈ commandTable) : Ends (Served s) (runEntry commands cmdRun s' w e) := by
  obtain ⟨h₀, h₁⟩ := command_offs e he
  unfold runEntry
  cases e.kind with
  | plain => exact h.world _
  | listHistory =>
    obtain ⟨entries, hentries⟩ :=
      entries_ok h.room (oldest_nonneg s') (k := (s'.historyCount - oldestEntry s').toNat)
    dsimp only
    unfold cmdHistory
    rw [hentries]
    exact h.world _
  | saveHistory =>
    obtain ⟨bytes, hbytes⟩ :=
      save_loop_ok h.room (oldest_nonneg s') [] (k := (s'.historyCount - oldestEntry s').toNat)
    dsimp only
    unfold historySave
    rw [hbytes]
    exact h.world _
  | rest =>
    obtain ⟨arg, harg, -⟩ := str_ok h.room.last h₀ h₁
    dsimp only
    rw [harg]
    exact h.world _
  | split => exact split_args_served h h₀ h₁
  | signal => exact signal_args_served h h₀ h₁
  | script =>
    obtain ⟨path, hpath, -⟩ := str_ok h.room.last h₀ h₁
    dsimp only
    rw [hpath]
    exact hrun path _ h

/-- The last entry in place of `!!`. -/
theorem expand_last_served (h : Served s (s', w)) :
    ∃ r, expandLast s' = .ok r ∧ ∀ t, r = some t → Served s (t, w) := by
  have hkept : ∃ r, (.ok (some s') : Except Fault (Option CmdLine)) = .ok r ∧
      ∀ t, r = some t → Served s (t, w) := ⟨_, rfl, fun t ht => Option.some.inj ht ▸ h⟩
  unfold expandLast
  split
  · rw [char_at_ok (Int.le_refl 0) (by decide), ok_bind, char_at_ok (by decide) (by decide), ok_bind]
    split
    · split
      · rename_i hpos
        obtain ⟨row, text, hrow, htext, hfits⟩ := row_text_ok h.room (i := s'.historyCount - 1) (Or.inl (by omega))
        rw [hrow, ok_bind, htext, ok_bind]
        split
        · rw [put_text_ok hfits.1]
          refine ⟨_, rfl, fun t ht => ?_⟩
          cases ht
          exact h.edited (put_text_room h.room hfits.1) rfl rfl rfl w
        · exact hkept
      · exact ⟨none, rfl, fun t ht => by cases ht⟩
    · exact hkept
  · exact hkept

theorem dispatch_served (hrun : ∀ path st, Served s st → Ends (Served s) (cmdRun path st)) (h : Served s st) :
    Ends (Served s) (dispatch commands cmdRun st) := by
  have hset : Served s ({ st.1 with cmdBuf := Function.update st.1.cmdBuf st.1.cmdLen 0 }, st.2) :=
    h.edited (h.room.set (fun _ => rfl)) rfl rfl rfl st.2
  unfold dispatch
  rw [set_char_ok h.room.len.1 h.room.len.2, ok_bind]
  split
  · exact hset
  · obtain ⟨r, hr, hserved⟩ := expand_last_served hset
    rw [hr, ok_bind]
    cases r with
    | none => exact hset
    | some t =>
      have ht := hserved t rfl
      obtain ⟨line, hline, -⟩ := str_ok ht.room.last (Int.le_refl 0) (by decide : (0 : Int) ≤ 77)
      dsimp only
      rw [hline, ok_bind]
      cases hfind : commandTable.find? (fun e => e.matches line) with
      | none => exact ht
      | some e => exact run_entry_served hrun ht (List.mem_of_find?_eq_some hfind)

theorem exec_line_served (hrun : ∀ path st, Served s st → Ends (Served s) (cmdRun path st)) (h : Served s st)
    (line : List UInt8) : Ends (Served s) (shellExecLine commands cmdRun line st) := by
  have htext : (line.take (cmdBufSize - 1).toNat).length ≤ 77 := List.length_take_le _ _
  unfold shellExecLine
  dsimp only
  rw [put_text_ok htext, ok_bind]
  refine (dispatch_served hrun (h.edited (put_text_room h.room htext) rfl rfl rfl st.2)).bind (fun u hu => ?_)
  have hcleared : Room { u.1 with cmdLen := 0, cmdBuf := fun _ => 0 } :=
    ⟨⟨Int.le_refl 0, (by decide : (0 : Int) ≤ 77)⟩, rfl, hu.room.rows, hu.room.counted⟩
  exact hu.edited hcleared rfl rfl rfl u.2

theorem run_lines_served {execLine : List UInt8 → ShellState W → Except Fault (ShellState W)}
    (hexec : ∀ line st, Served s st → Ends (Served s) (execLine line st)) (fuel : Nat) (h : Served s st) :
    Ends (Served s) (runLines commands execLine fuel st) := by
  induction fuel generalizing st with
  | zero => exact rfl
  | succ fuel ih =>
    obtain ⟨t, w⟩ := st
    unfold runLines
    split
    · exact h.world _
    · exact (hexec _ _ (h.world _)).bind (fun u hu => ih hu)

theorem cmd_run_served (fuel : Nat) (path : List UInt8) (h : Served s st) :
    Ends (Served s) (Kernel.cmdRun commands fuel path st) := by
  induction fuel generalizing path st with
  | zero => exact rfl
  | succ fuel ih =>
    obtain ⟨t, w⟩ := st
    unfold Kernel.cmdRun
    split
    · exact h
    · exact run_lines_served (fun line _ hst => exec_line_served (fun path _ hst => ih path hst) hst line) fuel
        (h.world _)

/-- The row of an entry stored as the next one. -/
def storedRow (s : CmdLine) (line : List UInt8) : Int → UInt8 :=
  Function.update (copyStr (s.history (s.historyCount.tmod historySize)) line) 77 0

/-- The state with a line stored. -/
def stored (s : CmdLine) (line : List UInt8) : CmdLine :=
  { s with history := Function.update s.history (s.historyCount.tmod historySize) (storedRow s line),
           historyCount := wrapInt (s.historyCount + 1) }

variable {line : List UInt8}

theorem push_row_stored (hrow : 0 ≤ s.historyCount.tmod historySize) : pushRow s line = .ok (stored s line) := by
  unfold pushRow CmdLine.rowAt
  rw [if_pos hrow]
  rfl

theorem push_row_ok (hrow : HasRow s.historyCount) : pushRow s line = .ok (stored s line) :=
  push_row_stored (slot_nonneg hrow)

theorem stored_rows (h : Room s) (slot : Int) : (stored s line).history slot 77 = 0 := by
  unfold stored storedRow
  dsimp only
  by_cases hslot : slot = s.historyCount.tmod historySize
  · rw [hslot, Function.update_self, Function.update_self]
  · rw [Function.update_of_ne hslot]
    exact h.rows slot

/-- A line that is not empty is stored, if its number leads to a row. -/
theorem history_push_ok (h : Room s) (hlen : s.cmdLen ≠ 0) (hcount : s.historyCount ≠ -2147483647) :
    ∃ line, sourceAt s.cmdBuf = .ok line ∧ historyPush s = .ok { stored s line with historyIdx := -1 } ∧
      Room { stored s line with historyIdx := -1 } := by
  obtain ⟨line, hline, -⟩ := source_ok h.last
  refine ⟨line, hline, ?_, h.len, h.last, stored_rows h, h.counted.push hcount⟩
  unfold historyPush
  rw [if_neg hlen, hline, ok_bind, push_row_ok (h.counted.has_row hcount)]
  rfl

theorem history_push_fault (h : Room s) (hlen : s.cmdLen ≠ 0) (hcount : s.historyCount = -2147483647) :
    historyPush s = .error (.outOfBounds 0) := by
  obtain ⟨line, hline, -⟩ := source_ok h.last
  have hrow : ¬ 0 ≤ s.historyCount.tmod historySize := by
    rw [hcount]
    decide
  unfold historyPush pushRow CmdLine.rowAt
  rw [if_neg hlen, hline, ok_bind, if_neg hrow]
  rfl

/-- The entries there are after a line. -/
def countAfter (s : CmdLine) : Int := if s.cmdLen = 0 then s.historyCount else wrapInt (s.historyCount + 1)

theorem history_push_room (h : Room s) (hcount : s.cmdLen ≠ 0 → s.historyCount ≠ -2147483647) :
    ∃ s', historyPush s = .ok s' ∧ Room s' ∧ s'.historyCount = countAfter s := by
  unfold countAfter
  by_cases hlen : s.cmdLen = 0
  · refine ⟨s, ?_, h, (if_pos hlen).symm⟩
    unfold historyPush
    exact if_pos hlen
  · obtain ⟨line, -, hpush, hroom⟩ := history_push_ok h hlen (hcount hlen)
    exact ⟨_, hpush, hroom, (if_neg hlen).symm⟩

variable {fuel : Nat} {key : ShellKey}

/-- After the line has been pushed Enter leaves an empty line and the history as it is. -/
theorem enter_served (commands : Commands W) (fuel : Nat) (h : Good st.1) (hpush : historyPush st.1 = .ok s')
    (hroom : Room s') :
    Ends (fun u : ShellState W => Good u.1 ∧ u.1.cmdLen = 0 ∧ u.1.history = s'.history ∧
      u.1.historyCount = s'.historyCount) (enterLine commands fuel st) := by
  have hserved : Served s' (s', st.2) := ⟨hroom, rfl, rfl, rfl⟩
  unfold enterLine
  rw [echo_input_ok h.len.2, ok_bind, hpush, ok_bind]
  refine (dispatch_served (fun path _ hst => cmd_run_served fuel path hst) hserved).bind (fun u hu => ?_)
  obtain ⟨t, w⟩ := u
  have hgood := clear_good hu.room
  dsimp only
  rw [prompt_redraw_ok hgood.len.2]
  exact ⟨hgood, rfl, hu.history, hu.count⟩

/-- Enter leaves an empty line, and one entry more if the line was not empty. -/
theorem enter_good (commands : Commands W) (fuel : Nat) (h : Good st.1)
    (hcount : st.1.cmdLen ≠ 0 → st.1.historyCount ≠ -2147483647) :
    Ends (fun u : ShellState W => Good u.1 ∧ u.1.historyCount = countAfter st.1) (enterLine commands fuel st) := by
  obtain ⟨s', hpush, hroom, hafter⟩ := history_push_room h.toRoom hcount
  have hserved := enter_served commands fuel h hpush hroom
  cases hrun : enterLine commands fuel st with
  | error e =>
    rw [hrun] at hserved
    exact hserved
  | ok u =>
    rw [hrun] at hserved
    obtain ⟨hgood, -, -, hcount⟩ := hserved
    exact ⟨hgood, hcount.trans hafter⟩

theorem enter_fault (h : Good st.1) (hlen : st.1.cmdLen ≠ 0) (hcount : st.1.historyCount = -2147483647) :
    enterLine commands fuel st = .error (.outOfBounds 0) := by
  unfold enterLine
  rw [echo_input_ok h.len.2, ok_bind, history_push_fault h.toRoom hlen hcount]
  rfl

/-- The shell and its keys; once it has failed it stays so. -/
def keyStep (commands : Commands W) (fuel : Nat) (x : Except Fault (ShellState W)) (key : ShellKey) :
    Unit × Except Fault (ShellState W) :=
  ((), x >>= fun st => shellKey commands fuel st key)

def bootShell (commands : Commands W) (w : W) (file : Option (List UInt8)) : Except Fault (ShellState W) := do
  let s ← shellInit file (commands.promptCol w)
  .ok (s, w)

/-- No access was out of bounds, and the cursor is in the line and the line in the buffer. -/
def InBounds (x : Except Fault (ShellState W)) : Prop :=
  Ends (fun st : ShellState W =>
    0 ≤ st.1.cursorPos ∧ st.1.cursorPos ≤ st.1.cmdLen ∧ st.1.cmdLen ≤ cmdBufSize - 1) x

/-- A line is entered that is empty, or whose number leads to a row. -/
def CountFits (x : Except Fault (ShellState W)) (key : ShellKey) : Prop :=
  ∀ st, x = .ok st → key.isEnter = true → st.1.cmdLen ≠ 0 → st.1.historyCount ≠ -2147483647

def StaysGood (x : Except Fault (ShellState W)) : Prop := ∀ st, x = .ok st → Good st.1

theorem good_in_bounds (h : Good st.1) : InBounds (.ok st) := by
  have hlen := h.len
  exact ⟨h.cursor.1, h.cursor.2, hlen.2⟩

theorem key_good (commands : Commands W) (fuel : Nat) (h : Good st.1) (hfits : CountFits (.ok st) key) :
    Ends (fun u : ShellState W => Good u.1) (shellKey commands fuel st key) := by
  unfold shellKey
  split
  · rename_i henter
    have hends := enter_good commands fuel h (hfits st rfl henter)
    cases hrun : enterLine commands fuel st with
    | error e =>
      rw [hrun] at hends
      exact hends
    | ok u =>
      rw [hrun] at hends
      exact hends.1
  · obtain ⟨s', hs', hgood⟩ := edit_key_good (commands.promptCol st.2) h key
    rw [hs']
    exact hgood

theorem step_stays_good {x : Except Fault (ShellState W)} (h : StaysGood x) (hfits : CountFits x key) :
    StaysGood (keyStep commands fuel x key).2 := by
  intro u hu
  cases x with
  | error e => cases hu
  | ok st =>
    have hends := key_good commands fuel (h st rfl) hfits
    have hrun : shellKey commands fuel st key = .ok u := hu
    rw [hrun] at hends
    exact hends

/-- One key keeps the bounds exactly when a line entered has a row to go to. -/
theorem step_in_bounds_iff {x : Except Fault (ShellState W)} (h : StaysGood x) (hb : InBounds x) :
    InBounds (keyStep commands fuel x key).2 ↔ CountFits x key := by
  cases x with
  | error e => exact iff_of_true hb (fun st hst => by cases hst)
  | ok st =>
    have hgood := h st rfl
    constructor
    · intro hafter st' hst henter hlen hcount
      cases hst
      have hrun : (keyStep commands fuel (.ok st) key).2 = .error (.outOfBounds 0) :=
        (if_pos henter).trans (enter_fault hgood hlen hcount)
      rw [hrun] at hafter
      cases hafter
    · intro hfits
      have hends := key_good commands fuel hgood hfits
      have hstep : (keyStep commands fuel (.ok st) key).2 = shellKey commands fuel st key := rfl
      rw [hstep]
      cases hrun : shellKey commands fuel st key with
      | error e =>
        rw [hrun] at hends
        exact hends
      | ok u =>
        rw [hrun] at hends
        exact good_in_bounds hends

/-- Loading keeps at most 64 entries. -/
theorem load_entries_good (h : Good s) (hidx : s.historyIdx = -1)
    (hcount : 0 ≤ s.historyCount ∧ s.historyCount ≤ 64) (text : List UInt8) (fuel : Nat) :
    ∃ s', loadEntries s text fuel = .ok s' ∧ Good s' ∧ s'.historyIdx = -1 ∧
      0 ≤ s'.historyCount ∧ s'.historyCount ≤ 64 := by
  induction fuel generalizing s text with
  | zero => exact ⟨s, rfl, h, hidx, hcount⟩
  | succ fuel ih =>
    unfold loadEntries
    split
    · exact ⟨s, rfl, h, hidx, hcount⟩
    · rename_i hmore
      rw [not_or] at hmore
      have hlt : s.historyCount < 64 := by
        have hnot := hmore.2
        unfold historySize at hnot
        omega
      dsimp only
      split
      · exact ih h hidx hcount _
      · have hroom := h.toRoom
        have hne : s.historyCount ≠ -2147483647 := by omega
        rw [push_row_ok (hroom.counted.has_row hne), ok_bind]
        have hnext : (stored s (text.takeWhile (· ≠ 10))).historyCount = s.historyCount + 1 := by
          unfold stored wrapInt
          dsimp only
          omega
        refine ih (s := stored s (text.takeWhile (· ≠ 10)))
          ⟨⟨h.len, h.last, stored_rows hroom, ?_⟩, h.cursor, h.filled⟩ hidx ?_ _
        · have hpush := hroom.counted.push hne
          have hidx' : (stored s (text.takeWhile (· ≠ 10))).historyIdx = -1 := hidx
          rw [hidx']
          exact hpush
        · rw [hnext]
          omega

theorem fresh_good : Good freshLine :=
  clear_good (s := freshLine)
    ⟨⟨Int.le_refl 0, by decide⟩, rfl, fun _ => rfl, Or.inl ⟨⟨Int.le_refl 0, by decide⟩, Or.inl rfl⟩⟩

theorem boot_good (commands : Commands W) (w : W) (file : Option (List UInt8)) :
    ∃ s, bootShell commands w file = .ok (s, w) ∧ Good s := by
  have hload : ∃ s, historyLoad freshLine file = .ok s ∧ Good s := by
    unfold historyLoad
    cases file with
    | none => exact ⟨_, rfl, fresh_good⟩
    | some bytes =>
      obtain ⟨s, hs, hgood, -⟩ := load_entries_good fresh_good rfl ⟨Int.le_refl 0, by decide⟩ _ _
      exact ⟨s, hs, hgood⟩
  obtain ⟨s, hs, hgood⟩ := hload
  unfold bootShell shellInit
  rw [hs, ok_bind, prompt_redraw_ok hgood.len.2]
  exact ⟨s, rfl, hgood⟩

/-- From boot on, every access is in bounds and the cursor in the line in every state of a
run, exactly when each line entered is empty or has a number that leads to a row. -/
theorem line_in_bounds_iff (commands : Commands W) (fuel : Nat) (w : W) (file : Option (List UInt8))
    (keys : List ShellKey) :
    InBounds (bootShell commands w file) ∧
        Along (After (keyStep commands fuel) InBounds) (keyStep commands fuel) (bootShell commands w file) keys ↔
      Along CountFits (keyStep commands fuel) (bootShell commands w file) keys := by
  obtain ⟨s, hboot, hgood⟩ := boot_good commands w file
  have hin : InBounds (bootShell commands w file) := hboot ▸ good_in_bounds hgood
  have hstays : StaysGood (bootShell commands w file) := by
    intro st hst
    obtain rfl := Except.ok.inj (hboot.symm.trans hst)
    exact hgood
  rw [and_iff_right hin]
  exact Along.after_iff (J := StaysGood) (fun _ _ h _ hfits => step_stays_good h hfits)
    (fun _ _ h hb => step_in_bounds_iff h hb) hstays hin keys

/-- Commands that do nothing. -/
def noCommands : Commands Unit := ⟨fun _ => 13, fun w _ _ => w, fun w _ => w, fun w _ => w, fun w => (none, w)⟩

/-- A line of one letter, as often as asked for. -/
def rounds : Nat → List ShellKey
  | 0 => []
  | n + 1 => .char 120 [] :: .char 10 [] :: rounds n

theorem failed_stays (commands : Commands W) (fuel : Nat) (e : Fault) (keys : List ShellKey) :
    (run (keyStep commands fuel) (.error e) keys).2 = .error e := by
  induction keys with
  | nil => rfl
  | cons key keys ih => exact ih

/-- An empty line, cleared. -/
structure Cleared (s : CmdLine) : Prop extends Good s where
  buf : s.cmdBuf = fun _ => 0
  empty : s.cmdLen = 0

/-- The line after a letter. -/
def oneLetter (s : CmdLine) : CmdLine :=
  { s with cmdBuf := Function.update (fun _ => 0) 0 120, cursorPos := 1, cmdLen := 1 }

theorem letter_typed (h : Cleared s) : insertChar col s 120 = .ok (oneLetter s) := by
  have hcursor : s.cursorPos = 0 := by
    have hbounds := h.cursor
    rw [h.empty] at hbounds
    omega
  unfold insertChar
  rw [push_on_ok (by rw [h.empty]; decide) (by rw [h.empty, hcursor]; decide), ok_bind,
    set_char_ok (by rw [hcursor]) (by rw [hcursor]; decide), ok_bind]
  have hlen : s.cmdLen + 1 ≤ 77 := by
    rw [h.empty]
    decide
  dsimp only
  rw [prompt_redraw_ok hlen, h.empty, hcursor, h.buf]
  have hzero : moveOn (fun _ => (0 : UInt8)) 0 (0 - 0 : Int).toNat = fun _ => 0 := move_on_zero _ 0
  rw [hzero]
  rfl

theorem one_letter_good (h : Cleared s) : Good (oneLetter s) := by
  obtain ⟨s', hs', hgood⟩ := insert_char_good 0 h.toGood (c := 120) (by rw [h.empty]; decide) (by decide)
  rw [letter_typed h] at hs'
  exact Except.ok.inj hs' ▸ hgood

/-- No command has this name. -/
theorem letter_dispatched (hbuf : s.cmdBuf = (oneLetter s).cmdBuf) (hlen : s.cmdLen = 1)
    (cmdRun : List UInt8 → ShellState Unit → Except Fault (ShellState Unit)) :
    dispatch noCommands cmdRun (s, ()) = .ok ({ s with cmdBuf := Function.update (oneLetter s).cmdBuf 1 0 }, ()) := by
  have htext : strAt (Function.update (oneLetter s).cmdBuf 1 0) 0 = .ok [120] := rfl
  have hnone : commandTable.find? (fun e => e.matches [120]) = none := by
    rw [List.find?_eq_none]
    decide +kernel
  unfold dispatch expandLast
  dsimp only
  rw [hlen, set_char_ok (by decide) (by decide), ok_bind]
  dsimp only
  rw [hlen, hbuf, if_neg (by decide), if_neg (by decide), ok_bind]
  dsimp only
  rw [htext, ok_bind, hnone]

theorem letter_entered (fuel : Nat) (h : Cleared s) (hcount : s.historyCount ≠ -2147483647) :
    ∃ s', shellKey noCommands fuel (oneLetter s, ()) (.char 10 []) = .ok (s', ()) ∧ Cleared s' ∧
      s'.historyCount = wrapInt (s.historyCount + 1) := by
  have hgood := one_letter_good h
  have hone : (oneLetter s).cmdLen ≠ 0 := by
    unfold oneLetter
    exact one_ne_zero
  obtain ⟨line, -, hpush, hroom⟩ := history_push_ok hgood.toRoom hone hcount
  have hkey : shellKey noCommands fuel (oneLetter s, ()) (.char 10 []) =
      enterLine noCommands fuel (oneLetter s, ()) := rfl
  rw [hkey]
  unfold enterLine
  dsimp only
  rw [echo_input_ok hgood.len.2, ok_bind, hpush, ok_bind, letter_dispatched rfl rfl, ok_bind]
  dsimp only
  have hcleared := clear_good (hroom.set (i := 1) (c := 0) (fun _ => rfl))
  rw [prompt_redraw_ok (by exact hcleared.len.2)]
  exact ⟨_, rfl, ⟨hcleared, rfl, rfl⟩, rfl⟩

/-- The rounds there are still to come to reach the number that leads to no row. -/
theorem rounds_fault {n : Nat} {m : Int} (h₀ : 0 ≤ m) (h₁ : m ≤ 2147483649) (hmn : m + n ≥ 2147483650)
    (h : Cleared s) (hcount : s.historyCount = wrapInt m) :
    ¬ InBounds (run (keyStep noCommands fuel) (.ok (s, ())) (rounds n)).2 := by
  induction n generalizing s m with
  | zero =>
    have hzero : ((0 : Nat) : Int) = 0 := rfl
    omega
  | succ n ih =>
    have htyped : shellKey noCommands fuel (s, ()) (.char 120 []) = .ok (oneLetter s, ()) := by
      have hedit : editKey 13 s (.char 120 []) = .ok (oneLetter s) := by
        have hroom : (32 : UInt8) ≤ 120 ∧ (120 : UInt8) < 127 ∧ s.cmdLen < cmdBufSize - 1 := by
          rw [h.empty]
          decide
        exact (if_pos hroom).trans (letter_typed h)
      unfold shellKey
      rw [if_neg (by decide)]
      dsimp only
      have hcol : noCommands.promptCol () = 13 := rfl
      rw [hcol, hedit]
      rfl
    have hfirst : (keyStep noCommands fuel (.ok (s, ())) (.char 120 [])).2 = .ok (oneLetter s, ()) := htyped
    have hrun : (run (keyStep noCommands fuel) (.ok (s, ())) (rounds (n + 1))).2 =
        (run (keyStep noCommands fuel) (shellKey noCommands fuel (oneLetter s, ()) (.char 10 [])) (rounds n)).2 := by
      change (run (keyStep noCommands fuel) (keyStep noCommands fuel
        (keyStep noCommands fuel (.ok (s, ())) (.char 120 [])).2 (.char 10 [])).2 (rounds n)).2 = _
      rw [hfirst]
      rfl
    rw [hrun]
    by_cases hlast : s.historyCount = -2147483647
    · have hfault : shellKey noCommands fuel (oneLetter s, ()) (.char 10 []) = .error (.outOfBounds 0) :=
        (if_pos rfl).trans (enter_fault (one_letter_good h) one_ne_zero hlast)
      rw [hfault, failed_stays]
      intro hbounds
      cases hbounds
    · obtain ⟨s', hs', hcleared, hnext⟩ := letter_entered fuel h hlast
      rw [hs']
      have hlt : m ≠ 2147483649 := by
        rintro rfl
        exact hlast hcount
      refine ih (m := m + 1) (by omega) (by omega) (by omega) hcleared ?_
      rw [hnext, hcount]
      unfold wrapInt
      omega

theorem count_overflows :
    ¬ InBounds (run (keyStep noCommands 0) (bootShell noCommands () none) (rounds 2147483650)).2 := by
  have hboot : bootShell noCommands () none = .ok (freshLine, ()) := rfl
  rw [hboot]
  exact rounds_fault (m := 0) (Int.le_refl 0) (by decide) (by decide) ⟨fresh_good, rfl, rfl⟩ rfl

end BaSic.Proofs.CmdRuns
