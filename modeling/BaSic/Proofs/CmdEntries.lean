import BaSic.Proofs.CmdRuns

namespace BaSic.Proofs.CmdEntries
open Kernel Lib CmdBounds CmdRuns

/-- The first `cmd_len` characters of `cmd_buf`. -/
def lineText (s : CmdLine) : List UInt8 := tabulate s.cmdLen.toNat (fun k => s.cmdBuf k)

/-- The string `history_push` leaves in the next row. -/
def pushedEntry (s : CmdLine) : Except Fault (List UInt8) := do
  let s' ← historyPush s
  let row ← s'.rowAt s.historyCount
  strAt row 0

/-- The string that `dispatch` compares with the names of the commands. -/
def dispatchedText (s : CmdLine) : Except Fault (List UInt8) := do
  let s ← s.setChar s.cmdLen 0
  strAt s.cmdBuf 0

variable {W : Type}

/-- A line entered is stored as it stands in the buffer, and given to `dispatch` so. -/
def EntryRight (x : Except Fault (ShellState W)) (key : ShellKey) : Prop :=
  ∀ st, x = .ok st → key.isEnter = true → st.1.cmdLen ≠ 0 →
    pushedEntry st.1 = .ok (lineText st.1) ∧ dispatchedText st.1 = .ok (lineText st.1)

/-- A line entered ends in a NUL, and has a row to go to. -/
def EndsInNul (x : Except Fault (ShellState W)) (key : ShellKey) : Prop :=
  ∀ st, x = .ok st → key.isEnter = true → st.1.cmdLen ≠ 0 →
    st.1.cmdBuf st.1.cmdLen = 0 ∧ st.1.historyCount ≠ -2147483647

variable {s : CmdLine} {a : Int → UInt8} {n : Nat} {line : List UInt8} {x : Except Fault (ShellState W)}
  {key : ShellKey} {commands : Commands W} {fuel : Nat}

theorem span_tabulate {i : Int} {m : Nat} (hi : 0 ≤ i) (hn : i + n ≤ 77)
    (hfull : ∀ k : Nat, k < n → a (i + k) ≠ 0) (hend : a (i + n) = 0) (hm : n < m) :
    spanFrom (· ≠ 0) a i m = .ok (tabulate n (fun k => a (i + k))) := by
  induction n generalizing i m with
  | zero =>
    obtain ⟨m, rfl⟩ := Nat.exists_eq_succ_of_ne_zero (Nat.ne_of_gt hm)
    have hzero : a i = 0 := (congrArg a (Int.add_zero i).symm).trans hend
    unfold spanFrom
    rw [if_pos ⟨hi, by unfold cmdBufSize; omega⟩, hzero]
    rfl
  | succ n ih =>
    obtain ⟨m, rfl⟩ := Nat.exists_eq_succ_of_ne_zero (Nat.ne_of_gt (Nat.lt_of_le_of_lt (Nat.zero_le _) hm))
    have hshift : ∀ k : Nat, i + 1 + k = i + ((k + 1 : Nat) : Int) := fun k => by omega
    have hfirst : a i ≠ 0 := by
      have hzero := hfull 0 (Nat.succ_pos _)
      rwa [show i + ((0 : Nat) : Int) = i from Int.add_zero i] at hzero
    have hrest := ih (i := i + 1) (m := m) (by omega) (by omega)
      (fun k hk => (hshift k).symm ▸ hfull (k + 1) (Nat.succ_lt_succ hk)) ((hshift n).symm ▸ hend) (by omega)
    unfold spanFrom
    rw [if_pos ⟨hi, by unfold cmdBufSize; omega⟩, if_pos (decide_eq_true hfirst), hrest, ok_bind, tabulate_succ]
    simp only [hshift]
    rw [show i + ((0 : Nat) : Int) = i from Int.add_zero i]

/-- The characters up to the first NUL are the string. -/
theorem str_at_tabulate (hn : n ≤ 77) (hfull : ∀ k : Nat, k < n → a k ≠ 0) (hend : a n = 0) :
    strAt a 0 = .ok (tabulate n (fun k => a k)) := by
  have hzero : ∀ k : Nat, (0 : Int) + k = k := fun k => Int.zero_add k
  have hspan := span_tabulate (a := a) (i := 0) (m := unlimited) (Int.le_refl 0) (by omega)
    (fun k hk => (hzero k).symm ▸ hfull k hk) ((hzero n).symm ▸ hend) (by unfold unlimited; omega)
  simp only [hzero] at hspan
  exact hspan

/-- An array that has the line, and a NUL behind it or at its end. -/
theorem filled_text (hline : Fits line) (hcopied : ∀ k : Nat, k < 77 → a k = line.getD k 0) (hlast : a 77 = 0) :
    strAt a 0 = .ok line := by
  have hfull : ∀ k : Nat, k < line.length → a k = line.getD k 0 :=
    fun k hk => hcopied k (Nat.lt_of_lt_of_le hk hline.1)
  have htext : tabulate line.length (fun k => a k) = line := by
    refine List.ext_getElem? (fun k => ?_)
    rw [tabulate_get?]
    split
    · rename_i hk
      rw [hfull k hk, List.getD_eq_getElem _ _ hk, List.getElem?_eq_getElem hk]
    · rename_i hk
      rw [List.getElem?_eq_none (by omega)]
  refine (str_at_tabulate hline.1 (fun k hk hzero => ?_) ?_).trans (congrArg Except.ok htext)
  · rw [hfull k hk, List.getD_eq_getElem _ _ hk] at hzero
    exact hline.2 (hzero ▸ List.getElem_mem _)
  · by_cases hk : line.length = 77
    · rw [hk]
      exact hlast
    · have hlen := hline.1
      rw [hcopied _ (by omega), List.getD_eq_default _ _ (Nat.le_refl _)]

theorem copy_str_char (a : Int → UInt8) (line : List UInt8) {k : Nat} (hk : k < 77) :
    copyStr a line k = line.getD k 0 := by
  unfold copyStr
  rw [if_pos (by omega), strncpy_from_apply, if_pos (by unfold cmdBufSize; omega), Int.toNat_natCast, Nat.sub_zero]

/-- What is copied is found again. -/
theorem copied_text (hline : Fits line) (hlast : a 77 = 0) : strAt (copyStr a line) 0 = .ok line :=
  filled_text hline (fun _ hk => copy_str_char a line hk) (copy_str_last hlast line)

/-- What is stored is found again. -/
theorem stored_row_text (hline : Fits line) : strAt (storedRow s line) 0 = .ok line := by
  refine filled_text hline (fun k hk => ?_) (Function.update_self ..)
  unfold storedRow
  rw [Function.update_of_ne (by omega)]
  exact copy_str_char _ line hk

/-- `strncpy` reads the whole string. -/
theorem source_str (hlast : a 77 = 0) : ∃ text, sourceAt a = .ok text ∧ strAt a 0 = .ok text ∧ Fits text := by
  obtain ⟨text, htext, hle, hnul, hspans⟩ := source_ok hlast
  have hzero : ∀ k : Nat, (0 : Int) + k = k := fun k => Int.zero_add k
  have heq := hspans.eq
  have hstop := hspans.stop
  simp only [hzero] at heq hstop
  have hfull : ∀ k : Nat, k < text.length → a k ≠ 0 := by
    intro k hk hno
    apply hnul
    rw [heq, mem_tabulate]
    exact ⟨k, hk, hno⟩
  have hend : a text.length = 0 := by
    by_cases hlt : text.length < 77
    · simpa using hstop hlt
    · have h77 : text.length = 77 := by omega
      simpa [h77] using hlast
  refine ⟨text, htext, ?_, hle, hnul⟩
  rw [str_at_tabulate hle hfull hend, ← heq]

/-- The text given to `dispatch` is the line, whatever comes after it. -/
theorem dispatched_text (h : Good s) : dispatchedText s = .ok (lineText s) := by
  have hlen := h.len
  have hnat : (s.cmdLen.toNat : Int) = s.cmdLen := Int.toNat_of_nonneg hlen.1
  have hkept : ∀ k : Nat, k < s.cmdLen.toNat → Function.update s.cmdBuf s.cmdLen 0 k = s.cmdBuf k :=
    fun k hk => Function.update_of_ne (by omega) ..
  unfold dispatchedText
  rw [set_char_ok hlen.1 hlen.2, ok_bind]
  dsimp only
  have htext := str_at_tabulate (a := Function.update s.cmdBuf s.cmdLen 0) (n := s.cmdLen.toNat) (by omega)
    (fun k hk hzero => h.filled k (Int.natCast_nonneg k) (by omega) ((hkept k hk).symm.trans hzero))
    (by rw [hnat]; exact Function.update_self ..)
  rw [htext]
  exact congrArg Except.ok (tabulate_congr hkept)

/-- The line is stored as far as the first NUL, so that nothing more is stored exactly when
the line ends in one. -/
theorem pushed_entry_iff (h : Good s) (hlen : s.cmdLen ≠ 0) :
    pushedEntry s = .ok (lineText s) ↔ s.cmdBuf s.cmdLen = 0 ∧ s.historyCount ≠ -2147483647 := by
  have hbounds := h.len
  unfold pushedEntry
  by_cases hcount : s.historyCount = -2147483647
  · rw [history_push_fault h.toRoom hlen hcount]
    refine iff_of_false (fun hno => by cases hno) (fun hno => hno.2 hcount)
  · obtain ⟨line, hline, hpush, hroom⟩ := history_push_ok h.toRoom hlen hcount
    obtain ⟨line', hline', hle, hnul, hspans⟩ := source_ok h.last
    obtain rfl := Except.ok.inj (hline'.symm.trans hline)
    have hrow := (row_ok hroom (h.counted.has_row hcount)).1
    have hat : ({ stored s line' with historyIdx := -1 } : CmdLine).history (s.historyCount.tmod historySize) =
        storedRow s line' := Function.update_self ..
    rw [hpush, ok_bind, hrow, ok_bind, hat, stored_row_text ⟨hle, hnul⟩]
    have hzero : ∀ k : Nat, (0 : Int) + k = k := fun k => Int.zero_add k
    have heq := hspans.eq
    have hstop := hspans.stop
    simp only [hzero] at heq hstop
    constructor
    · intro hsame
      have hlength := congrArg List.length (Except.ok.inj hsame)
      unfold lineText at hlength
      rw [length_tabulate] at hlength
      refine ⟨?_, hcount⟩
      by_cases hfull : line'.length < 77
      · have hnul := hstop hfull
        rw [hlength, Int.toNat_of_nonneg hbounds.1] at hnul
        simpa using hnul
      · have h77 : s.cmdLen = 77 := by omega
        rw [h77]
        exact h.last
    · rintro ⟨hend, -⟩
      have hlength : line'.length = s.cmdLen.toNat := by
        rcases Nat.lt_trichotomy line'.length s.cmdLen.toNat with hlt | hsame | hgt
        · have hnul := hstop (by omega)
          exact absurd (by simpa using hnul) (h.filled line'.length (Int.natCast_nonneg _) (by omega))
        · exact hsame
        · refine absurd ?_ hnul
          rw [heq, mem_tabulate]
          exact ⟨s.cmdLen.toNat, hgt, by rw [Int.toNat_of_nonneg hbounds.1]; exact hend⟩
      unfold lineText
      rw [heq, hlength]

/-- An entry is right exactly when its line ends in a NUL. -/
theorem entry_right_iff (h : StaysGood x) : EntryRight x key ↔ EndsInNul x key := by
  unfold EntryRight EndsInNul
  refine forall_congr' (fun st => forall_congr' (fun hst => forall_congr' (fun _ => forall_congr' (fun hlen => ?_))))
  have hgood := h st hst
  rw [pushed_entry_iff hgood hlen]
  exact and_iff_left (dispatched_text hgood)

/-- From boot on, each line entered is stored as it is given to `dispatch`, exactly when each
line entered ends in a NUL and has a row to go to. -/
theorem entries_right_iff (commands : Commands W) (fuel : Nat) (w : W) (file : Option (List UInt8))
    (keys : List ShellKey) :
    Along EntryRight (keyStep commands fuel) (bootShell commands w file) keys ↔
      Along EndsInNul (keyStep commands fuel) (bootShell commands w file) keys := by
  obtain ⟨s, hboot, hgood⟩ := boot_good commands w file
  have hstays : StaysGood (bootShell commands w file) := by
    intro st hst
    obtain rfl := Except.ok.inj (hboot.symm.trans hst)
    exact hgood
  refine Along.congr (I := StaysGood) (fun x key h hright => ?_) (fun x key h => entry_right_iff h) hstays keys
  have hends := (entry_right_iff h).mp hright
  exact step_stays_good h (fun st hst henter hlen => (hends st hst henter hlen).2)

/-- The keys of a text. -/
def typed (text : String) : List ShellKey := (literal text).map (fun c => .char c [])

/-- A longer line is given up for an entry found, which is then typed on. -/
def staleTail : List ShellKey :=
  typed "xy
" ++ typed "abcdef" ++ [.char 18 [120, 10]] ++ typed "z"

theorem stale_tail_stored :
    ¬ EntryRight (run (keyStep noCommands 0) (bootShell noCommands () none) staleTail).2 (.char 10 []) := by
  intro hright
  have hboth : ((run (keyStep noCommands 0) (bootShell noCommands () none) staleTail).2 >>=
      fun st => .ok (pushedEntry st.1, lineText st.1, decide (st.1.cmdLen = 0))) =
        .ok (.ok (literal "xyzdef"), literal "xyz", false) := by decide +kernel
  cases hrun : (run (keyStep noCommands 0) (bootShell noCommands () none) staleTail).2 with
  | error e =>
    rw [hrun] at hboth
    cases hboth
  | ok st =>
    simp only [hrun, ok_bind, Except.ok.injEq, Prod.mk.injEq] at hboth
    obtain ⟨hpushed, htext, hlen⟩ := hboth
    have hentry := (hright st hrun rfl (of_decide_eq_false hlen)).1
    have hlong : literal "xyzdef" = [120, 121, 122, 100, 101, 102] := utf8_of_chars _
    have hshort : literal "xyz" = [120, 121, 122] := utf8_of_chars _
    rw [hpushed, htext, hlong, hshort] at hentry
    exact absurd hentry (by decide)

end BaSic.Proofs.CmdEntries
