import BaSic.Lib.Parts
import BaSic.Proofs.CmdEntries

namespace BaSic.Proofs.HistoryLog
open Kernel Lib CmdBounds CmdRuns CmdEntries

section Keys

/-- What comes of it, if anything, has the history of `s`. -/
def Keeps (s : CmdLine) (x : Except Fault CmdLine) : Prop :=
  ∀ t, x = .ok t → t.history = s.history ∧ t.historyCount = s.historyCount

variable {α : Type} {s t u : CmdLine} {x : Except Fault CmdLine} {f : CmdLine → Except Fault CmdLine} {col : Int}

theorem Keeps.ok (hhistory : t.history = s.history) (hcount : t.historyCount = s.historyCount) : Keeps s (.ok t) := by
  intro u hu
  cases hu
  exact ⟨hhistory, hcount⟩

theorem Keeps.self (s : CmdLine) : Keeps s (.ok s) := Keeps.ok rfl rfl

theorem Keeps.fault (s : CmdLine) (e : Fault) : Keeps s (.error e) := by
  intro t ht
  cases ht

theorem Keeps.of (h : Keeps t x) (hhistory : t.history = s.history) (hcount : t.historyCount = s.historyCount) :
    Keeps s x := by
  intro u hu
  obtain ⟨hhistory', hcount'⟩ := h u hu
  exact ⟨hhistory'.trans hhistory, hcount'.trans hcount⟩

theorem Keeps.bind (h : Keeps s x) (hf : ∀ t, Keeps t (f t)) : Keeps s (x >>= f) := by
  cases x with
  | error e => exact Keeps.fault s e
  | ok t =>
    obtain ⟨hhistory, hcount⟩ := h t rfl
    exact (hf t).of hhistory hcount

theorem Keeps.read {y : Except Fault α} {f : α → Except Fault CmdLine} (hf : ∀ a, Keeps s (f a)) :
    Keeps s (y >>= f) := by
  cases y with
  | error e => exact Keeps.fault s e
  | ok a => exact hf a

theorem set_char_keeps (s : CmdLine) (i : Int) (c : UInt8) : Keeps s (s.setChar i c) := by
  unfold CmdLine.setChar
  split
  · exact Keeps.ok rfl rfl
  · exact Keeps.fault s _

theorem prompt_redraw_keeps (s : CmdLine) : Keeps s (promptRedraw col s) := Keeps.read (fun _ => Keeps.self s)

theorem recall_entry_keeps (s : CmdLine) : Keeps s (recallEntry s) := by
  unfold recallEntry
  apply Keeps.read
  intro row
  apply Keeps.read
  intro line
  apply Keeps.read
  intro line'
  exact Keeps.ok rfl rfl

theorem history_up_keeps (s : CmdLine) : Keeps s (historyUp col s) := by
  unfold historyUp
  split
  · exact Keeps.self s
  · exact ((recall_entry_keeps _).of rfl rfl).bind prompt_redraw_keeps

theorem history_down_keeps (s : CmdLine) : Keeps s (historyDown col s) := by
  unfold historyDown
  split
  · exact Keeps.self s
  · split
    · exact (prompt_redraw_keeps _).of rfl rfl
    · exact ((recall_entry_keeps _).of rfl rfl).bind prompt_redraw_keeps

theorem complete_keeps (s : CmdLine) (word : List UInt8) : Keeps s (complete s word) := by
  unfold complete
  apply Keeps.read
  intro line
  dsimp only
  split
  · apply Keeps.bind ((set_char_keeps _ _ _).of rfl rfl)
    intro t
    exact Keeps.ok rfl rfl
  · exact Keeps.ok rfl rfl

theorem tab_complete_keeps (s : CmdLine) : Keeps s (tabComplete col s) := by
  unfold tabComplete
  apply (set_char_keeps s _ 0).bind
  intro t
  apply Keeps.read
  intro typed
  split
  · exact Keeps.self t
  · exact (complete_keeps t _).bind prompt_redraw_keeps
  · exact prompt_redraw_keeps t

theorem pull_back_keeps (s : CmdLine) (i : Int) (k : Nat) : Keeps s (pullBack s i k) := by
  induction k generalizing s i with
  | zero => exact Keeps.self s
  | succ k ih =>
    unfold pullBack
    apply Keeps.read
    intro c
    exact (set_char_keeps s i c).bind (fun t => ih t _)

theorem push_on_keeps (s : CmdLine) (i : Int) (k : Nat) : Keeps s (pushOn s i k) := by
  induction k generalizing s i with
  | zero => exact Keeps.self s
  | succ k ih =>
    unfold pushOn
    apply Keeps.read
    intro c
    exact (set_char_keeps s i c).bind (fun t => ih t _)

theorem remove_char_keeps (s : CmdLine) (i : Int) : Keeps s (removeChar s i) := by
  unfold removeChar
  apply (pull_back_keeps s i _).bind
  intro t
  exact (set_char_keeps _ _ 0).of rfl rfl

theorem key_delete_keeps (s : CmdLine) : Keeps s (keyDelete col s) := by
  unfold keyDelete
  split
  · exact (remove_char_keeps s _).bind prompt_redraw_keeps
  · exact Keeps.self s

theorem key_backspace_keeps (s : CmdLine) : Keeps s (keyBackspace col s) := by
  unfold keyBackspace
  split
  · apply (remove_char_keeps s _).bind
    intro t
    exact (prompt_redraw_keeps _).of rfl rfl
  · exact Keeps.self s

theorem insert_char_keeps (s : CmdLine) (c : UInt8) : Keeps s (insertChar col s c) := by
  unfold insertChar
  apply (push_on_keeps s _ _).bind
  intro t
  apply (set_char_keeps t _ c).bind
  intro u
  exact (prompt_redraw_keeps _).of rfl rfl

theorem accept_match_keeps (s : CmdLine) (text : List UInt8) : Keeps s (acceptMatch s text) := by
  unfold acceptMatch
  split
  · apply Keeps.bind (f := fun t => .ok { t with cmdLen := text.length, cursorPos := text.length })
    · unfold putText
      exact (set_char_keeps _ _ 0).of rfl rfl
    · intro t
      exact Keeps.ok rfl rfl
  · exact Keeps.self s

theorem ctrl_r_keeps (s : CmdLine) (keys : List UInt8) : Keeps s (ctrlRSearch col s keys) := by
  unfold ctrlRSearch
  apply Keeps.read
  intro r
  split
  · exact Keeps.self s
  · exact (prompt_redraw_keeps _).of rfl rfl
  · exact prompt_redraw_keeps s
  · exact (accept_match_keeps s _).bind prompt_redraw_keeps

/-- No key that edits the line changes the history. -/
theorem edit_key_keeps (s : CmdLine) (key : ShellKey) : Keeps s (editKey col s key) := by
  cases key with
  | up => exact history_up_keeps s
  | down => exact history_down_keeps s
  | left =>
    simp only [editKey]
    split
    · exact (prompt_redraw_keeps _).of rfl rfl
    · exact Keeps.self s
  | right =>
    simp only [editKey]
    split
    · exact (prompt_redraw_keeps _).of rfl rfl
    · exact Keeps.self s
  | home => exact (prompt_redraw_keeps _).of rfl rfl
  | «end» => exact (prompt_redraw_keeps _).of rfl rfl
  | del => exact key_delete_keeps s
  | char c session =>
    simp only [editKey]
    split_ifs
    · exact key_backspace_keeps s
    · exact tab_complete_keeps s
    · exact (prompt_redraw_keeps _).of rfl rfl
    · exact ctrl_r_keeps s session
    · exact insert_char_keeps s c
    · exact Keeps.self s

end Keys

section Log

/-- The history holds the last 32 of all lines pushed so far, which are given newest first. -/
structure Logged (s : CmdLine) (recent : List (List UInt8)) : Prop where
  count : s.historyCount = wrapInt recent.length
  le : recent.length ≤ 2147483649
  rows : ∀ j line, recent[j]? = some line → j < 32 →
    strAt (s.history (((recent.length - 1 - j : Nat) : Int) % 32)) 0 = .ok line
  texts : ∀ line ∈ recent, line ≠ [] ∧ Fits line

variable {W : Type} {s t : CmdLine} {line : List UInt8} {recent : List (List UInt8)} {n : Nat}

theorem fresh_logged : Logged freshLine [] := by
  refine ⟨rfl, by simp, ?_, by simp⟩
  intro j line hline
  simp at hline

theorem Logged.of (h : Logged s recent) (hhistory : t.history = s.history) (hcount : t.historyCount = s.historyCount) :
    Logged t recent := by
  refine ⟨hcount.trans h.count, h.le, ?_, h.texts⟩
  rw [hhistory]
  exact h.rows

/-- The row of entry `n`; the number after the largest `int` leads to row 0. -/
theorem wrapped_row (hn : n ≤ 2147483648) : (wrapInt n).tmod historySize = (n : Int) % 32 := by
  have hsize : historySize = 32 := rfl
  rw [hsize]
  by_cases hlast : n = 2147483648
  · subst hlast
    decide
  · have hsame : wrapInt n = n := by
      unfold wrapInt
      omega
    rw [hsame]
    exact Int.tmod_eq_emod_of_nonneg (Int.natCast_nonneg n)

/-- Another line takes the row of the one 32 lines before it. -/
theorem Logged.push (h : Logged s recent) (hle : recent.length ≤ 2147483648) (hsome : line ≠ []) (hline : Fits line) :
    Logged (stored s line) (line :: recent) := by
  have hslot : s.historyCount.tmod historySize = (recent.length : Int) % 32 := by
    rw [h.count]
    exact wrapped_row hle
  refine ⟨?_, ?_, ?_, ?_⟩
  · have hnext : (stored s line).historyCount = wrapInt (s.historyCount + 1) := rfl
    rw [hnext, h.count, List.length_cons]
    unfold wrapInt
    omega
  · simp only [List.length_cons]
    omega
  · intro j text htext hj
    have hrows : (stored s line).history =
        Function.update s.history ((recent.length : Int) % 32) (storedRow s line) := by
      rw [← hslot]
      rfl
    rw [hrows]
    cases j with
    | zero =>
      obtain rfl : line = text := by simpa using htext
      simpa using stored_row_text hline
    | succ j =>
      have htext : recent[j]? = some text := by simpa using htext
      have hlt := (List.getElem?_eq_some_iff.mp htext).1
      have hplace : (line :: recent).length - 1 - (j + 1) = recent.length - 1 - j := by
        simp only [List.length_cons]
        omega
      rw [hplace, Function.update_of_ne (by omega)]
      exact h.rows j text htext (by omega)
  · intro text htext
    rcases List.mem_cons.mp htext with rfl | hold
    · exact ⟨hsome, hline⟩
    · exact h.texts text hold

/-- No more than a row has is copied. -/
theorem copy_str_take (a : Int → UInt8) (line : List UInt8) : copyStr a (line.take 77) = copyStr a line := by
  funext i
  have hsize : (cmdBufSize - 1).toNat = 77 := rfl
  simp only [copyStr, hsize, strncpy_from_apply]
  by_cases hi : 0 ≤ i
  · simp only [hi, if_true, Nat.zero_le, true_and, Nat.zero_add, Nat.sub_zero]
    by_cases hlt : i.toNat < 77
    · simp [hlt, List.getD_eq_getElem?_getD]
    · simp [hlt]
  · simp [hi]

theorem stored_take (s : CmdLine) (line : List UInt8) : stored s (line.take 77) = stored s line := by
  simp only [stored, storedRow, copy_str_take]

/-- The lines that `history_load` takes of a text while it has room for `n` more. -/
def loadedLines (text : List UInt8) (n : Nat) : List (List UInt8) :=
  (((parts 10 text).filter (· ≠ [])).take n).map (List.take 77)

/-- The text before the first newline is the first line. -/
theorem first_line {text : List UInt8} (hsome : text ≠ []) : ∃ line rest, text.takeWhile (· ≠ 10) = line ∧
    (text.drop line.length).drop 1 = rest ∧ rest.length < text.length ∧ parts 10 text = line :: parts 10 rest ∧
    (∀ c ∈ line, c ∈ text) ∧ ∀ c ∈ rest, c ∈ text := by
  obtain ⟨line, hline, hplain, hall⟩ := first_part 10 text
  refine ⟨line, _, hline, rfl, ?_⟩
  rcases hall with rfl | ⟨rest, rfl⟩
  · have hpos := List.length_pos_iff.mpr hsome
    refine ⟨by simpa using hpos, ?_, by simp, by simp⟩
    simp [parts_single hplain hsome, parts_nil]
  · refine ⟨?_, ?_, ?_, ?_⟩
    · simp
      omega
    · simp [parts_cons hplain]
    · intro c hc
      exact List.mem_append_left _ hc
    · intro c hc
      exact List.mem_append_right _ (List.mem_cons_of_mem _ (by simpa using hc))

/-- `history_load` pushes the lines of the text, cut to a row. -/
theorem load_entries_logged {text : List UInt8} {fuel : Nat} (h : Logged s recent) (hcount : recent.length ≤ 64)
    (hnul : 0 ∉ text) (hfuel : text.length ≤ fuel) :
    ∃ t, loadEntries s text fuel = .ok t ∧ t.cmdLen = s.cmdLen ∧
      Logged t ((loadedLines text (64 - recent.length)).reverse ++ recent) := by
  induction fuel generalizing s recent text with
  | zero =>
    obtain rfl : text = [] := by simpa using hfuel
    exact ⟨s, rfl, rfl, by simpa [loadedLines, parts_nil] using h⟩
  | succ fuel ih =>
    have hnumber : s.historyCount = recent.length := by
      rw [h.count]
      unfold wrapInt
      omega
    have hsize : historySize = 32 := rfl
    unfold loadEntries
    by_cases hnil : text = []
    · subst hnil
      exact ⟨s, by simp, rfl, by simpa [loadedLines, parts_nil] using h⟩
    · by_cases hfull : recent.length = 64
      · refine ⟨s, ?_, rfl, by simpa [loadedLines, hfull] using h⟩
        simp [hnumber, hfull, hsize]
      · have hmore : ¬ (text = [] ∨ s.historyCount ≥ historySize * 2) := by
          rw [hnumber, hsize, not_or]
          exact ⟨hnil, by omega⟩
        obtain ⟨line, rest, hline, hrest, hshort, hparts, hin, hrestin⟩ := first_line hnil
        have hnul' : 0 ∉ rest := fun hzero => hnul (hrestin 0 hzero)
        simp only [hmore, if_false, hline, hrest]
        by_cases hempty : line = []
        · obtain ⟨t, ht, hlen, hlogged⟩ := ih h hcount hnul' (by omega)
          refine ⟨t, ?_, hlen, ?_⟩
          · simp only [hempty, if_true, ok_bind, ht]
          · simpa [loadedLines, hparts, hempty] using hlogged
        · have hfits : Fits (line.take 77) := by
            refine ⟨List.length_take_le 77 line, ?_⟩
            intro hzero
            exact hnul (hin 0 (List.mem_of_mem_take hzero))
          have hsome : line.take 77 ≠ [] := by simp [hempty]
          have hpushed := h.push (by omega) hsome hfits
          rw [stored_take] at hpushed
          obtain ⟨t, ht, hlen, hlogged⟩ := ih hpushed (by simp only [List.length_cons]; omega) hnul' (by omega)
          refine ⟨t, ?_, hlen, ?_⟩
          · have hrow : HasRow s.historyCount := by
              rw [hnumber]
              exact Or.inl (Int.natCast_nonneg _)
            simp only [hempty, if_false, push_row_ok hrow, ok_bind, ht]
          · have hroom : 64 - recent.length = 64 - (line.take 77 :: recent).length + 1 := by
              simp only [List.length_cons]
              omega
            simpa [loadedLines, hparts, hempty, hroom] using hlogged

/-- The lines that are in the history after boot. -/
def bootLines : Option (List UInt8) → List (List UInt8)
  | none => []
  | some bytes => loadedLines ((bytes.take (hbufSize - 1)).takeWhile (· ≠ 0)) 64

theorem boot_logged (commands : Commands W) (w : W) (file : Option (List UInt8)) :
    ∃ s, bootShell commands w file = .ok (s, w) ∧ Good s ∧ s.cmdLen = 0 ∧ Logged s (bootLines file).reverse := by
  have hload : ∃ s, historyLoad freshLine file = .ok s ∧ s.cmdLen = 0 ∧ Logged s (bootLines file).reverse := by
    cases file with
    | none => exact ⟨_, rfl, rfl, fresh_logged⟩
    | some bytes =>
      have hnul : 0 ∉ (bytes.take (hbufSize - 1)).takeWhile (· ≠ 0) := by
        intro hmem
        have hne := List.mem_takeWhile_imp hmem
        simp at hne
      obtain ⟨s, hs, hlen, hlogged⟩ := load_entries_logged fresh_logged (by simp) hnul (Nat.le_refl _)
      exact ⟨s, hs, hlen, by simpa [bootLines] using hlogged⟩
  obtain ⟨s, hboot, hgood⟩ := boot_good commands w file
  obtain ⟨t, ht, hlen, hlogged⟩ := hload
  have hsame : s = t := by
    have hline : t.cmdLen ≤ 77 := by simp [hlen]
    unfold bootShell shellInit at hboot
    simp only [ht, ok_bind, prompt_redraw_ok hline] at hboot
    exact (Prod.ext_iff.mp (Except.ok.inj hboot)).1.symm
  subst hsame
  exact ⟨s, hboot, hgood, hlen, hlogged⟩

/-- The shell, the lines pushed to the history so far, and whether no key came since the prompt. -/
structure Session (W : Type) where
  shell : Except Fault (ShellState W)
  recent : List (List UInt8)
  fresh : Bool

/-- The lines that a key pushes. -/
def pushedLines (x : Except Fault (ShellState W)) (key : ShellKey) : List (List UInt8) :=
  match x with
  | .error _ => []
  | .ok st => if key.isEnter = true ∧ st.1.cmdLen ≠ 0 then (strAt st.1.cmdBuf 0).toOption.toList else []

def sessionStep (commands : Commands W) (fuel : Nat) (x : Session W) (key : ShellKey) : Unit × Session W :=
  ((), ⟨(keyStep commands fuel x.shell key).2, pushedLines x.shell key ++ x.recent, key.isEnter⟩)

def bootSession (commands : Commands W) (w : W) (file : Option (List UInt8)) : Session W :=
  ⟨bootShell commands w file, (bootLines file).reverse, true⟩

/-- The history is that of the lines pushed, and the line at a fresh prompt is empty. -/
def Tracked (x : Session W) : Prop :=
  ∀ st, x.shell = .ok st → Good st.1 ∧ Logged st.1 x.recent ∧ (x.fresh = true → st.1.cmdLen = 0)

theorem boot_tracked (commands : Commands W) (w : W) (file : Option (List UInt8)) :
    Tracked (bootSession commands w file) := by
  obtain ⟨s, hboot, hgood, hlen, hlogged⟩ := boot_logged commands w file
  intro st hst
  obtain rfl := Except.ok.inj (hboot.symm.trans hst)
  exact ⟨hgood, hlogged, fun _ => hlen⟩

variable {commands : Commands W} {fuel : Nat} {st u : ShellState W} {key : ShellKey}

/-- Enter pushes the string in the buffer, unless the line is empty. -/
theorem enter_logged (hgood : Good st.1) (h : Logged st.1 recent) (henter : key.isEnter = true)
    (hu : enterLine commands fuel st = .ok u) :
    Good u.1 ∧ Logged u.1 (pushedLines (.ok st) key ++ recent) ∧ u.1.cmdLen = 0 := by
  by_cases hlen : st.1.cmdLen = 0
  · have hpush : historyPush st.1 = .ok st.1 := if_pos hlen
    have hserved := enter_served commands fuel hgood hpush hgood.toRoom
    rw [hu] at hserved
    obtain ⟨hgood', hempty, hhistory, hcount⟩ := hserved
    refine ⟨hgood', ?_, hempty⟩
    simpa [pushedLines, hlen] using h.of hhistory hcount
  · have hcount : st.1.historyCount ≠ -2147483647 := by
      intro hno
      rw [enter_fault hgood hlen hno] at hu
      cases hu
    obtain ⟨text, htext, hpush, hroom⟩ := history_push_ok hgood.toRoom hlen hcount
    obtain ⟨text', htext', hstr, hfits⟩ := source_str hgood.last
    obtain rfl := Except.ok.inj (htext'.symm.trans htext)
    have hserved := enter_served commands fuel hgood hpush hroom
    rw [hu] at hserved
    obtain ⟨hgood', hempty, hhistory, hcount'⟩ := hserved
    have hsome : text' ≠ [] := by
      rintro rfl
      have hfirst := hgood.filled 0 (Int.le_refl 0) (by have hbounds := hgood.len; omega)
      unfold strAt spanFrom unlimited at hstr
      simp [hfirst, cmdBufSize] at hstr
      revert hstr
      cases spanFrom (fun x => !decide (x = 0)) st.1.cmdBuf 1 78 with
      | error e => simp
      | ok rest => simp
    have hle : recent.length ≤ 2147483648 := by
      have hbound := h.le
      have hnumber := h.count
      by_contra hlast
      apply hcount
      have hfull : recent.length = 2147483649 := by omega
      rw [hnumber, hfull]
      decide
    refine ⟨hgood', ?_, hempty⟩
    have hpushed := (h.push hle hsome hfits).of hhistory hcount'
    simpa [pushedLines, henter, hlen, hstr, Except.toOption] using hpushed

theorem step_tracked {x : Session W} (h : Tracked x) : Tracked (sessionStep commands fuel x key).2 := by
  intro u hu
  cases hx : x.shell with
  | error e =>
    have hfailed : (keyStep commands fuel x.shell key).2 = .error e := by
      rw [hx]
      rfl
    cases hfailed.symm.trans hu
  | ok st =>
    obtain ⟨hgood, hlogged, -⟩ := h st hx
    have hrun : shellKey commands fuel st key = .ok u := by
      have hstep : (keyStep commands fuel x.shell key).2 = .ok u := hu
      rwa [hx] at hstep
    simp only [sessionStep, hx]
    unfold shellKey at hrun
    by_cases henter : key.isEnter = true
    · simp only [henter, if_true] at hrun ⊢
      obtain ⟨hgood', hlogged', hempty⟩ := enter_logged hgood hlogged henter hrun
      exact ⟨hgood', hlogged', fun _ => hempty⟩
    · obtain ⟨t, ht, hgood'⟩ := edit_key_good (commands.promptCol st.2) hgood key
      rw [if_neg henter, ht, ok_bind] at hrun
      obtain rfl := Except.ok.inj hrun
      obtain ⟨hhistory, hcount⟩ := edit_key_keeps st.1 key t ht
      refine ⟨hgood', ?_, fun hno => absurd hno henter⟩
      simpa [pushedLines, henter] using hlogged.of hhistory hcount

/-- In every state that keys lead to, the history is that of the lines pushed so far. -/
theorem run_tracked (commands : Commands W) (fuel : Nat) (w : W) (file : Option (List UInt8)) (keys : List ShellKey) :
    Tracked (run (sessionStep commands fuel) (bootSession commands w file) keys).2 :=
  run_invariant (Q := fun _ => True) (fun _ _ _ h => step_tracked h) (fun _ _ => trivial)
    (boot_tracked commands w file)

end Log

end BaSic.Proofs.HistoryLog
