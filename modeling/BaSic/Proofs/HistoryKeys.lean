import BaSic.Proofs.HistoryLog

namespace BaSic.Proofs.HistoryKeys
open Kernel Lib CmdBounds CmdRuns CmdEntries HistoryLog

/-- A key pressed as often as asked for. -/
def presses (press : CmdLine → Except Fault CmdLine) (s : CmdLine) : Nat → Except Fault CmdLine
  | 0 => .ok s
  | k + 1 => do
    let s ← press s
    presses press s k

/-- The line after `k` times Up and `m` times Down. -/
def lineAfter (col : Int) (s : CmdLine) (k m : Nat) : Except Fault (List UInt8) := do
  let s ← presses (historyUp col) s k
  let s ← presses (historyDown col) s m
  .ok (lineText s)

/-- Up shows the command that many before the prompt, as far as there are and 32 at most, and
each Down steps back from there. -/
def ShowsRecent (col : Int) (s : CmdLine) (recent : List (List UInt8)) (k : Nat) : Prop :=
  ∀ m, lineAfter col s k m = .ok (([] :: recent).getD (min k (min recent.length 32) - m) [])

/-- How many commands before the prompt the one shown is. -/
def place (s : CmdLine) (n : Nat) : Nat := if s.historyIdx < 0 then 0 else n - s.historyIdx.toNat

/-- The command whose row is that of the one `q` before the prompt. -/
def inRow (recent : List (List UInt8)) (q : Nat) : List UInt8 := if q = 0 then [] else recent.getD ((q - 1) % 32) []

/-- No more than 32 commands are gone back from a prompt that was not left while they were
browsed, or there are no more and all are gone back; with more commands than an `int` numbers,
only the last one is gone back to. -/
def WithinRows (s : CmdLine) (recent : List (List UInt8)) (k : Nat) : Prop :=
  (recent.length < 2147483648 ∧
      (s.historyIdx = -1 ∧ (k ≤ 32 ∨ recent.length ≤ 32) ∨ recent.length ≤ 32 ∧ recent.length ≤ k)) ∨
    2147483648 ≤ recent.length ∧ k = 1 ∧
      inRow recent (min (place s recent.length + 1) recent.length) = inRow recent 1

variable (col : Int) {s t : CmdLine} {recent : List (List UInt8)} {line : List UInt8} {i : Int} {k m q : Nat}

/-- What Up makes of the number of the entry shown. -/
def upIdx (s : CmdLine) : Int :=
  if s.historyIdx = -1 then wrapInt (s.historyCount - 1) else if s.historyIdx > 0 then s.historyIdx - 1 else s.historyIdx

theorem copied_line (hline : Fits line) (a : Int → UInt8) :
    tabulate line.length (fun k => copyStr a line k) = line := by
  apply List.ext_getElem?
  intro k
  rw [tabulate_get?]
  split
  · rename_i hk
    rw [copy_str_char a line (Nat.lt_of_lt_of_le hk hline.1)]
    simp [hk]
  · rename_i hk
    simp [Nat.le_of_not_lt hk]

/-- Recalling an entry shows the line in its row. -/
theorem recall_entry_line (hgood : Good s) (hcounted : Counted s.historyCount i) (hrow : HasRow i)
    (htext : strAt (s.history (i.tmod historySize)) 0 = .ok line) (hline : Fits line) :
    ∃ t, recallEntry { s with historyIdx := i } = .ok t ∧ Good t ∧ t.historyIdx = i ∧ lineText t = line := by
  obtain ⟨t, ht, hgood'⟩ := recall_entry_good hgood.toRoom hcounted hrow
  have hat : ({ s with historyIdx := i } : CmdLine).rowAt i = .ok (s.history (i.tmod historySize)) :=
    (row_ok (s := { s with historyIdx := i }) ⟨hgood.len, hgood.last, hgood.rows, hcounted⟩ hrow).1
  obtain ⟨text, hsource, hstr, -⟩ := source_str (hgood.rows (i.tmod historySize))
  obtain rfl := Except.ok.inj (hstr.symm.trans htext)
  refine ⟨t, ht, hgood', ?_⟩
  unfold recallEntry at ht
  simp only [hat, ok_bind, hsource, copied_text hline hgood.last, Except.ok.injEq] at ht
  subst ht
  refine ⟨rfl, ?_⟩
  simpa [CmdEntries.lineText] using copied_line hline s.cmdBuf

/-- The row of a command is that of the last one with the same place in the ring. -/
theorem logged_row_text (h : Logged s recent) (hq : 1 ≤ q) (hle : q ≤ recent.length)
    (hi : i.tmod historySize = ((recent.length - q : Nat) : Int) % 32) :
    strAt (s.history (i.tmod historySize)) 0 = .ok (inRow recent q) ∧ Fits (inRow recent q) := by
  have hlt : (q - 1) % 32 < recent.length := by omega
  have hsome : recent[(q - 1) % 32]? = some (inRow recent q) := by
    have hne : q ≠ 0 := by omega
    simp [inRow, hne, hlt]
  have hplace : ((recent.length - 1 - (q - 1) % 32 : Nat) : Int) % 32 = ((recent.length - q : Nat) : Int) % 32 := by
    omega
  rw [hi, ← hplace]
  exact ⟨h.rows _ _ hsome (Nat.mod_lt _ (by decide)), (h.texts _ (List.mem_of_getElem? hsome)).2⟩

theorem recall_logged (hgood : Good s) (h : Logged s recent) (hcounted : Counted s.historyCount i) (hrow : HasRow i)
    (hq : 1 ≤ q) (hle : q ≤ recent.length) (hi : i.tmod historySize = ((recent.length - q : Nat) : Int) % 32) :
    ∃ t, recallEntry { s with historyIdx := i } = .ok t ∧ Good t ∧ Logged t recent ∧ t.historyIdx = i ∧
      lineText t = inRow recent q := by
  obtain ⟨htext, hfits⟩ := logged_row_text h hq hle hi
  obtain ⟨t, ht, hgood', hidx, hline⟩ := recall_entry_line hgood hcounted hrow htext hfits
  obtain ⟨hhistory, hcount⟩ := recall_entry_keeps _ t ht
  exact ⟨t, ht, hgood', h.of hhistory hcount, hidx, hline⟩

/-- The place that Up goes to. -/
theorem up_idx_place (hgood : Good s) (h : Logged s recent) (hsome : recent ≠ []) :
    (upIdx s).tmod historySize = ((recent.length - min (place s recent.length + 1) recent.length : Nat) : Int) % 32 ∧
      upIdx s ≠ -1 ∧ (recent.length < 2147483648 →
        upIdx s = (recent.length - min (place s recent.length + 1) recent.length : Nat)) := by
  have hpos := List.length_pos_iff.mpr hsome
  have hcounted := hgood.counted
  have hle := h.le
  have hsize : historySize = 32 := rfl
  have hnumber := h.count
  unfold Counted at hcounted
  unfold wrapInt at hnumber
  by_cases hfew : recent.length < 2147483648
  · have hidx : upIdx s = (recent.length - min (place s recent.length + 1) recent.length : Nat) := by
      unfold upIdx place wrapInt
      split_ifs <;> omega
    refine ⟨?_, ?_, fun _ => hidx⟩
    · rw [hidx, hsize]
      exact Int.tmod_eq_emod_of_nonneg (Int.natCast_nonneg _)
    · omega
  · by_cases hfull : recent.length = 2147483648
    · have hidx : upIdx s = (recent.length - min (place s recent.length + 1) recent.length : Nat) := by
        unfold upIdx place wrapInt
        split_ifs <;> omega
      refine ⟨?_, ?_, fun hno => absurd hno hfew⟩
      · rw [hidx, hsize]
        exact Int.tmod_eq_emod_of_nonneg (Int.natCast_nonneg _)
      · omega
    · have hidx : upIdx s = -2147483648 := by
        unfold upIdx wrapInt
        split_ifs <;> omega
      have hplace : place s recent.length = 0 := by
        unfold place
        split_ifs <;> omega
      have hlast : recent.length - min (place s recent.length + 1) recent.length = 2147483648 := by omega
      rw [hidx, hlast, hsize]
      exact ⟨by decide, by decide, fun hno => absurd hno hfew⟩

/-- Up shows the command in the row of the next older one. -/
theorem history_up_logged (hgood : Good s) (h : Logged s recent) (hsome : recent ≠ []) :
    ∃ t, historyUp col s = .ok t ∧ Good t ∧ Logged t recent ∧ t.historyIdx = upIdx s ∧
      lineText t = inRow recent (min (place s recent.length + 1) recent.length) := by
  have hpos := List.length_pos_iff.mpr hsome
  have hne : s.historyCount ≠ 0 := by
    have hle := h.le
    rw [h.count]
    unfold wrapInt
    omega
  obtain ⟨hcounted, hrow⟩ := hgood.counted.up hne
  obtain ⟨hslot, -, -⟩ := up_idx_place hgood h hsome
  obtain ⟨t, ht, hgood', hlogged, hidx, hline⟩ :=
    recall_logged hgood h hcounted hrow (q := min (place s recent.length + 1) recent.length) (by omega) (by omega) hslot
  refine ⟨t, ?_, hgood', hlogged, hidx, hline⟩
  unfold historyUp
  simp only [hne, if_false, ht, ok_bind, prompt_redraw_ok hgood'.len.2]

/-- Down from the most recent command leaves an empty line. -/
theorem history_down_last (hgood : Good s) (h : Logged s recent) (hidx : s.historyIdx ≠ -1)
    (hlast : wrapInt (s.historyIdx + 1) ≥ s.historyCount) :
    ∃ t, historyDown col s = .ok t ∧ Good t ∧ Logged t recent ∧ t.historyIdx = -1 ∧ lineText t = [] := by
  have hcleared : Good ({ s.clear with historyIdx := -1 } : CmdLine) :=
    clear_good (s := { s with historyIdx := -1 }) ⟨hgood.len, hgood.last, hgood.rows, hgood.counted.shown⟩
  refine ⟨{ s.clear with historyIdx := -1 }, ?_, hcleared, h.of rfl rfl, rfl, rfl⟩
  unfold historyDown
  simp only [hidx, if_false, hlast, if_true, prompt_redraw_ok hcleared.len.2]

theorem history_down_none (hidx : s.historyIdx = -1) : historyDown col s = .ok s := if_pos hidx

section Few

/-- While an `int` numbers the commands: the one `q` before the prompt is shown, if there is one. -/
structure Browsed (s : CmdLine) (recent : List (List UInt8)) (q : Nat) : Prop where
  good : Good s
  logged : Logged s recent
  le : q ≤ recent.length
  idx : s.historyIdx = if q = 0 then (-1 : Int) else (recent.length - q : Nat)

theorem Browsed.place_eq (h : Browsed s recent q) : place s recent.length = q := by
  have hle := h.le
  have hidx := h.idx
  unfold place
  by_cases hq : q = 0
  · simp [hidx, hq]
  · simp only [hq, if_false] at hidx
    have hnonneg : ¬ s.historyIdx < 0 := by omega
    rw [if_neg hnonneg, hidx, Int.toNat_natCast]
    omega

/-- What one Up does. -/
theorem Browsed.up (h : Browsed s recent q) (hfew : recent.length < 2147483648)
    (hnone : recent = [] → lineText s = []) :
    ∃ t, historyUp col s = .ok t ∧ Browsed t recent (min (q + 1) recent.length) ∧
      lineText t = inRow recent (min (q + 1) recent.length) := by
  by_cases hsome : recent = []
  · subst hsome
    have hzero : q = 0 := by simpa using h.le
    subst hzero
    have hcount : s.historyCount = 0 := h.logged.count
    exact ⟨s, if_pos hcount, h, hnone rfl⟩
  · have hpos := List.length_pos_iff.mpr hsome
    obtain ⟨t, ht, hgood, hlogged, hidx, hline⟩ := history_up_logged col h.good h.logged hsome
    obtain ⟨-, -, hplace⟩ := up_idx_place h.good h.logged hsome
    have hup := hplace hfew
    rw [h.place_eq] at hup hline
    refine ⟨t, ht, ⟨hgood, hlogged, by omega, ?_⟩, hline⟩
    have hne : min (q + 1) recent.length ≠ 0 := by omega
    simp only [hidx, hup, hne, if_false]

/-- What Down does to a command recalled. -/
theorem Browsed.down_from (h : Browsed s recent (q + 1)) (hfew : recent.length < 2147483648) :
    ∃ t, historyDown col s = .ok t ∧ Browsed t recent q ∧ lineText t = inRow recent q := by
  have hle := h.le
  have hidx := h.idx
  have hcount : s.historyCount = recent.length := by
    rw [h.logged.count]
    unfold wrapInt
    omega
  have hhere : s.historyIdx = (recent.length - (q + 1) : Nat) := by simpa using hidx
  have hne : s.historyIdx ≠ -1 := by omega
  have hnext : wrapInt (s.historyIdx + 1) = (recent.length - q : Nat) := by
    unfold wrapInt
    omega
  cases q with
  | zero =>
    obtain ⟨t, ht, hgood, hlogged, hidx', hline'⟩ :=
      history_down_last col h.good h.logged hne (by rw [hnext, hcount]; omega)
    exact ⟨t, ht, ⟨hgood, hlogged, by simp, by simpa using hidx'⟩, hline'⟩
  | succ q =>
    have hlast : ¬ wrapInt (s.historyIdx + 1) ≥ s.historyCount := by
      rw [hnext, hcount]
      omega
    obtain ⟨hcounted, hrow⟩ := h.good.counted.down hne hlast
    have hslot : (wrapInt (s.historyIdx + 1)).tmod historySize = ((recent.length - (q + 1) : Nat) : Int) % 32 := by
      rw [hnext]
      exact Int.tmod_eq_emod_of_nonneg (Int.natCast_nonneg _)
    obtain ⟨t, ht, hgood, hlogged, hidx', hline'⟩ :=
      recall_logged h.good h.logged hcounted hrow (q := q + 1) (by omega) (by omega) hslot
    refine ⟨t, ?_, ⟨hgood, hlogged, by omega, ?_⟩, hline'⟩
    · unfold historyDown
      simp only [hne, if_false, hlast, ht, ok_bind, prompt_redraw_ok hgood.len.2]
    · simpa [hidx'] using hnext

/-- What one Down does. -/
theorem Browsed.down (h : Browsed s recent q) (hfew : recent.length < 2147483648) (hline : lineText s = inRow recent q) :
    ∃ t, historyDown col s = .ok t ∧ Browsed t recent (q - 1) ∧ lineText t = inRow recent (q - 1) := by
  cases q with
  | zero => exact ⟨s, history_down_none col h.idx, h, hline⟩
  | succ q => exact h.down_from col hfew

/-- Going on with Up. -/
theorem Browsed.ups (h : Browsed s recent q) (hfew : recent.length < 2147483648) (hline : lineText s = inRow recent q)
    (k : Nat) : ∃ t, presses (historyUp col) s k = .ok t ∧ Browsed t recent (min (q + k) recent.length) ∧
      lineText t = inRow recent (min (q + k) recent.length) := by
  induction k generalizing s q with
  | zero =>
    have hsame : min (q + 0) recent.length = q := by
      have hle := h.le
      omega
    rw [hsame]
    exact ⟨s, rfl, h, hline⟩
  | succ k ih =>
    have hnone : recent = [] → lineText s = [] := by
      rintro rfl
      have hzero : q = 0 := by simpa using h.le
      simpa [hzero, inRow] using hline
    obtain ⟨t, ht, hbrowsed, hshown⟩ := h.up col hfew hnone
    obtain ⟨u, hu, hbrowsed', hshown'⟩ := ih hbrowsed hshown
    have hplace : min (min (q + 1) recent.length + k) recent.length = min (q + (k + 1)) recent.length := by omega
    rw [hplace] at hbrowsed' hshown'
    refine ⟨u, ?_, hbrowsed', hshown'⟩
    simp only [presses, ht, ok_bind, hu]

theorem Browsed.downs (h : Browsed s recent q) (hfew : recent.length < 2147483648)
    (hline : lineText s = inRow recent q) (m : Nat) :
    ∃ t, presses (historyDown col) s m = .ok t ∧ lineText t = inRow recent (q - m) := by
  induction m generalizing s q with
  | zero => exact ⟨s, rfl, hline⟩
  | succ m ih =>
    obtain ⟨t, ht, hbrowsed, hshown⟩ := h.down col hfew hline
    obtain ⟨u, hu, hshown'⟩ := ih hbrowsed hshown
    refine ⟨u, ?_, ?_⟩
    · simp only [presses, ht, ok_bind, hu]
    · rwa [Nat.sub_sub, Nat.add_comm 1 m] at hshown'

/-- The line after some Up and Down from a prompt. -/
theorem Browsed.line_after (h : Browsed s recent q) (hfew : recent.length < 2147483648) (hempty : lineText s = [])
    (hk : 1 ≤ k) (m : Nat) : lineAfter col s k m = .ok (inRow recent (min (q + k) recent.length - m)) := by
  obtain ⟨k, rfl⟩ := Nat.exists_eq_add_of_le' hk
  obtain ⟨t, ht, hbrowsed, hshown⟩ := h.up col hfew (fun _ => hempty)
  obtain ⟨u, hu, hbrowsed', hshown'⟩ := hbrowsed.ups col hfew hshown k
  obtain ⟨v, hv, hline⟩ := hbrowsed'.downs col hfew hshown' m
  have hplace : min (min (q + 1) recent.length + k) recent.length = min (q + (k + 1)) recent.length := by omega
  rw [hplace] at hline
  simp only [lineAfter, presses, ht, ok_bind, hu, hv, hline]

theorem in_row_small (hq : q ≤ 32) (recent : List (List UInt8)) : inRow recent q = ([] :: recent).getD q [] := by
  cases q with
  | zero => rfl
  | succ q =>
    have hlt : q % 32 = q := Nat.mod_eq_of_lt (by omega)
    simp [inRow, hlt]

theorem in_row_nil_iff (htexts : ∀ line ∈ recent, line ≠ [] ∧ Fits line) (hq : q ≤ recent.length) :
    inRow recent q = [] ↔ q = 0 := by
  by_cases hzero : q = 0
  · simp [hzero, inRow]
  · have hlt : (q - 1) % 32 < recent.length := by omega
    have hsome := (htexts _ (List.getElem_mem hlt)).1
    simp [inRow, hzero, hlt, hsome]

/-- The lines shown are right exactly when Up ends at the command it should. -/
theorem Browsed.shows_iff (h : Browsed s recent q) (hfew : recent.length < 2147483648) (hempty : lineText s = [])
    (hk : 1 ≤ k) : ShowsRecent col s recent k ↔ min (q + k) recent.length = min k (min recent.length 32) := by
  have htexts := h.logged.texts
  unfold ShowsRecent
  simp only [h.line_after col hfew hempty hk, Except.ok.injEq]
  have hright : ∀ m, ([] :: recent).getD (min k (min recent.length 32) - m) [] =
      inRow recent (min k (min recent.length 32) - m) := by
    intro m
    rw [in_row_small (by omega)]
  simp only [hright]
  constructor
  · intro hall
    -- one of the two lines is empty before the other unless both end at the same command
    have hfirst := hall (min (q + k) recent.length)
    have hsecond := hall (min k (min recent.length 32))
    rw [Nat.sub_self] at hfirst hsecond
    have hleft := (in_row_nil_iff htexts (by omega)).mp hfirst.symm
    have hright := (in_row_nil_iff htexts (by omega)).mp hsecond
    omega
  · intro hsame m
    rw [hsame]

end Few

section Many

/-- With more commands than an `int` numbers Down always leaves an empty line. -/
theorem history_down_many (hgood : Good s) (h : Logged s recent) (hmany : 2147483648 ≤ recent.length)
    (hidx : s.historyIdx ≠ -1) :
    ∃ t, historyDown col s = .ok t ∧ Good t ∧ Logged t recent ∧ t.historyIdx = -1 ∧ lineText t = [] := by
  apply history_down_last col hgood h hidx
  have hcounted := hgood.counted
  have hle := h.le
  have hnumber := h.count
  unfold Counted at hcounted
  unfold wrapInt at hnumber ⊢
  omega

theorem presses_none (hidx : s.historyIdx = -1) (m : Nat) : presses (historyDown col) s m = .ok s := by
  induction m with
  | zero => rfl
  | succ m ih => simp only [presses, history_down_none col hidx, ok_bind, ih]

theorem ups_many (hgood : Good s) (h : Logged s recent) (hsome : recent ≠ []) (k : Nat) :
    ∃ t, presses (historyUp col) s (k + 1) = .ok t ∧ Good t ∧ Logged t recent ∧ t.historyIdx ≠ -1 := by
  induction k generalizing s with
  | zero =>
    obtain ⟨t, ht, hgood', hlogged, hidx, -⟩ := history_up_logged col hgood h hsome
    obtain ⟨-, hne, -⟩ := up_idx_place hgood h hsome
    refine ⟨t, ?_, hgood', hlogged, by rwa [hidx]⟩
    simp only [presses, ht, ok_bind]
  | succ k ih =>
    obtain ⟨t, ht, hgood', hlogged, -, -⟩ := history_up_logged col hgood h hsome
    obtain ⟨u, hu, hlast⟩ := ih hgood' hlogged
    refine ⟨u, ?_, hlast⟩
    rw [presses, ht, ok_bind, hu]

/-- Then only one Up can be right, and is if the row it goes to is that of the last command. -/
theorem shows_many_iff (hgood : Good s) (h : Logged s recent) (hmany : 2147483648 ≤ recent.length) (hk : 1 ≤ k) :
    ShowsRecent col s recent k ↔
      k = 1 ∧ inRow recent (min (place s recent.length + 1) recent.length) = inRow recent 1 := by
  have hsome : recent ≠ [] := by
    rintro rfl
    simp at hmany
  have hempty : ∀ t, Good t → Logged t recent → t.historyIdx ≠ -1 → ∀ m,
      ∃ u, presses (historyDown col) t (m + 1) = .ok u ∧ lineText u = [] := by
    intro t hgood' hlogged hne m
    obtain ⟨u, hu, -, -, hidx, hline⟩ := history_down_many col hgood' hlogged hmany hne
    refine ⟨u, ?_, hline⟩
    simp only [presses, hu, ok_bind, presses_none col hidx]
  obtain ⟨k, rfl⟩ := Nat.exists_eq_add_of_le' hk
  obtain ⟨t, ht, hgood', hlogged, hne⟩ := ups_many col hgood h hsome k
  obtain ⟨u, hu, hline⟩ := hempty t hgood' hlogged hne 0
  constructor
  · intro hall
    have hone : k = 0 := by
      by_contra hmore
      have hdown := hall 1
      simp only [lineAfter, ht, ok_bind, hu, hline, Except.ok.injEq] at hdown
      rw [← in_row_small (by omega)] at hdown
      have hzero := (in_row_nil_iff h.texts (by omega)).mp hdown.symm
      omega
    subst hone
    obtain ⟨v, hv, -, -, -, hshown⟩ := history_up_logged col hgood h hsome
    have hup := hall 0
    simp only [lineAfter, presses, hv, ok_bind, hshown, Except.ok.injEq] at hup
    refine ⟨rfl, hup.trans ?_⟩
    rw [in_row_small (by decide)]
    congr 1
    omega
  · rintro ⟨hone, hrow⟩ m
    obtain rfl : k = 0 := by omega
    obtain ⟨v, hv, hgoodv, hloggedv, hidxv, hshown⟩ := history_up_logged col hgood h hsome
    cases m with
    | zero =>
      simp only [lineAfter, presses, hv, ok_bind, hshown, Except.ok.injEq]
      rw [hrow, in_row_small (by decide)]
      congr 1
      omega
    | succ m =>
      obtain ⟨-, hnev, -⟩ := up_idx_place hgood h hsome
      obtain ⟨x, hx, hlinex⟩ := hempty v hgoodv hloggedv (by rwa [hidxv]) m
      have hzero : min (0 + 1) (min recent.length 32) - (m + 1) = 0 := by omega
      have hpress : presses (historyUp col) s (0 + 1) = .ok v := by simp only [presses, hv, ok_bind]
      simp only [lineAfter, hpress, ok_bind, hx, hlinex, hzero, List.getD_cons_zero]

end Many

/-- At a fresh prompt Up and Down are right exactly within these limits. -/
theorem shows_recent_iff (hgood : Good s) (h : Logged s recent) (hempty : s.cmdLen = 0) (hk : 1 ≤ k) :
    ShowsRecent col s recent k ↔ WithinRows s recent k := by
  have hline : lineText s = [] := by simp [CmdEntries.lineText, hempty, tabulate]
  unfold WithinRows
  by_cases hfew : recent.length < 2147483648
  · have hbrowsed : Browsed s recent (place s recent.length) := by
      have hcounted := hgood.counted
      have hnumber := h.count
      unfold Counted at hcounted
      unfold wrapInt at hnumber
      refine ⟨hgood, h, ?_, ?_⟩
      · unfold place
        split_ifs <;> omega
      · unfold place
        split_ifs <;> omega
    have hplace : place s recent.length = 0 ↔ s.historyIdx = -1 := by
      have hidx := hbrowsed.idx
      split_ifs at hidx
      · simp_all
      · omega
    rw [hbrowsed.shows_iff col hfew hline hk, ← hplace]
    omega
  · have hmany : 2147483648 ≤ recent.length := Nat.le_of_not_lt hfew
    simp [shows_many_iff col hgood h hmany hk, hfew, hmany]

variable {W : Type}

/-- What Up and Down show at a fresh prompt. -/
def PromptShows (col : Int) (x : Session W) (k : Nat) : Prop :=
  ∀ st, x.shell = .ok st → x.fresh = true → ShowsRecent col st.1 x.recent k

def PromptWithin (x : Session W) (k : Nat) : Prop :=
  ∀ st, x.shell = .ok st → x.fresh = true → WithinRows st.1 x.recent k

/-- At every fresh prompt that keys lead to, Up and Down are right exactly within these limits. -/
theorem prompt_shows_iff (commands : Commands W) (fuel : Nat) (w : W) (file : Option (List UInt8))
    (keys : List ShellKey) (hk : 1 ≤ k) :
    PromptShows col (run (sessionStep commands fuel) (bootSession commands w file) keys).2 k ↔
      PromptWithin (run (sessionStep commands fuel) (bootSession commands w file) keys).2 k := by
  have htracked := run_tracked commands fuel w file keys
  unfold PromptShows PromptWithin
  apply forall_congr'
  intro st
  apply forall_congr'
  intro hst
  apply forall_congr'
  intro hfresh
  obtain ⟨hgood, hlogged, hempty⟩ := htracked st hst
  exact shows_recent_iff col hgood hlogged (hempty hfresh) hk

/-- One command, and one Up at the prompt after it. -/
theorem prompt_shows_one :
    PromptShows 13 (run (sessionStep noCommands 0) (bootSession noCommands () none) (rounds 1)).2 1 := by
  apply (prompt_shows_iff 13 noCommands 0 () none (rounds 1) (by decide)).mpr
  intro st hst _
  have hidx : ((run (sessionStep noCommands 0) (bootSession noCommands () none) (rounds 1)).2.shell >>=
      fun st => .ok st.1.historyIdx) = .ok (-1) := by decide +kernel
  have hone : (run (sessionStep noCommands 0) (bootSession noCommands () none) (rounds 1)).2.recent.length = 1 := by
    decide
  rw [hst, ok_bind] at hidx
  left
  rw [hone]
  exact ⟨by decide, Or.inl ⟨Except.ok.inj hidx, Or.inl (by decide)⟩⟩

/-- Lines of one letter each, from `A` on. -/
def letters : Nat → List ShellKey
  | 0 => []
  | n + 1 => letters n ++ [.char (65 + UInt8.ofNat n) [], .char 10 []]

/-- Of 33 commands, going back by 33 shows the newest. -/
theorem oldest_row_reused :
    ¬ PromptShows 13 (run (sessionStep noCommands 0) (bootSession noCommands () none) (letters 33)).2 33 := by
  intro hright
  have htracked := run_tracked noCommands 0 () none (letters 33)
  have hafter : ((run (sessionStep noCommands 0) (bootSession noCommands () none) (letters 33)).2.shell >>=
      fun st => .ok st.1.historyIdx) = .ok (-1) ∧
        (run (sessionStep noCommands 0) (bootSession noCommands () none) (letters 33)).2.recent.length = 33 ∧
          (run (sessionStep noCommands 0) (bootSession noCommands () none) (letters 33)).2.fresh = true := by
    decide +kernel
  obtain ⟨hidx, hmany, hfresh⟩ := hafter
  cases hrun : (run (sessionStep noCommands 0) (bootSession noCommands () none) (letters 33)).2.shell with
  | error e =>
    rw [hrun] at hidx
    cases hidx
  | ok st =>
    obtain ⟨hgood, hlogged, hempty⟩ := htracked st hrun
    have hwithin := (shows_recent_iff 13 hgood hlogged (hempty hfresh) (by decide)).mp (hright st hrun hfresh)
    unfold WithinRows at hwithin
    rw [hmany] at hwithin
    omega

end BaSic.Proofs.HistoryKeys
