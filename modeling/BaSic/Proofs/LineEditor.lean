import BaSic.Proofs.HistoryKeys

namespace BaSic.Proofs.LineEditor
open Kernel Lib CmdBounds CmdRuns CmdEntries HistoryLog HistoryKeys

/-- A line being typed: its text, the character the cursor is on, and how many commands back the one is that
was recalled, if one was. -/
structure Draft where
  text : List UInt8
  cursor : Nat
  place : Nat
  within : cursor ≤ text.length

/-- What a search comes to. -/
inductive Outcome where
  | accept (text : Option (List UInt8))
  | cancel
  | pending

/-- The newest of the last 32 commands that the query is in. -/
def newestWith (recent : List (List UInt8)) (query : List UInt8) : Option (List UInt8) :=
  if query = [] then none else (recent.take 32).find? (hasQuery query)

def queryKey (query : List UInt8) (c : UInt8) : List UInt8 :=
  if c = 8 then query.dropLast else if 32 ≤ c ∧ c < 127 ∧ query.length < 77 then query ++ [c] else query

/-- The keys after Ctrl-R; another Ctrl-R is none of them. -/
def searched (recent : List (List UInt8)) (query : List UInt8) : List UInt8 → Outcome
  | [] => .pending
  | c :: keys =>
    if c = 10 then .accept (newestWith recent query)
    else if c = 3 ∨ c = 27 then .cancel
    else searched recent (queryKey query c) keys

namespace Draft

def empty : Draft := ⟨[], 0, 0, Nat.le_refl 0⟩

/-- Another text, with the cursor behind it. -/
def replace (d : Draft) (text : List UInt8) : Draft := ⟨text, text.length, d.place, Nat.le_refl _⟩

def goTo (d : Draft) (cursor : Nat) : Draft := ⟨d.text, min cursor d.text.length, d.place, Nat.min_le_right _ _⟩

def insert (d : Draft) (c : UInt8) : Draft where
  text := d.text.insertIdx d.cursor c
  cursor := d.cursor + 1
  place := d.place
  within := by
    rw [List.length_insertIdx_of_le_length d.within]
    exact Nat.succ_le_succ d.within

def delete (d : Draft) : Draft where
  text := d.text.eraseIdx d.cursor
  cursor := d.cursor
  place := d.place
  within := by
    have hwithin := d.within
    rw [List.length_eraseIdx]
    split <;> omega

def backspace (d : Draft) : Draft := if d.cursor = 0 then d else (d.goTo (d.cursor - 1)).delete

/-- The only command that begins with the text. -/
def completed (d : Draft) : Draft :=
  match completions.filter (fun word => d.text.isPrefixOf word) with
  | [word] => d.replace (word ++ [32])
  | _ => d

/-- The command that many before the prompt. -/
def recalled (recent : List (List UInt8)) (q : Nat) : Draft := ⟨inRow recent q, (inRow recent q).length, q, Nat.le_refl _⟩

def search (d : Draft) (recent : List (List UInt8)) (keys : List UInt8) : Draft :=
  match searched recent [] keys with
  | .accept (some text) => d.replace text
  | .cancel => d.replace []
  | _ => d

/-- What a key does to the line, given the commands so far, the newest first. -/
def key (recent : List (List UInt8)) (d : Draft) : ShellKey → Draft
  | .up => if recent = [] then d else recalled recent (min (d.place + 1) recent.length)
  | .down => if d.place = 0 then d else recalled recent (d.place - 1)
  | .left => d.goTo (d.cursor - 1)
  | .right => d.goTo (d.cursor + 1)
  | .home => d.goTo 0
  | .end => d.goTo d.text.length
  | .del => d.delete
  | .char c session =>
    if c = 8 then d.backspace
    else if c = 9 then d.completed
    else if c = 21 then d.replace []
    else if c = 18 then d.search recent session
    else if 32 ≤ c ∧ c < 127 ∧ d.text.length < 77 then d.insert c
    else d

/-- After Enter the line is empty; an empty one leaves what was recalled. -/
def enter (d : Draft) : Draft := ⟨[], 0, if d.text = [] then d.place else 0, Nat.le_refl 0⟩

theorem eq_of {d e : Draft} (htext : d.text = e.text) (hcursor : d.cursor = e.cursor) (hplace : d.place = e.place) :
    d = e := by
  cases d
  cases e
  simp_all

end Draft

/-- The line in the buffer is the one typed, with the cursor in its place, and is what Enter would dispatch. -/
structure Follows (s : CmdLine) (recent : List (List UInt8)) (d : Draft) : Prop where
  browsed : Browsed s recent d.place
  text : CmdEntries.lineText s = d.text
  cursor : s.cursorPos = d.cursor
  dispatched : dispatchedText s = .ok d.text

section Keys

variable {s t : CmdLine} {recent : List (List UInt8)} {d d' : Draft} {col : Int} {c : UInt8} {query : List UInt8}
  {k n : Nat}

theorem follows_of (h : Browsed s recent d.place) (htext : CmdEntries.lineText s = d.text)
    (hcursor : s.cursorPos = d.cursor) : Follows s recent d := ⟨h, htext, hcursor, htext ▸ dispatched_text h.good⟩

/-- A change of the line alone. -/
theorem Follows.edited (h : Follows s recent d) (hgood : Good t) (hhistory : t.history = s.history)
    (hcount : t.historyCount = s.historyCount) (hidx : t.historyIdx = s.historyIdx) (hplace : d'.place = d.place)
    (htext : CmdEntries.lineText t = d'.text) (hcursor : t.cursorPos = d'.cursor) : Follows t recent d' := by
  refine follows_of ⟨hgood, h.browsed.logged.of hhistory hcount, ?_, ?_⟩ htext hcursor
  · rw [hplace]
    exact h.browsed.le
  · rw [hplace, hidx]
    exact h.browsed.idx

theorem Follows.length (h : Follows s recent d) : s.cmdLen = d.text.length := by
  have hlen := h.browsed.good.len
  rw [← h.text, CmdEntries.lineText, length_tabulate]
  exact (Int.toNat_of_nonneg hlen.1).symm

theorem Follows.go_to (h : Follows s recent d) (col : Int) {cursor : Int} {n : Nat} (h₀ : cursor = (min n d.text.length : Nat)) :
    ∃ t, promptRedraw col { s with cursorPos := cursor } = .ok t ∧ Follows t recent (d.goTo n) := by
  have hgood := h.browsed.good
  have hlength := h.length
  refine ⟨_, prompt_redraw_ok (s := { s with cursorPos := cursor }) hgood.len.2 col, ?_⟩
  exact h.edited ⟨⟨hgood.len, hgood.last, hgood.rows, hgood.counted⟩, ⟨by dsimp only; omega, by dsimp only; omega⟩,
    hgood.filled⟩ rfl rfl rfl rfl h.text h₀

/-- A character is put in. -/
theorem insert_follows (col : Int) (h : Follows s recent d) (hroom : d.text.length < 77) (hc : c ≠ 0) :
    ∃ t, insertChar col s c = .ok t ∧ Follows t recent (d.insert c) := by
  have hlength := h.length
  have hcursor := h.cursor
  have hwithin := d.within
  have hlen := h.browsed.good.len
  obtain ⟨t, ht, hgood⟩ := insert_char_good col h.browsed.good (by omega) hc
  refine ⟨t, ht, ?_⟩
  have hk : ((s.cmdLen - s.cursorPos).toNat : Int) = s.cmdLen - s.cursorPos := by omega
  unfold insertChar at ht
  rw [push_on_ok hlen.2 (by omega), ok_bind, set_char_ok (by dsimp only; omega) (by dsimp only; omega), ok_bind,
    prompt_redraw_ok (by dsimp only; omega)] at ht
  cases ht
  refine h.edited hgood rfl rfl rfl rfl ?_ ?_
  · have hsize : (s.cmdLen + 1).toNat = s.cmdLen.toNat + 1 := by omega
    have hat : d.cursor = s.cursorPos.toNat := by omega
    unfold CmdEntries.lineText
    dsimp only [Draft.insert]
    rw [hsize, ← h.text, hat]
    refine tabulate_insert (by omega) (fun i hi => ?_) ?_ (fun i hi hin => ?_)
    · rw [Function.update_of_ne (by omega), move_on_out (by omega)]
    · rw [Int.toNat_of_nonneg (by omega), Function.update_self]
    · rw [Function.update_of_ne (by omega), move_on_in (by omega) (by omega)]
      congr 1
      omega
  · dsimp only [Draft.insert]
    omega

/-- A character is taken out, and the cursor set where it is. -/
theorem erase_text (h : Good s) {i : Int} (hi : 0 ≤ i) (hlt : i < s.cmdLen) :
    ∃ t, removeChar s i = .ok t ∧ t.history = s.history ∧ t.historyCount = s.historyCount ∧
      t.historyIdx = s.historyIdx ∧ t.cursorPos = s.cursorPos ∧ t.cmdLen = s.cmdLen - 1 ∧
        CmdEntries.lineText t = (CmdEntries.lineText s).eraseIdx i.toNat := by
  have hlen := h.len
  have hk : i + ((s.cmdLen - 1 - i).toNat : Int) = s.cmdLen - 1 := by omega
  unfold removeChar
  rw [pull_back_ok hi (by omega), ok_bind]
  dsimp only
  rw [set_char_ok (by omega) (by omega)]
  refine ⟨_, rfl, rfl, rfl, rfl, rfl, rfl, ?_⟩
  have hsize : s.cmdLen.toNat = (s.cmdLen - 1).toNat + 1 := by omega
  unfold CmdEntries.lineText
  dsimp only
  rw [hsize]
  refine tabulate_erase (by omega) (fun j hj => ?_) (fun j hj hjn => ?_)
  · rw [Function.update_of_ne (by omega), move_back_out (by omega)]
  · rw [Function.update_of_ne (by omega), move_back_in (by omega) (by omega)]
    rfl

theorem delete_follows (col : Int) (h : Follows s recent d) : ∃ t, keyDelete col s = .ok t ∧ Follows t recent d.delete := by
  have hlength := h.length
  have hcursor := h.cursor
  have hgood := h.browsed.good
  unfold keyDelete
  by_cases hlt : s.cursorPos < s.cmdLen
  · obtain ⟨t, ht, hhistory, hcount, hidx, hsame, hless, htext⟩ := erase_text hgood hgood.cursor.1 hlt
    obtain ⟨t', ht', -, hgood'⟩ := remove_char_good hgood hgood.cursor.1 hlt
    obtain rfl : t' = t := Except.ok.inj (ht'.symm.trans ht)
    have hgood' : Good t' := by
      have hset := hgood' s.cursorPos hgood.cursor.1 hlt
      rw [← hsame] at hset
      exact hset
    rw [if_pos hlt, ht, ok_bind, prompt_redraw_ok hgood'.len.2]
    refine ⟨t', rfl, h.edited hgood' hhistory hcount hidx rfl ?_ (hsame.trans hcursor)⟩
    rw [htext, h.text, hcursor]
    rfl
  · have hnone : d.delete = d := by
      refine Draft.eq_of (List.eraseIdx_of_length_le ?_) rfl rfl
      omega
    rw [if_neg hlt, hnone]
    exact ⟨s, rfl, h⟩

theorem backspace_follows (col : Int) (h : Follows s recent d) :
    ∃ t, keyBackspace col s = .ok t ∧ Follows t recent d.backspace := by
  have hlength := h.length
  have hcursor := h.cursor
  have hwithin := d.within
  have hgood := h.browsed.good
  unfold keyBackspace Draft.backspace
  by_cases hpos : s.cursorPos > 0
  · obtain ⟨t, ht, hhistory, hcount, hidx, hsame, hless, htext⟩ :=
      erase_text hgood (i := s.cursorPos - 1) (by omega) (by omega)
    obtain ⟨t', ht', -, hgood'⟩ := remove_char_good hgood (i := s.cursorPos - 1) (by omega) (by omega)
    obtain rfl : t' = t := Except.ok.inj (ht'.symm.trans ht)
    have hset := hgood' (t'.cursorPos - 1) (by omega) (by omega)
    have hat : min (d.cursor - 1) d.text.length = d.cursor - 1 := by omega
    rw [if_pos hpos, ht, ok_bind, prompt_redraw_ok hset.len.2, if_neg (by omega)]
    refine ⟨_, rfl, h.edited hset hhistory hcount hidx rfl ?_ ?_⟩
    · have hplace : (s.cursorPos - 1).toNat = d.cursor - 1 := by omega
      have hline : CmdEntries.lineText { t' with cursorPos := t'.cursorPos - 1 } = CmdEntries.lineText t' := rfl
      rw [hline, htext, h.text, hplace]
      dsimp only [Draft.delete, Draft.goTo]
      rw [hat]
    · dsimp only [Draft.delete, Draft.goTo]
      omega
  · rw [if_neg hpos, if_pos (by omega)]
    exact ⟨s, rfl, h⟩

theorem redraw_same (h : promptRedraw col s = .ok t) : t = s := by
  obtain ⟨_, -, hrest⟩ := bind_ok h
  exact (Except.ok.inj hrest).symm

theorem recall_at_end (h : recallEntry s = .ok t) : t.cursorPos = t.cmdLen := by
  obtain ⟨row, -, hrest⟩ := bind_ok h
  obtain ⟨line, -, hrest⟩ := bind_ok hrest
  obtain ⟨text, -, hrest⟩ := bind_ok hrest
  cases hrest
  rfl

/-- A command recalled has the cursor behind it. -/
theorem recalled_follows {q : Nat} (h : Browsed t recent q) (htext : CmdEntries.lineText t = inRow recent q)
    (hend : t.cursorPos = t.cmdLen) : Follows t recent (.recalled recent q) := by
  have hlen := h.good.len
  refine follows_of h htext ?_
  dsimp only [Draft.recalled]
  rw [← htext, hend, CmdEntries.lineText, length_tabulate, Int.toNat_of_nonneg hlen.1]

theorem up_follows (col : Int) (h : Follows s recent d) (hfew : recent.length < 2147483648) :
    ∃ t, historyUp col s = .ok t ∧ Follows t recent (d.key recent .up) := by
  dsimp only [Draft.key]
  by_cases hnone : recent = []
  · have hcount : s.historyCount = 0 := by
      rw [h.browsed.logged.count, hnone]
      rfl
    rw [if_pos hnone]
    exact ⟨s, if_pos hcount, h⟩
  · obtain ⟨t, ht, hbrowsed, htext⟩ := h.browsed.up col hfew (fun hno => absurd hno hnone)
    have hcount : s.historyCount ≠ 0 := by
      have hpos := List.length_pos_iff.mpr hnone
      rw [h.browsed.logged.count]
      unfold wrapInt
      omega
    have hend : t.cursorPos = t.cmdLen := by
      unfold historyUp at ht
      rw [if_neg hcount] at ht
      obtain ⟨u, hu, hrest⟩ := bind_ok ht
      obtain rfl := redraw_same hrest
      exact recall_at_end hu
    rw [if_neg hnone]
    exact ⟨t, ht, recalled_follows hbrowsed htext hend⟩

theorem down_follows (col : Int) (h : Follows s recent d) (hfew : recent.length < 2147483648) :
    ∃ t, historyDown col s = .ok t ∧ Follows t recent (d.key recent .down) := by
  have hidx := h.browsed.idx
  have hle := h.browsed.le
  dsimp only [Draft.key]
  by_cases hzero : d.place = 0
  · rw [if_pos hzero] at hidx ⊢
    exact ⟨s, history_down_none col hidx, h⟩
  · obtain ⟨q, hq⟩ := Nat.exists_eq_succ_of_ne_zero hzero
    have hbrowsed := h.browsed
    rw [hq] at hbrowsed
    obtain ⟨t, ht, hnext, htext⟩ := hbrowsed.down_from col hfew
    have hend : t.cursorPos = t.cmdLen := by
      unfold historyDown at ht
      rw [if_neg (by rw [hidx, if_neg hzero]; omega)] at ht
      split at ht
      · obtain rfl := redraw_same ht
        rfl
      · obtain ⟨u, hu, hrest⟩ := bind_ok ht
        obtain rfl := redraw_same hrest
        exact recall_at_end hu
    rw [if_neg hzero, hq, Nat.succ_sub_one]
    exact ⟨t, ht, recalled_follows hnext htext hend⟩

theorem cleared_follows (h : Follows s recent d) : Follows s.clear recent (d.replace []) :=
  h.edited (clear_good h.browsed.good.toRoom) rfl rfl rfl rfl rfl rfl

theorem completion_fits : ∀ word ∈ completions, word.length < 77 ∧ (0 : UInt8) ∉ word := by decide +kernel

/-- A command put in place of the line, with a blank behind it. -/
theorem complete_follows (h : Follows s recent d) {word : List UInt8} (hword : word ∈ completions) :
    ∃ t, complete s word = .ok t ∧ Follows t recent (d.replace (word ++ [32])) := by
  obtain ⟨hshort, hnul⟩ := completion_fits word hword
  have hfits : Fits word := ⟨Nat.le_of_lt hshort, hnul⟩
  have hgood := h.browsed.good
  obtain ⟨t, ht, hgood'⟩ := complete_good hgood.toRoom word
  refine ⟨t, ht, ?_⟩
  unfold complete cmdBufSize at ht
  dsimp only at ht
  rw [copied_text hfits hgood.last, ok_bind, if_pos (by omega), set_char_ok (Int.natCast_nonneg _) (by omega), ok_bind] at ht
  cases ht
  refine h.edited hgood' rfl rfl rfl rfl ?_ ?_
  · have hsize : ((word.length : Int) + 1).toNat = word.length + 1 := by omega
    unfold CmdEntries.lineText
    dsimp only [Draft.replace]
    rw [hsize, tabulate_succ_last, Function.update_self]
    refine congrArg (· ++ [(32 : UInt8)]) (Eq.trans (tabulate_congr fun i hi => ?_) (copied_line hfits s.cmdBuf))
    exact Function.update_of_ne (by omega) _ _
  · dsimp only [Draft.replace]
    rw [List.length_append, List.length_singleton]
    rfl

theorem tab_follows (col : Int) (h : Follows s recent d) :
    ∃ t, tabComplete col s = .ok t ∧ Follows t recent d.completed := by
  have hgood := h.browsed.good
  have hset : Follows { s with cmdBuf := Function.update s.cmdBuf s.cmdLen 0 } recent d := by
    refine h.edited ⟨hgood.toRoom.set (fun _ => rfl), hgood.cursor, fun i h₀ h₁ => ?_⟩ rfl rfl rfl rfl ?_ h.cursor
    · dsimp only at h₁ ⊢
      rw [Function.update_of_ne (by omega)]
      exact hgood.filled i h₀ h₁
    · rw [← h.text]
      refine tabulate_congr fun i hi => ?_
      dsimp only at hi ⊢
      exact Function.update_of_ne (by omega) _ _
  have htyped := h.dispatched
  unfold dispatchedText at htyped
  unfold tabComplete Draft.completed
  rw [set_char_ok hgood.len.1 hgood.len.2, ok_bind] at htyped ⊢
  rw [htyped, ok_bind]
  split
  · rename_i hfilter
    simp only [hfilter]
    exact ⟨_, rfl, hset⟩
  · rename_i word hfilter
    have hword : word ∈ completions := by
      have hmem : word ∈ completions.filter (fun word => d.text.isPrefixOf word) := by
        rw [hfilter]
        exact List.mem_singleton_self word
      exact (List.mem_filter.mp hmem).1
    obtain ⟨t, ht, hdone⟩ := complete_follows hset hword
    simp only [hfilter]
    rw [ht, ok_bind, prompt_redraw_ok hdone.browsed.good.len.2]
    exact ⟨t, rfl, hdone⟩
  · rename_i hnone hmany
    refine ⟨_, prompt_redraw_ok (s := { s with cmdBuf := Function.update s.cmdBuf s.cmdLen 0 }) hgood.len.2 col, ?_⟩
    split
    · rename_i word hfilter
      exact absurd hfilter (hmany word)
    · exact hset

/-- The texts that a search of `n` commands goes over, the newest first. -/
def overRing (recent : List (List UInt8)) (n k : Nat) : List (List UInt8) :=
  (List.range' (n - k) k).map (fun j => recent.getD (j % 32) [])

/-- No text is in the ring but the last 32. -/
theorem find_in_ring {α : Type} (p : α → Bool) (a : α) (l : List α) :
    ((List.range' 0 l.length).map (fun j => l.getD (j % 32) a)).find? p = (l.take 32).find? p := by
  have hfirst : ∀ n ≤ 32, n ≤ l.length → (List.range' 0 n).map (fun j => l.getD (j % 32) a) = l.take n := by
    intro n hn hle
    refine List.ext_getElem? (fun i => ?_)
    by_cases hi : i < n
    · have hmod : i % 32 = i := Nat.mod_eq_of_lt (by omega)
      have hlt : i < l.length := by omega
      simp [hi, hmod, hlt]
    · rw [List.getElem?_eq_none (by simpa using hi), List.getElem?_eq_none (by rw [List.length_take]; omega)]
  by_cases hfew : l.length ≤ 32
  · rw [hfirst l.length hfew (Nat.le_refl _), List.take_of_length_le (Nat.le_refl _), List.take_of_length_le hfew]
  · have hsplit : List.range' 0 l.length = List.range' 0 32 ++ List.range' 32 (l.length - 32) := by
      have hcount : l.length = 32 + (l.length - 32) := by omega
      rw [hcount, ← List.range'_append_1, Nat.add_sub_cancel_left]
    rw [hsplit, List.map_append, List.find?_append, hfirst 32 (Nat.le_refl 32) (by omega)]
    cases hfind : (l.take 32).find? p with
    | some b => rfl
    | none =>
      rw [Option.none_or, List.find?_eq_none]
      intro b hb
      obtain ⟨j, -, rfl⟩ := List.mem_map.mp hb
      have hlt : j % 32 < 32 := Nat.mod_lt j (by decide)
      refine List.find?_eq_none.mp hfind _ (List.mem_iff_getElem?.mpr ⟨j % 32, ?_⟩)
      have hin : j % 32 < l.length := by omega
      rw [List.getElem?_take_of_lt hlt, List.getElem?_eq_getElem hin, List.getD_eq_getElem _ _ hin]

/-- A search from entry `k - 1` down. -/
theorem find_match_ring (h : Logged s recent) (query : List UInt8) (hk : k ≤ recent.length) :
    ∃ found, findMatch s query ((k : Int) - 1) k = .ok found ∧
      found.map Prod.snd = (overRing recent recent.length k).find? (hasQuery query) := by
  induction k with
  | zero => exact ⟨none, rfl, rfl⟩
  | succ k ih =>
    obtain ⟨found, hfound, hsame⟩ := ih (by omega)
    have hslot : (k : Int).tmod historySize = ((recent.length - (recent.length - k) : Nat) : Int) % 32 := by
      rw [Nat.sub_sub_self (by omega)]
      exact Int.tmod_eq_emod_of_nonneg (Int.natCast_nonneg k)
    obtain ⟨htext, -⟩ := logged_row_text h (q := recent.length - k) (by omega) (by omega) hslot
    have hrow : s.rowAt k = .ok (s.history ((k : Int).tmod historySize)) := if_pos (slot_nonneg (Or.inl (by omega)))
    have hhere : ((k + 1 : Nat) : Int) - 1 = k := by omega
    have hfirst : overRing recent recent.length (k + 1) =
        inRow recent (recent.length - k) :: overRing recent recent.length k := by
      have hne : recent.length - k ≠ 0 := by omega
      have hstart : recent.length - (k + 1) + 1 = recent.length - k := by omega
      have hbefore : recent.length - k - 1 = recent.length - (k + 1) := by omega
      unfold overRing inRow
      rw [List.range'_succ, List.map_cons, hstart, if_neg hne, hbefore]
    unfold findMatch
    rw [hhere, hrow, ok_bind, htext, ok_bind, hfirst]
    by_cases hquery : hasQuery query (inRow recent (recent.length - k))
    · rw [if_pos hquery, List.find?_cons_of_pos hquery]
      exact ⟨_, rfl, rfl⟩
    · rw [if_neg hquery, List.find?_cons_of_neg hquery]
      exact ⟨found, hfound, hsame⟩

theorem search_newest (h : Logged s recent) (hfew : recent.length < 2147483648) (query : List UInt8) :
    ∃ found, searchHistory s query = .ok found ∧ found.map Prod.snd = newestWith recent query := by
  have hcount : wrapInt (s.historyCount - 1) = (recent.length : Int) - 1 := by
    rw [h.count]
    unfold wrapInt
    omega
  unfold searchHistory newestWith
  by_cases hempty : query = []
  · rw [if_pos hempty, if_pos hempty]
    exact ⟨none, rfl, rfl⟩
  · obtain ⟨found, hfound, hsame⟩ := find_match_ring h query (Nat.le_refl recent.length)
    have hleft : ((recent.length : Int) - 1 + 1).toNat = recent.length := by omega
    rw [if_neg hempty, if_neg hempty, hcount, hleft]
    refine ⟨found, hfound, hsame.trans ?_⟩
    unfold overRing
    rw [Nat.sub_self]
    exact find_in_ring (hasQuery query) [] recent

def outcomeOf : Search → Outcome
  | .accept found => .accept (found.map Prod.snd)
  | .cancel => .cancel
  | .pending => .pending

/-- The search finds the newest command with the query; a second Ctrl-R finds it again. -/
theorem search_loop_outcome (hroom : Room s) (h : Logged s recent) (hfew : recent.length < 2147483648)
    (query keys : List UInt8) : ∃ r, searchLoop s query keys = .ok r ∧ outcomeOf r = searched recent query keys := by
  induction keys generalizing query with
  | nil => exact ⟨.pending, rfl, rfl⟩
  | cons c keys ih =>
    obtain ⟨found, hfound, hsame⟩ := search_newest h hfew query
    obtain ⟨found', hfound', hplace⟩ := search_history_ok hroom query
    obtain rfl : found' = found := Except.ok.inj (hfound'.symm.trans hfound)
    have hsize : ((query.length : Int) < cmdBufSize - 1) ↔ query.length < 77 := by
      unfold cmdBufSize
      omega
    unfold searchLoop searched
    rw [hfound, ok_bind]
    by_cases hnul : c = 0
    · rw [if_pos hnul, hnul]
      exact ih query
    rw [if_neg hnul]
    by_cases henter : c = 10
    · rw [if_pos henter, if_pos henter]
      exact ⟨_, rfl, congrArg Outcome.accept hsame⟩
    rw [if_neg henter, if_neg henter]
    by_cases hagain : c = 18
    · rw [if_pos hagain, hagain]
      cases found' with
      | none => exact ih query
      | some found =>
        obtain ⟨j, text⟩ := found
        have hj := (hplace j text rfl).1
        obtain ⟨further, hfurther, -⟩ := find_match_ok hroom query (i := j - 1) (k := j.toNat) (Or.inl (by omega))
        dsimp only
        rw [hfurther, ok_bind]
        exact ih query
    rw [if_neg hagain]
    by_cases hcancel : c = 3 ∨ c = 27
    · rw [if_pos hcancel, if_pos hcancel]
      exact ⟨_, rfl, rfl⟩
    rw [if_neg hcancel, if_neg hcancel]
    unfold queryKey
    simp only [hsize]
    split_ifs
    · exact ih query.dropLast
    · exact ih (query ++ [c])
    · exact ih query

theorem newest_fits (h : Logged s recent) {text : List UInt8} (hfind : newestWith recent query = some text) : Fits text := by
  unfold newestWith at hfind
  split at hfind
  · cases hfind
  · exact (h.texts text (List.mem_of_mem_take (List.mem_of_find?_eq_some hfind))).2

theorem accept_follows (h : Follows s recent d) {text : List UInt8} (hfits : Fits text) :
    ∃ t, acceptMatch s text = .ok t ∧ Follows t recent (d.replace text) := by
  have hlen := hfits.1
  obtain ⟨t, ht, hgood⟩ := accept_match_good h.browsed.good.toRoom hfits
  refine ⟨t, ht, ?_⟩
  unfold acceptMatch cmdBufSize at ht
  rw [if_pos (by omega), put_text_ok hlen, ok_bind] at ht
  cases ht
  refine h.edited hgood rfl rfl rfl rfl ?_ rfl
  unfold CmdEntries.lineText overwritten
  dsimp only [Draft.replace]
  rw [Int.toNat_natCast]
  refine List.ext_getElem? (fun i => ?_)
  rw [tabulate_get?]
  by_cases hi : i < text.length
  · rw [if_pos hi, Function.update_of_ne (by omega), if_pos ⟨by omega, by omega⟩, Int.toNat_natCast,
      List.getD_eq_getElem _ _ hi, List.getElem?_eq_getElem hi]
  · rw [if_neg hi, List.getElem?_eq_none (by omega)]

theorem searched_found {keys : List UInt8} {text : List UInt8} (h : searched recent query keys = .accept (some text)) :
    ∃ query, newestWith recent query = some text := by
  induction keys generalizing query with
  | nil => cases h
  | cons c keys ih =>
    unfold searched at h
    split_ifs at h
    · exact ⟨query, Outcome.accept.inj h⟩
    · exact ih h

theorem search_follows (col : Int) (h : Follows s recent d) (hfew : recent.length < 2147483648) (keys : List UInt8) :
    ∃ t, ctrlRSearch col s keys = .ok t ∧ Follows t recent (d.search recent keys) := by
  obtain ⟨r, hr, hout⟩ := search_loop_outcome h.browsed.good.toRoom h.browsed.logged hfew [] keys
  unfold ctrlRSearch Draft.search
  rw [hr, ok_bind, ← hout]
  match r with
  | .pending => exact ⟨s, rfl, h⟩
  | .cancel =>
    have hcleared := cleared_follows h
    exact ⟨_, prompt_redraw_ok hcleared.browsed.good.len.2 col, hcleared⟩
  | .accept none => exact ⟨s, prompt_redraw_ok h.browsed.good.len.2 col, h⟩
  | .accept (some (j, text)) =>
    have haccept : searched recent [] keys = .accept (some text) := hout.symm
    obtain ⟨q, hq⟩ := searched_found haccept
    obtain ⟨t, ht, hdone⟩ := accept_follows h (newest_fits h.browsed.logged hq)
    dsimp only [outcomeOf]
    rw [ht, ok_bind, prompt_redraw_ok hdone.browsed.good.len.2]
    exact ⟨t, rfl, hdone⟩

/-- Every key but Enter does to the buffer what it does to the line typed. -/
theorem key_follows (col : Int) (h : Follows s recent d) (hfew : recent.length < 2147483648) (key : ShellKey) :
    ∃ t, editKey col s key = .ok t ∧ Follows t recent (d.key recent key) := by
  have hlength := h.length
  have hcursor := h.cursor
  have hwithin := d.within
  have hgood := h.browsed.good
  cases key with
  | up => exact up_follows col h hfew
  | down => exact down_follows col h hfew
  | left =>
    unfold editKey Draft.key
    dsimp only
    split
    · exact h.go_to col (by omega)
    · have hstay : d.goTo (d.cursor - 1) = d := Draft.eq_of rfl (by dsimp only [Draft.goTo]; omega) rfl
      rw [hstay]
      exact ⟨s, rfl, h⟩
  | right =>
    unfold editKey Draft.key
    dsimp only
    split
    · exact h.go_to col (by omega)
    · have hstay : d.goTo (d.cursor + 1) = d := Draft.eq_of rfl (by dsimp only [Draft.goTo]; omega) rfl
      rw [hstay]
      exact ⟨s, rfl, h⟩
  | home => exact h.go_to col (by omega)
  | «end» => exact h.go_to col (by omega)
  | del => exact delete_follows col h
  | char c session =>
    have hsize : s.cmdLen < cmdBufSize - 1 ↔ d.text.length < 77 := by
      unfold cmdBufSize
      omega
    unfold editKey Draft.key
    dsimp only
    simp only [hsize]
    split_ifs with hback htab hclear hsearch hprint
    · exact backspace_follows col h
    · exact tab_follows col h
    · have hcleared := cleared_follows h
      exact ⟨_, prompt_redraw_ok hcleared.browsed.good.len.2 col, hcleared⟩
    · exact search_follows col h hfew session
    · refine insert_follows col h hprint.2.2 ?_
      rintro rfl
      exact absurd hprint.1 (by decide)
    · exact ⟨s, rfl, h⟩

end Keys

section Sessions

variable {W : Type} {commands : Commands W} {fuel : Nat} {st u : ShellState W} {recent : List (List UInt8)} {d : Draft}
  {key : ShellKey}

/-- The session, and the line typed in it. -/
def draftStep (commands : Commands W) (fuel : Nat) (x : Session W × Draft) (key : ShellKey) : Unit × (Session W × Draft) :=
  ((), (sessionStep commands fuel x.1 key).2, if key.isEnter then x.2.enter else x.2.key x.1.recent key)

/-- What Enter leaves of the cursor and of the command recalled. -/
theorem enter_leaves (h : Good st.1) (hu : enterLine commands fuel st = .ok u) :
    u.1.cursorPos = 0 ∧ u.1.historyIdx = if st.1.cmdLen = 0 then st.1.historyIdx else -1 := by
  obtain ⟨s₁, hecho, hrest⟩ := bind_ok hu
  obtain rfl : st.1 = s₁ := Except.ok.inj ((echo_input_ok h.len.2 _).symm.trans hecho)
  obtain ⟨s', hpush, hrest⟩ := bind_ok hrest
  obtain ⟨v, hdispatch, hrest⟩ := bind_ok hrest
  obtain ⟨t, hredraw, hlast⟩ := bind_ok hrest
  obtain rfl := redraw_same hredraw
  cases hlast
  have hkept : Room s' → v.1.historyIdx = s'.historyIdx := by
    intro hroom
    have hserved : Ends (Served s') (dispatch commands (cmdRun commands fuel) (s', st.2)) :=
      dispatch_served (fun path _ hst => cmd_run_served fuel path hst) ⟨hroom, rfl, rfl, rfl⟩
    rw [hdispatch] at hserved
    exact hserved.idx
  refine ⟨rfl, ?_⟩
  change v.1.historyIdx = _
  by_cases hlen : st.1.cmdLen = 0
  · obtain rfl : st.1 = s' := by
      unfold historyPush at hpush
      rw [if_pos hlen] at hpush
      exact Except.ok.inj hpush
    rw [if_pos hlen, hkept h.toRoom]
  · have hcount : st.1.historyCount ≠ -2147483647 := by
      intro hno
      rw [history_push_fault h.toRoom hlen hno] at hpush
      cases hpush
    obtain ⟨line, -, hstored, hroom⟩ := history_push_ok h.toRoom hlen hcount
    obtain rfl := Except.ok.inj (hstored.symm.trans hpush)
    rw [if_neg hlen, hkept hroom]

theorem enter_follows (h : Follows st.1 recent d) (henter : key.isEnter = true) (hu : enterLine commands fuel st = .ok u) :
    Follows u.1 (pushedLines (.ok st) key ++ recent) d.enter := by
  obtain ⟨hgood, hlogged, hempty⟩ := enter_logged h.browsed.good h.browsed.logged henter hu
  obtain ⟨hcursor, hidx⟩ := enter_leaves h.browsed.good hu
  have hlength := h.length
  have hline : CmdEntries.lineText u.1 = [] := by
    unfold CmdEntries.lineText
    rw [hempty]
    rfl
  by_cases htext : d.text = []
  · have hzero : st.1.cmdLen = 0 := by
      rw [hlength, htext]
      rfl
    have hpushed : pushedLines (.ok st) key = [] := by simp [pushedLines, hzero]
    have hplace : d.enter.place = d.place := if_pos htext
    rw [if_pos hzero] at hidx
    refine follows_of ⟨hgood, hlogged, ?_, ?_⟩ hline hcursor
    · rw [hplace, hpushed]
      exact h.browsed.le
    · rw [hplace, hpushed, hidx]
      exact h.browsed.idx
  · have hsome : st.1.cmdLen ≠ 0 := by
      have hpos := List.length_pos_iff.mpr htext
      omega
    have hplace : d.enter.place = 0 := if_neg htext
    rw [if_neg hsome] at hidx
    refine follows_of ⟨hgood, hlogged, ?_, ?_⟩ hline hcursor
    · rw [hplace]
      exact Nat.zero_le _
    · rw [hplace, hidx, if_pos rfl]

/-- While an `int` numbers the commands. -/
def Followed (x : Session W × Draft) : Prop :=
  ∀ st, x.1.shell = .ok st → x.1.recent.length < 2147483648 → Follows st.1 x.1.recent x.2

theorem step_followed {x : Session W × Draft} (h : Followed x) : Followed (draftStep commands fuel x key).2 := by
  intro v hv hfew
  cases hx : x.1.shell with
  | error e =>
    have hfailed : (keyStep commands fuel x.1.shell key).2 = .error e := by
      rw [hx]
      rfl
    cases hfailed.symm.trans hv
  | ok st =>
    have hless : x.1.recent.length < 2147483648 := by
      have hall : (pushedLines x.1.shell key ++ x.1.recent).length < 2147483648 := hfew
      rw [List.length_append] at hall
      omega
    have hfollows := h st hx hless
    have hrun : shellKey commands fuel st key = .ok v := by
      have hstep : (keyStep commands fuel x.1.shell key).2 = .ok v := hv
      rwa [hx] at hstep
    change Follows v.1 (pushedLines x.1.shell key ++ x.1.recent) (if key.isEnter then x.2.enter else x.2.key x.1.recent key)
    rw [hx]
    unfold shellKey at hrun
    by_cases henter : key.isEnter = true
    · rw [if_pos henter] at hrun ⊢
      exact enter_follows hfollows henter hrun
    · obtain ⟨t, ht, hnext⟩ := key_follows (commands.promptCol st.2) hfollows hless key
      have hpushed : pushedLines (.ok st) key = [] := by simp [pushedLines, henter]
      rw [if_neg henter] at hrun ⊢
      rw [ht, ok_bind] at hrun
      obtain rfl := Except.ok.inj hrun
      rw [hpushed]
      exact hnext

theorem boot_idx {file : Option (List UInt8)} {w : W} (h : bootShell commands w file = .ok st) :
    st.1.historyIdx = -1 := by
  obtain ⟨s, hinit, hlast⟩ := bind_ok h
  obtain ⟨t, hload, hredraw⟩ := bind_ok hinit
  obtain rfl := redraw_same hredraw
  cases hlast
  unfold historyLoad at hload
  split at hload
  · cases hload
    rfl
  · obtain ⟨u, hu, -, hidx, -⟩ := load_entries_good fresh_good rfl ⟨Int.le_refl 0, by decide⟩ _ _
    obtain rfl := Except.ok.inj (hu.symm.trans hload)
    exact hidx

theorem boot_followed (commands : Commands W) (w : W) (file : Option (List UInt8)) :
    Followed (bootSession commands w file, Draft.empty) := by
  intro st hst hfew
  obtain ⟨hgood, hlogged, hfresh⟩ := boot_tracked commands w file st hst
  have hempty := hfresh rfl
  have hcursor := hgood.cursor
  have hline : CmdEntries.lineText st.1 = [] := by
    unfold CmdEntries.lineText
    rw [hempty]
    rfl
  exact follows_of ⟨hgood, hlogged, Nat.zero_le _, boot_idx hst⟩ hline (by dsimp only [Draft.empty]; omega)

/-- Whatever keys are pressed from boot on, the line in the buffer is the one typed, edited and recalled with
them, the cursor is where it belongs, and Enter would dispatch that line. -/
theorem line_is_typed (commands : Commands W) (fuel : Nat) (w : W) (file : Option (List UInt8)) (keys : List ShellKey)
    (hrun : (run (draftStep commands fuel) (bootSession commands w file, Draft.empty) keys).2.1.shell = .ok st)
    (hfew : (run (draftStep commands fuel) (bootSession commands w file, Draft.empty) keys).2.1.recent.length <
      2147483648) :
    Follows st.1 (run (draftStep commands fuel) (bootSession commands w file, Draft.empty) keys).2.1.recent
      (run (draftStep commands fuel) (bootSession commands w file, Draft.empty) keys).2.2 :=
  run_invariant (Q := fun _ => True) (fun _ _ _ h => step_followed h) (fun _ _ => trivial)
    (boot_followed commands w file) st hrun hfew

/-- Tab after two letters. -/
theorem line_is_typed_uptime : ∃ st, (run (draftStep noCommands 0) (bootSession noCommands () none, Draft.empty)
      (typed "up" ++ [.char 9 []])).2.1.shell = .ok st ∧
    Follows st.1 (run (draftStep noCommands 0) (bootSession noCommands () none, Draft.empty)
      (typed "up" ++ [.char 9 []])).2.1.recent (run (draftStep noCommands 0) (bootSession noCommands () none, Draft.empty)
      (typed "up" ++ [.char 9 []])).2.2 := by
  have hok : ((run (draftStep noCommands 0) (bootSession noCommands () none, Draft.empty)
      (typed "up" ++ [.char 9 []])).2.1.shell >>= fun _ => .ok ()) = .ok () := by decide +kernel
  obtain ⟨st, hst, -⟩ := bind_ok hok
  exact ⟨st, hst, line_is_typed noCommands 0 () none _ hst (by decide +kernel)⟩

end Sessions

end BaSic.Proofs.LineEditor
