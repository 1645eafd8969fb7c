import BaSic.Proofs.CmdEntries

namespace BaSic.Proofs.HistoryFile
open Kernel Lib CmdBounds CmdRuns CmdEntries

/-- Lines recorded one after the other. -/
def pushAll (s : CmdLine) : List (List UInt8) → Except Fault CmdLine
  | [] => .ok s
  | line :: rest => do
    let s ← pushRow s line
    pushAll s rest

/-- The entries that are still there, and that `history` lists. -/
def lastEntries (lines : List (List UInt8)) : List (List UInt8) := lines.drop (lines.length - 32)

/-- 1 to 77 printable characters. -/
def Line (line : List UInt8) : Prop :=
  line ≠ [] ∧ line.length ≤ 77 ∧ ∀ c ∈ line, 0x20 ≤ c ∧ c ≤ 0x7E

/-- The file `history_save` leaves, where there was none: nothing is written for no bytes. -/
def savedFile (bytes : List UInt8) : Option (List UInt8) := if bytes = [] then none else some bytes

/-- The lines that a fresh boot finds in the file saved are the last ones recorded. -/
def Survives (s : CmdLine) (lines : List (List UInt8)) : Prop :=
  ∃ bytes t, historySave s = .ok bytes ∧ historyLoad freshLine (savedFile bytes) = .ok t ∧
    t.historyCount = (lastEntries lines).length ∧ cmdHistory t = .ok (lastEntries lines)

/-- The entries one after the other, each with its newline. -/
def joined (entries : List (List UInt8)) : List UInt8 := entries.flatMap (· ++ [10])

/-- What the loop of `history_save` makes of the entries that it goes over. -/
def saveText (hbuf : List UInt8) : List (List UInt8) → List UInt8
  | [] => hbuf
  | text :: rest =>
    if hbuf.length + text.length + 1 ≥ hbufSize then hbuf else saveText (hbuf ++ text ++ [10]) rest

/-- The lines recorded so far, of which the rows hold the last 32. -/
structure Records (s : CmdLine) (lines : List (List UInt8)) : Prop where
  room : Room s
  idx : s.historyIdx = -1
  count : s.historyCount = lines.length
  rows : ∀ k line, lines[k]? = some line → lines.length ≤ k + 32 →
    strAt (s.history ((k : Int).tmod historySize)) 0 = .ok line

variable {s t : CmdLine} {line : List UInt8} {lines done entries : List (List UInt8)} {i k : Nat}

theorem line_fits (h : Line line) : Fits line := by
  refine ⟨h.2.1, fun hzero => ?_⟩
  have hrange := (h.2.2 0 hzero).1
  revert hrange
  decide

theorem fresh_records : Records freshLine [] :=
  ⟨fresh_good.toRoom, rfl, rfl, fun k line hline => by cases hline⟩

/-- Another line takes the row of the one 32 lines before it. -/
theorem Records.push (h : Records s lines) (hline : Fits line) (hcount : lines.length < 2147483647) :
    pushRow s line = .ok (stored s line) ∧ Records (stored s line) (lines ++ [line]) := by
  have hne : s.historyCount ≠ -2147483647 := by
    rw [h.count]
    omega
  refine ⟨push_row_ok (h.room.counted.has_row hne),
    ⟨⟨h.room.len, h.room.last, stored_rows h.room, ?_⟩, h.idx, ?_, fun k x hx hlast => ?_⟩⟩
  · have hidx : (stored s line).historyIdx = -1 := h.idx
    rw [hidx]
    exact h.room.counted.push hne
  · unfold stored wrapInt
    dsimp only
    rw [h.count, List.length_append, List.length_singleton]
    omega
  · rw [List.length_append, List.length_singleton] at hlast
    have hsize : historySize = 32 := rfl
    unfold stored
    dsimp only
    rw [h.count]
    by_cases hk : k < lines.length
    · rw [List.getElem?_append_left hk] at hx
      have hslot : (k : Int).tmod historySize ≠ (lines.length : Int).tmod historySize := by
        rw [hsize, Int.tmod_eq_emod_of_nonneg (by omega), Int.tmod_eq_emod_of_nonneg (by omega)]
        omega
      rw [Function.update_of_ne hslot]
      exact h.rows k x hx (by omega)
    · have hlt := (List.getElem?_eq_some_iff.mp hx).1
      rw [List.length_append, List.length_singleton] at hlt
      obtain rfl : k = lines.length := by omega
      rw [List.getElem?_append_right (Nat.le_refl _), Nat.sub_self] at hx
      obtain rfl := Option.some.inj hx
      rw [Function.update_self]
      exact stored_row_text hline

theorem push_all_records (h : Records s done) (hlines : ∀ line ∈ lines, Fits line)
    (hcount : done.length + lines.length ≤ 2147483647) : ∃ t, pushAll s lines = .ok t ∧ Records t (done ++ lines) := by
  induction lines generalizing s done with
  | nil => exact ⟨s, rfl, by rwa [List.append_nil]⟩
  | cons line lines ih =>
    rw [List.length_cons] at hcount
    obtain ⟨hpush, hnext⟩ := h.push (hlines line List.mem_cons_self) (by omega)
    obtain ⟨t, ht, hrecords⟩ := ih hnext (fun x hx => hlines x (List.mem_cons_of_mem _ hx))
      (by rw [List.length_append, List.length_singleton]; omega)
    refine ⟨t, ?_, ?_⟩
    · rw [pushAll, hpush, ok_bind]
      exact ht
    · rwa [List.append_assoc, List.singleton_append] at hrecords

/-- The count of lines wraps, and the second line after that has no row. -/
theorem push_all_count {m : Int} (hm : 0 ≤ m ∧ m ≤ 2147483649) (hs : s.historyCount = wrapInt m)
    (ht : pushAll s lines = .ok t) : m + lines.length ≤ 2147483649 ∧ t.historyCount = wrapInt (m + lines.length) := by
  induction lines generalizing s m with
  | nil =>
    cases ht
    rw [List.length_nil, Int.natCast_zero, Int.add_zero]
    exact ⟨hm.2, hs⟩
  | cons line lines ih =>
    rw [pushAll] at ht
    by_cases hrow : 0 ≤ s.historyCount.tmod historySize
    · rw [push_row_stored hrow, ok_bind] at ht
      have hlt : m ≠ 2147483649 := by
        rintro rfl
        rw [hs] at hrow
        revert hrow
        decide
      have hnext : (stored s line).historyCount = wrapInt (m + 1) := by
        unfold stored
        dsimp only
        rw [hs]
        unfold wrapInt
        omega
      have hrest := ih ⟨by omega, by omega⟩ hnext ht
      rw [List.length_cons, Int.natCast_add, Int.natCast_one, Int.add_comm _ 1, ← Int.add_assoc]
      exact hrest
    · unfold pushRow CmdLine.rowAt at ht
      rw [if_neg hrow] at ht
      cases ht

/-- The rows read from line `i` on. -/
theorem entries_from_records (h : Records s lines) (hi : i + k = lines.length) (hlast : lines.length ≤ i + 32) :
    entriesFrom s i k = .ok (lines.drop i) := by
  induction k generalizing i with
  | zero => rw [entriesFrom, List.drop_eq_nil_of_le (by omega)]
  | succ k ih =>
    have hlt : i < lines.length := by omega
    have htext := h.rows i lines[i] (List.getElem?_eq_getElem hlt) hlast
    have hrest := ih (i := i + 1) (by omega) (by omega)
    rw [entriesFrom, (row_ok h.room (Or.inl (Int.natCast_nonneg i))).1, ok_bind, htext, ok_bind]
    rw [Int.natCast_add, Int.natCast_one] at hrest
    rw [hrest, ok_bind, ← List.drop_eq_getElem_cons hlt]

theorem save_loop_records (h : Records s lines) (hbuf : List UInt8) (hi : i + k = lines.length)
    (hlast : lines.length ≤ i + 32) : saveLoop s hbuf i k = .ok (saveText hbuf (lines.drop i)) := by
  induction k generalizing i hbuf with
  | zero => rw [saveLoop, List.drop_eq_nil_of_le (by omega), saveText]
  | succ k ih =>
    have hlt : i < lines.length := by omega
    have htext := h.rows i lines[i] (List.getElem?_eq_getElem hlt) hlast
    rw [saveLoop, (row_ok h.room (Or.inl (Int.natCast_nonneg i))).1, ok_bind, htext, ok_bind,
      List.drop_eq_getElem_cons hlt, saveText]
    split
    · rfl
    · have hrest := ih (hbuf ++ lines[i] ++ [10]) (i := i + 1) (by omega) (by omega)
      rwa [Int.natCast_add, Int.natCast_one] at hrest

/-- The first line that is still there. -/
theorem Records.oldest (h : Records s lines) : oldestEntry s = ((lines.length - 32 : Nat) : Int) ∧
    lines.length - 32 + (s.historyCount - oldestEntry s).toNat = lines.length := by
  have hsize : historySize = 32 := rfl
  unfold oldestEntry
  rw [h.count, hsize]
  split <;> omega

theorem Records.listed (h : Records s lines) : cmdHistory s = .ok (lastEntries lines) := by
  obtain ⟨hfirst, hlength⟩ := h.oldest
  unfold cmdHistory lastEntries
  generalize hk : (s.historyCount - oldestEntry s).toNat = k at hlength ⊢
  rw [hfirst]
  exact entries_from_records h hlength (by omega)

theorem Records.saved (h : Records s lines) : historySave s = .ok (saveText [] (lastEntries lines)) := by
  obtain ⟨hfirst, hlength⟩ := h.oldest
  unfold historySave lastEntries
  generalize hk : (s.historyCount - oldestEntry s).toNat = k at hlength ⊢
  rw [hfirst]
  exact save_loop_records h [] hlength (by omega)

theorem joined_cons (line : List UInt8) (entries : List (List UInt8)) :
    joined (line :: entries) = line ++ 10 :: joined entries := by
  unfold joined
  rw [List.flatMap_cons, List.append_assoc, List.singleton_append]

theorem joined_length_cons (line : List UInt8) (entries : List (List UInt8)) :
    (joined (line :: entries)).length = line.length + 1 + (joined entries).length := by
  rw [joined_cons, List.length_append, List.length_cons]
  omega

theorem joined_nil_iff : joined entries = [] ↔ entries = [] := by
  cases entries with
  | nil => exact iff_of_true rfl rfl
  | cons line entries =>
    rw [joined_cons]
    exact iff_of_false (List.append_ne_nil_of_right_ne_nil _ (List.cons_ne_nil _ _)) (List.cons_ne_nil _ _)

/-- What is saved is all entries, or the first ones of them if not all fit. -/
theorem save_text_prefix (entries : List (List UInt8)) (hbuf : List UInt8) (hroom : hbuf.length < 2496) :
    ∃ j, saveText hbuf entries = hbuf ++ joined (entries.take j) ∧
      hbuf.length + (joined (entries.take j)).length < 2496 ∧
      (j < entries.length ↔ 2496 ≤ hbuf.length + (joined entries).length) := by
  have hsize : hbufSize = 2496 := rfl
  induction entries generalizing hbuf with
  | nil =>
    refine ⟨0, (List.append_nil hbuf).symm, hroom, ?_⟩
    exact iff_of_false (Nat.lt_irrefl 0) (Nat.not_le.mpr hroom)
  | cons line entries ih =>
    rw [saveText, hsize, joined_length_cons]
    split
    · refine ⟨0, (List.append_nil hbuf).symm, hroom, ?_⟩
      exact iff_of_true (Nat.succ_pos _) (by omega)
    · rename_i hfits
      have hlen : (hbuf ++ line ++ [10]).length = hbuf.length + line.length + 1 := by
        rw [List.length_append, List.length_append, List.length_singleton]
      obtain ⟨j, heq, hlt, hall⟩ := ih (hbuf ++ line ++ [10]) (by omega)
      refine ⟨j + 1, ?_, ?_, ?_⟩
      · rw [heq, List.take_succ_cons, joined_cons, List.append_assoc, List.append_assoc, List.singleton_append]
      · rw [List.take_succ_cons, joined_length_cons]
        omega
      · rw [List.length_cons, Nat.add_lt_add_iff_right, hall, hlen]
        omega

/-- The lines of a file are recorded one after the other. -/
theorem load_entries_joined (h : Records s done) (hentries : ∀ line ∈ entries, Line line) {fuel : Nat}
    (hfuel : (joined entries).length ≤ fuel) (hcount : done.length + entries.length ≤ 64) :
    loadEntries s (joined entries) fuel = pushAll s entries := by
  induction entries generalizing s done fuel with
  | nil =>
    cases fuel with
    | zero => rfl
    | succ fuel => exact if_pos (Or.inl rfl)
  | cons line entries ih =>
    have hline := hentries line List.mem_cons_self
    rw [joined_length_cons] at hfuel
    obtain ⟨fuel, rfl⟩ := Nat.exists_eq_add_of_le' (show 1 ≤ fuel by omega)
    have hmore : ¬ (joined (line :: entries) = [] ∨ s.historyCount ≥ historySize * 2) := by
      rw [joined_nil_iff, h.count]
      rw [List.length_cons] at hcount
      unfold historySize
      exact not_or.mpr ⟨List.cons_ne_nil _ _, by omega⟩
    have hnewline : ∀ c ∈ line, c ≠ 10 := by
      rintro c hc rfl
      have hrange := (hline.2.2 10 hc).1
      revert hrange
      decide
    have hfirst : (joined (line :: entries)).takeWhile (· ≠ 10) = line := by
      rw [joined_cons, List.takeWhile_append_of_pos (fun c hc => decide_eq_true (hnewline c hc)),
        List.takeWhile_cons_of_neg (by simp), List.append_nil]
    have hrest : ((joined (line :: entries)).drop line.length).drop 1 = joined entries := by
      rw [joined_cons, List.drop_left, List.drop_succ_cons, List.drop_zero]
    obtain ⟨hpush, hnext⟩ := h.push (line_fits hline) (by rw [List.length_cons] at hcount; omega)
    unfold loadEntries
    rw [if_neg hmore]
    dsimp only
    rw [hfirst, hrest, if_neg hline.1, pushAll, hpush, ok_bind, ok_bind]
    refine ih hnext (fun x hx => hentries x (List.mem_cons_of_mem _ hx)) (by omega) ?_
    rw [List.length_append, List.length_singleton]
    rw [List.length_cons] at hcount
    omega

/-- A fresh boot finds the lines of the file. -/
theorem saved_loaded (hentries : ∀ line ∈ entries, Line line) (hfew : entries.length ≤ 32)
    (hsize : (joined entries).length < 2496) :
    ∃ t, historyLoad freshLine (savedFile (joined entries)) = .ok t ∧ Records t entries := by
  obtain ⟨t, ht, hrecords⟩ := push_all_records fresh_records (fun line hline => line_fits (hentries line hline))
    (by rw [List.length_nil]; omega)
  refine ⟨t, ?_, hrecords⟩
  unfold savedFile
  by_cases hnil : entries = []
  · rw [if_pos (joined_nil_iff.mpr hnil)]
    rw [hnil] at ht
    exact ht
  · have hplain : ∀ c ∈ joined entries, c ≠ 0 := by
      rintro c hc rfl
      obtain ⟨line, hline, hmem⟩ := List.mem_flatMap.mp hc
      rcases List.mem_append.mp hmem with hmem | hmem
      · exact (line_fits (hentries line hline)).2 hmem
      · exact absurd (List.mem_singleton.mp hmem) (by decide)
    have htext : ((joined entries).take (hbufSize - 1)).takeWhile (· ≠ 0) = joined entries := by
      rw [List.take_of_length_le (by unfold hbufSize; omega)]
      exact List.takeWhile_eq_self_iff.mpr (fun c hc => decide_eq_true (hplain c hc))
    rw [if_neg (fun hno => hnil (joined_nil_iff.mp hno))]
    unfold historyLoad
    dsimp only
    rw [htext, load_entries_joined fresh_records hentries (Nat.le_refl _) (by rw [List.length_nil]; omega)]
    exact ht

theorem last_entries_le (lines : List (List UInt8)) : (lastEntries lines).length ≤ 32 := by
  unfold lastEntries
  rw [List.length_drop]
  omega

theorem last_entries_of_le (h : lines.length ≤ 32) : lastEntries lines = lines := by
  unfold lastEntries
  rw [Nat.sub_eq_zero_of_le h, List.drop_zero]

/-- The entries survive exactly when the buffer of `history_save` has room for all of them. -/
theorem Records.survives_iff (h : Records s lines) (hlines : ∀ line ∈ lines, Line line) :
    Survives s lines ↔ (joined (lastEntries lines)).length < 2496 := by
  obtain ⟨j, htext, hsize, hall⟩ := save_text_prefix (lastEntries lines) [] (by decide)
  rw [List.nil_append] at htext
  rw [List.length_nil, Nat.zero_add] at hsize hall
  have hfew := last_entries_le lines
  have hentries : ∀ line ∈ (lastEntries lines).take j, Line line :=
    fun line hline => hlines line (List.mem_of_mem_drop (List.mem_of_mem_take hline))
  have htake : ((lastEntries lines).take j).length ≤ 32 := by
    rw [List.length_take]
    omega
  obtain ⟨t, hload, ht⟩ := saved_loaded hentries htake hsize
  have hlisted := ht.listed
  rw [last_entries_of_le htake] at hlisted
  have hsaved := h.saved
  rw [htext] at hsaved
  rw [← Nat.not_le, ← hall, Nat.not_lt]
  constructor
  · rintro ⟨bytes, t', hbytes, hload', -, hlisted'⟩
    obtain rfl := Except.ok.inj (hsaved.symm.trans hbytes)
    obtain rfl := Except.ok.inj (hload.symm.trans hload')
    have hlength := congrArg List.length (Except.ok.inj (hlisted.symm.trans hlisted'))
    rw [List.length_take] at hlength
    omega
  · intro hj
    rw [List.take_of_length_le hj] at hlisted hsaved hload ht
    exact ⟨_, t, hsaved, hload, ht.count, hlisted⟩

/-- Only 32 lines of 77 characters fill the buffer. -/
theorem joined_full_iff (hfits : ∀ line ∈ entries, line.length ≤ 77) :
    (joined entries).length ≤ entries.length * 78 ∧
      ((joined entries).length = entries.length * 78 ↔ ∀ line ∈ entries, line.length = 77) := by
  induction entries with
  | nil => exact ⟨Nat.le_refl 0, iff_of_true rfl (fun line hline => by cases hline)⟩
  | cons line entries ih =>
    obtain ⟨hle, hfull⟩ := ih (fun x hx => hfits x (List.mem_cons_of_mem _ hx))
    have hline := hfits line List.mem_cons_self
    rw [joined_length_cons, List.length_cons, List.forall_mem_cons, ← hfull]
    omega

/-- The history survives exactly when the number of lines is an `int` and there are not 32
last entries of full length. -/
theorem history_survives_iff (hlines : ∀ line ∈ lines, Line line) (hs : pushAll freshLine lines = .ok s) :
    Survives s lines ↔ lines.length ≤ 2147483647 ∧
      ¬ (32 ≤ lines.length ∧ ∀ line ∈ lastEntries lines, line.length = 77) := by
  have hlength : (lastEntries lines).length = min 32 lines.length := by
    unfold lastEntries
    rw [List.length_drop]
    omega
  by_cases hcount : lines.length ≤ 2147483647
  · obtain ⟨s', hs', hrecords⟩ := push_all_records fresh_records (fun line hline => line_fits (hlines line hline))
      (by rw [List.length_nil]; omega)
    obtain rfl := Except.ok.inj (hs'.symm.trans hs)
    rw [List.nil_append] at hrecords
    have hshort : ∀ line ∈ lastEntries lines, line.length ≤ 77 :=
      fun line hline => (hlines line (List.mem_of_mem_drop hline)).2.1
    obtain ⟨hle, hfull⟩ := joined_full_iff hshort
    rw [and_iff_right hcount, hrecords.survives_iff hlines, ← hfull]
    omega
  · have hwrapped := push_all_count (m := 0) ⟨by decide, by decide⟩ rfl hs
    rw [Int.zero_add] at hwrapped
    refine iff_of_false ?_ (fun hfits => hcount hfits.1)
    rintro ⟨bytes, t, hbytes, hload, ht, -⟩
    have hnone : historySave s = .ok [] := by
      have hneg : s.historyCount < 0 := by
        rw [hwrapped.2]
        unfold wrapInt
        omega
      unfold historySave oldestEntry
      rw [if_neg (by unfold historySize; omega), Int.toNat_of_nonpos (by omega)]
      rfl
    obtain rfl := Except.ok.inj (hnone.symm.trans hbytes)
    obtain rfl := Except.ok.inj hload
    rw [hlength] at ht
    have hzero : (0 : Int) = (min 32 lines.length : Nat) := ht
    omega

theorem history_survives_iff_two : ∃ s, pushAll freshLine [literal "ls", literal "pwd"] = .ok s ∧
    Survives s [literal "ls", literal "pwd"] := by
  have hlines : ∀ line ∈ [literal "ls", literal "pwd"], Line line := by
    unfold Line
    decide +kernel
  exact ⟨_, rfl, (history_survives_iff hlines rfl).mpr ⟨by decide, fun hno => absurd hno.1 (by decide)⟩⟩

/-- Of 32 lines of 77 characters the newest is not saved. -/
theorem newest_line_lost : ¬ ∀ (lines : List (List UInt8)) (s : CmdLine), (∀ line ∈ lines, Line line) →
    pushAll freshLine lines = .ok s → Survives s lines := by
  intro hall
  have hlines : ∀ line ∈ List.replicate 32 (List.replicate 77 (120 : UInt8)), Line line := by
    intro line hline
    rw [List.eq_of_mem_replicate hline]
    refine ⟨by decide, by decide, fun c hc => ?_⟩
    rw [List.eq_of_mem_replicate hc]
    decide
  obtain ⟨s, hs, hrecords⟩ := push_all_records fresh_records (fun line hline => line_fits (hlines line hline))
    (by decide)
  rw [List.nil_append] at hrecords
  have hsize := (hrecords.survives_iff hlines).mp (hall _ s hlines hs)
  revert hsize
  decide +kernel

end BaSic.Proofs.HistoryFile
