import BaSic.Proofs.TextFeed
import BaSic.Proofs.TextRows

namespace BaSic.Proofs.TextLines
open Kernel Fs Lib FileSizes TextFeed TextRows

variable {H : Type} {s : Shell H} {path part : List UInt8} {lines : List (List UInt8)} {node : Nat}

/-- What `grep` prints of lines. -/
def found (pattern : List UInt8) (lines : List (List UInt8)) : List (List UInt8) :=
  if lines.filter (hasQuery pattern) = [] then [bytes "no matches."] else lines.filter (hasQuery pattern)

/-- The five commands go through the same lines: `sort` fills its rows with them, `uniq` prints
them but those that repeat the one before, `head` and `tail` print them all, and `grep` those
with the pattern. -/
structure SameLines (ring : Nat → CharArray) (prev : CharArray) (table : SortTable) (s : Shell H)
    (path : List UInt8) (node : Nat) (lines : List (List UInt8)) : Prop where
  sort : ∃ t, sortRead table s.files.fs node = .ok t ∧ printRows t.table 0 t.count = .ok lines
  uniq : cmdUniq prev s path = .ok (lines.destutter (· ≠ ·))
  head : cmdHead s path 10 = .ok lines
  tail : cmdTail ring s path 10 = .ok lines
  grep : ∀ pattern, pattern ≠ [] → 0 ∉ pattern → cmdGrep s pattern path = .ok (found pattern lines)

theorem add_char_eq {part : List UInt8} (h : part.length < 126) (c : UInt8) : addChar part c = part ++ [c] := by
  have hroom : part.length < 127 := by omega
  simp [addChar, hroom]

theorem head_splits : Splits (fun s : List (List UInt8) × List UInt8 => decide ((s.1.length : Int) < 10)) headStep 10 126
    (fun s lines part => s = (lines, part)) where
  goes := by
    rintro s lines part rfl hmost
    simp
    omega
  char := by
    rintro s lines part c rfl hwidth hc -
    simp [headStep, hc, add_char_eq hwidth]
  newline := by
    rintro s lines part rfl - - hnul
    simp [headStep, line_str_eq hnul]

theorem grep_splits (pattern : List UInt8) : Splits (fun _ => true) (grepStep pattern) 10 126
    (fun s lines part => s = (lines.filter (hasQuery pattern), part)) where
  goes _ _ := rfl
  char := by
    rintro s lines part c rfl hwidth hc -
    have hroom : ¬ 126 ≤ part.length := by omega
    simp [grepStep, hc, hroom]
  newline := by
    rintro s lines part rfl - - hnul
    simp only [grepStep, true_or, if_true, line_str_eq hnul, List.filter_append]
    by_cases hquery : hasQuery pattern part
    · simp [hquery]
    · simp [hquery]

theorem tail_splits : Splits (fun _ => true) tailStep 10 126 (fun s lines part => s.rcount = lines.length ∧
    s.line = part ∧ ∀ i line, lines[i]? = some line → rowStr (s.ring i) = .ok line) where
  goes _ _ := rfl
  char := by
    rintro s lines part c ⟨hcount, rfl, hring⟩ hwidth hc -
    simp only [tailStep, if_neg hc, add_char_eq hwidth]
    exact ⟨_, rfl, hcount, rfl, hring⟩
  newline := by
    rintro s lines part ⟨hcount, rfl, hring⟩ hmost hwidth hnul
    simp only [tailStep, if_true, line_str_eq hnul]
    refine ⟨_, rfl, by simp [hcount], rfl, ?_⟩
    intro i line hline
    have hmod : s.rcount % 32 = lines.length := by omega
    rw [hmod]
    by_cases hi : i = lines.length
    · subst hi
      have hlast : s.line = line := by simpa using hline
      subst hlast
      have hholds : HoldsFrom (copyRow (s.ring lines.length) s.line) 0 s.line := copy_row_holds (.inl (by omega))
      simpa using row_str_holds hholds hnul (by omega)
    · have hold : lines[i]? = some line := by
        have hlt : i < lines.length := by
          have hin := (List.getElem?_eq_some_iff.mp hline).1
          simp only [List.length_append, List.length_singleton] at hin
          omega
        rwa [List.getElem?_append_left hlt] at hline
      simpa [hi] using hring i line hold

/-- `uniq` has printed the lines without repetitions, and `prev` is the last of them. -/
def Printed (s : Uniq) (lines : List (List UInt8)) (part : List UInt8) : Prop :=
  s.out = lines.destutter (· ≠ ·) ∧ s.line = part ∧ s.first = decide (lines = []) ∧
    ∀ last, lines.getLast? = some last → HoldsFrom s.prev 0 last ∧ (0 : UInt8) ∉ last

theorem Printed.differs {s : Uniq} (h : Printed s lines part) (hnul : (0 : UInt8) ∉ part) (hwidth : part.length ≤ 126) :
    s.differs = .ok (decide (lines.getLast? ≠ some part)) := by
  obtain ⟨-, rfl, hfirst, hprev⟩ := h
  cases hlast : lines.getLast? with
  | none =>
    have hnone : lines = [] := by simpa using hlast
    simp [Uniq.differs, hfirst, hnone]
  | some last =>
    have hsome : lines ≠ [] := by
      rintro rfl
      simp at hlast
    obtain ⟨hholds, hlastNul⟩ := hprev last hlast
    obtain ⟨d, hd, hsame, -⟩ := streq_holds (line_array_holds s.line) hholds hnul hlastNul (by omega)
    have heq : d = 0 ↔ last = s.line := hsame.trans eq_comm
    simp [Uniq.differs, hfirst, hsome, hd, heq]

theorem uniq_splits : Splits (fun _ => true) uniqStep 10 126 Printed where
  goes _ _ := rfl
  char := by
    rintro s lines part c ⟨hout, rfl, hrest⟩ hwidth hc -
    simp only [uniqStep, if_neg hc, add_char_eq hwidth]
    exact ⟨_, rfl, hout, rfl, hrest⟩
  newline := by
    intro s lines part h hmost hwidth hnul
    have hdiffers := h.differs hnul hwidth
    obtain ⟨hout, rfl, hfirst, hprev⟩ := h
    simp only [uniqStep, if_true, hdiffers, ok_bind]
    by_cases hrepeats : lines.getLast? = some s.line
    · have hsome : lines ≠ [] := by
        rintro rfl
        simp at hrepeats
      refine ⟨_, by simp [hrepeats]; rfl, ?_, rfl, ?_, ?_⟩
      · simp [destutter_concat, hrepeats, hout]
      · simp [hfirst, hsome]
      · intro last hlast
        apply hprev last
        simpa [hrepeats] using hlast
    · refine ⟨_, by simp [hrepeats]; rfl, ?_, rfl, by simp, ?_⟩
      · simp [destutter_concat, hrepeats, hout, line_str_eq hnul]
      · intro last hlast
        have hlast : s.line = last := by simpa using hlast
        subst hlast
        rw [line_str_eq hnul]
        exact ⟨copy_row_holds (.inl (by omega)), hnul⟩

section Rows
variable {most width : Nat} {text : List UInt8} {fs : Ramfs H}

theorem add_line_has {t : Sorter} (hcount : t.count = lines.length) (hline : t.line = part.take 127)
    (hrows : Has t.table (lines.map (List.take 127))) (hnul : (0 : UInt8) ∉ part) :
    t.addLine.count = (lines ++ [part]).length ∧ t.addLine.line = ([] : List UInt8).take 127 ∧
      Has t.addLine.table ((lines ++ [part]).map (List.take 127)) := by
  have hcut : (0 : UInt8) ∉ part.take 127 := fun hmem => hnul (List.mem_of_mem_take hmem)
  refine ⟨by simp [Sorter.addLine, hcount], rfl, ?_⟩
  have hnext := hrows.append hcut (by simp)
  simpa [Sorter.addLine, hcount, hline, line_str_eq hcut] using hnext

theorem sort_splits (hmost : most ≤ 64) : Splits (fun t : Sorter => decide (t.count < 64)) sortStep most width
    (fun t lines part => t.count = lines.length ∧ t.line = part.take 127 ∧ Has t.table (lines.map (List.take 127))) where
  goes := by
    rintro t lines part ⟨hcount, -, -⟩ hroom
    simp
    omega
  char := by
    rintro t lines part c ⟨hcount, hline, hrows⟩ - hc -
    simp only [sortStep, if_neg hc, hline, add_char_cut]
    exact ⟨_, rfl, hcount, rfl, hrows⟩
  newline := by
    rintro t lines part ⟨hcount, hline, hrows⟩ - - hnul
    exact ⟨_, if_pos rfl, add_line_has hcount hline hrows hnul⟩

/-- `sort` reads all lines, and the part of one behind them. -/
theorem sort_read_has (hsized : Sized fs) (table : SortTable) (hmost : most ≤ 64)
    (hcut : Cut (fileBytes fs node) most width lines part) : ∃ t, sortRead table fs node = .ok t ∧
      t.count = (parts 10 (fileBytes fs node)).length ∧
        Has t.table ((parts 10 (fileBytes fs node)).map (List.take 127)) := by
  have hnone : Has table (([] : List (List UInt8)).map (List.take 127)) := by simp [Has]
  obtain ⟨t, hfeed, hcount, hline, hrows⟩ := (sort_splits hmost).feed_text (s := ⟨table, 0, []⟩) ⟨rfl, rfl, hnone⟩ hcut
  have hread : feedFile fs node 128 (fun _ => true) (fun t : Sorter => decide (t.count < 64)) sortStep ⟨table, 0, []⟩ =
      feedText (fun t => decide (t.count < 64)) sortStep ⟨table, 0, []⟩ (fileBytes fs node) :=
    feed_file_eq hsized node block_size (by simp) _
  rw [hcut.parts_eq]
  by_cases hbegun : part = []
  · refine ⟨t, ?_, by simpa [hbegun] using hcount, by simpa [hbegun] using hrows⟩
    simp [sortRead, hread, hfeed, hline, hbegun]
  · have hroom : t.count < 64 := by
      have hle := hcut.count
      simp only [if_neg hbegun, List.length_append, List.length_singleton] at hle
      omega
    obtain ⟨hcount', -, hrows'⟩ := add_line_has hcount hline hrows hcut.begun.1.2
    refine ⟨t.addLine, ?_, by simpa [hbegun] using hcount', by simpa [hbegun] using hrows'⟩
    simp [sortRead, hread, hfeed, hline, hbegun, hroom]

end Rows

section Commands
variable {ring : Nat → CharArray} {prev : CharArray} {table : SortTable} {pattern : List UInt8}

theorem print_ring_eq {i : Nat} (h : ∀ j line, lines[j]? = some line → rowStr (ring ((i + j) % 32)) = .ok line) :
    printRing ring i lines.length = .ok lines := by
  induction lines generalizing i with
  | nil => rfl
  | cons line lines ih =>
    have hline := h 0 line rfl
    have hrest := ih (i := i + 1) fun j line hj => by
      have hnext := h (j + 1) line hj
      rwa [show i + (j + 1) = i + 1 + j by omega] at hnext
    rw [Nat.add_zero] at hline
    simp [printRing, hline, hrest]

theorem cmd_head_eq (hleads : LeadsTo s path node) (hsized : Sized s.files.fs)
    (hcut : Cut (fileBytes s.files.fs node) 10 126 lines part) : cmdHead s path 10 = .ok lines := by
  obtain ⟨t, hfeed, rfl⟩ := head_splits.feed_text rfl hcut
  unfold cmdHead
  simp only [on_file_eq hleads, feed_file_eq hsized node block_size (fun _ h => h), hfeed, ok_bind]

theorem cmd_tail_eq (ring : Nat → CharArray) (hleads : LeadsTo s path node) (hsized : Sized s.files.fs)
    (hcut : Cut (fileBytes s.files.fs node) 10 126 lines part) : cmdTail ring s path 10 = .ok lines := by
  obtain ⟨t, hfeed, hcount, -, hring⟩ := tail_splits.feed_text (s := ⟨ring, 0, []⟩) ⟨rfl, rfl, by simp⟩ hcut
  have hmost := hcut.count
  rw [List.length_append] at hmost
  have hstart : (if lines.length > 10 then lines.length - 10 else 0) = 0 := if_neg (by omega)
  unfold cmdTail
  simp only [on_file_eq hleads, feed_file_eq hsized node block_size (fun _ h => h), hfeed, ok_bind, hcount, hstart]
  apply print_ring_eq
  intro j line hline
  have hj := (List.getElem?_eq_some_iff.mp hline).1
  rw [Nat.zero_add, Nat.mod_eq_of_lt (by omega)]
  exact hring j line hline

theorem cmd_grep_eq (hpattern : pattern ≠ []) (hleads : LeadsTo s path node) (hsized : Sized s.files.fs)
    (hcut : Cut (fileBytes s.files.fs node) 10 126 lines part) : cmdGrep s pattern path = .ok (found pattern lines) := by
  obtain ⟨t, hfeed, rfl⟩ := (grep_splits pattern).feed_text (s := ([], [])) rfl hcut
  unfold cmdGrep
  have hblock : 0 < (127 : UInt32).toNat ∧ (127 : UInt32).toNat ≤ 4096 := by decide
  simp only [hpattern, if_false, on_file_eq hleads, feed_file_eq hsized node hblock (fun _ h => h), hfeed, ok_bind, found]

/-- `uniq` goes through the part of a line behind the last newline, too. -/
theorem cmd_uniq_eq (prev : CharArray) (hleads : LeadsTo s path node) (hsized : Sized s.files.fs)
    (hcut : Cut (fileBytes s.files.fs node) 10 126 lines part) :
    cmdUniq prev s path = .ok ((parts 10 (fileBytes s.files.fs node)).destutter (· ≠ ·)) := by
  obtain ⟨t, hfeed, hprinted⟩ :=
    uniq_splits.feed_text (s := ⟨[], [], Function.update prev 0 0, true⟩) ⟨rfl, rfl, by simp, by simp⟩ hcut
  have hdiffers := hprinted.differs hcut.begun.1.2 hcut.begun.2
  obtain ⟨hout, hline, -, -⟩ := hprinted
  unfold cmdUniq
  simp only [on_file_eq hleads, feed_file_eq hsized node block_size (fun _ h => h), hfeed, ok_bind, hdiffers, hline,
    line_str_eq hcut.begun.1.2, hcut.parts_eq, hout]
  by_cases hnone : part = []
  · simp [hnone]
  · simp only [hnone, if_false, destutter_concat]
    by_cases hrepeats : lines.getLast? = some part
    · simp [hrepeats, hnone]
    · simp [hrepeats, hnone]

theorem cmd_sort_eq (hsized : Sized s.files.fs) (table : SortTable)
    (hcut : Cut (fileBytes s.files.fs node) 10 126 lines part) : ∃ t, sortRead table s.files.fs node = .ok t ∧
      printRows t.table 0 t.count = .ok (parts 10 (fileBytes s.files.fs node)) := by
  obtain ⟨t, hread, hcount, hrows⟩ := sort_read_has hsized table (show 10 ≤ 64 by decide) hcut
  have hshort : ∀ line ∈ parts 10 (fileBytes s.files.fs node), line.take 127 = id line := by
    intro line hline
    rw [hcut.parts_eq] at hline
    apply List.take_of_length_le
    rcases List.mem_append.mp hline with hended | hbegun
    · have hle := (hcut.ended line hended).2
      omega
    · have hle := hcut.begun.2
      split at hbegun
      · simp at hbegun
      · rw [List.mem_singleton.mp hbegun]
        omega
  rw [List.map_congr_left hshort, List.map_id] at hrows
  refine ⟨t, hread, ?_⟩
  rw [hcount]
  exact print_rows_has fun j row hrow => by simpa using hrows j row hrow

/-- All five go through the same lines exactly when no line is begun behind the last newline. -/
theorem same_lines_iff (ring : Nat → CharArray) (prev : CharArray) (table : SortTable) (hleads : LeadsTo s path node)
    (hsized : Sized s.files.fs) (hnul : (0 : UInt8) ∉ fileBytes s.files.fs node)
    (hmost : (parts 10 (fileBytes s.files.fs node)).length ≤ 10)
    (hwidth : ∀ line ∈ parts 10 (fileBytes s.files.fs node), line.length < 126) :
    (∃ lines, SameLines ring prev table s path node lines) ↔
      fileBytes s.files.fs node = [] ∨ (fileBytes s.files.fs node).getLast? = some 10 := by
  obtain ⟨lines, part, hcut⟩ := exists_lines hnul (fun line hline => Nat.le_of_lt (hwidth line hline)) hmost
  obtain ⟨t, hread, hprint⟩ := cmd_sort_eq hsized table hcut
  have hparts := hcut.parts_eq
  rw [← hcut.whole_iff]
  constructor
  · rintro ⟨same, hsame⟩
    obtain ⟨t', hread', hprint'⟩ := hsame.sort
    obtain rfl := Except.ok.inj (hread.symm.trans hread')
    have hall := Except.ok.inj (hprint.symm.trans hprint')
    have hended := Except.ok.inj ((cmd_head_eq hleads hsized hcut).symm.trans hsame.head)
    rw [hparts, ← hended] at hall
    by_contra hnone
    simp [hnone] at hall
  · intro hnone
    simp only [hnone, if_true, List.append_nil] at hparts
    rw [hparts] at hprint
    have huniq := cmd_uniq_eq prev hleads hsized hcut
    rw [hparts] at huniq
    exact ⟨lines, ⟨t, hread, hprint⟩, huniq, cmd_head_eq hleads hsized hcut, cmd_tail_eq ring hleads hsized hcut,
      fun pattern hpattern _ => cmd_grep_eq hpattern hleads hsized hcut⟩

/-- The table of `sort` before its first use. -/
def noTable : SortTable := ⟨fun _ _ => 0, fun _ => rfl⟩

/-- Both lines of `/etc/motd` end with a newline. -/
theorem same_lines_motd :
    ∃ lines, SameLines (fun _ _ => 0) (fun _ => 0) noTable ⟨mountRamfs everyBlock (), rootPath, rootPath⟩
      (bytes "/etc/motd") 3 lines :=
  (same_lines_iff (s := ⟨mountRamfs everyBlock (), rootPath, rootPath⟩) _ _ _
    motd_leads (mount_sized everyBlock ())
    (by rw [motd_bytes]; decide +kernel) (by rw [motd_bytes]; decide +kernel)
    (by rw [motd_bytes]; decide +kernel)).mpr (Or.inr (by rw [motd_bytes]; decide +kernel))

/-- After `write a x`. -/
def noteShell : Shell Unit :=
  ⟨(cmdWrite everyBlock (mountRamfs everyBlock ()) (bytes "/") (bytes "a") (bytes "x")).2, rootPath, rootPath⟩

/-- `head` does not print what `uniq` does. -/
theorem last_line_dropped : LeadsTo noteShell (bytes "a") 4 ∧ fileBytes noteShell.files.fs 4 = bytes "x" ∧
    ¬ ∃ lines, SameLines (fun _ _ => 0) (fun _ => 0) noTable noteShell (bytes "a") 4 lines := by
  have hleads : LeadsTo noteShell (bytes "a") 4 := leads_to_of (by decide +kernel) (by decide +kernel)
  refine ⟨hleads, by decide +kernel, ?_⟩
  rintro ⟨lines, hsame⟩
  have hhead : cmdHead noteShell (bytes "a") 10 = .ok [] := by decide +kernel
  have huniq : cmdUniq (fun _ => 0) noteShell (bytes "a") = .ok [bytes "x"] := by decide +kernel
  obtain rfl := Except.ok.inj (hhead.symm.trans hsame.head)
  cases huniq.symm.trans hsame.uniq

end Commands

end BaSic.Proofs.TextLines
